import Mathlib.Data.List.DropRight
import Mathlib.Data.List.Induction
import PackageCatalog.Proofs.Profile.Contents
import PackageCatalog.Proofs.Text.Words

/-!
# Incremental variables

The assignments of a profile to an incremental variable are one stream of operations: `-token`
removes a token, `-*` removes all, and any other word enables itself.  What is enabled in the end is
what was named since it was last removed, in the order in which it was first named since then, and
the text of the variable holds the same tokens:

    the last operation that names a token wins                          (LastWins.foldl_applyToken)
    words (p.value X) = p.incremental X                                 (LastWins.words_intercalate)
    p is loaded → both hold of p                                        (load_lastWins)
-/

namespace PackageCatalog.Profile

variable {σ : Type} {t : FileTree} {ops kept : List String} {token op : String}

/-! ## Operations -/

/-- Whether an operation removes a token, by its name or with all others. -/
def removes (token op : String) : Bool := op == "-*" || op == "-" ++ token

/-- The operations after the last one that removes the token. -/
def sinceRemoved (token : String) (ops : List String) : List String :=
  ops.rtakeWhile (!removes token ·)

/-- The place of the operation that enables the token: the first that names it after the last that
removes it. -/
def enabledAt (token : String) (ops : List String) : Nat :=
  ops.length - (sinceRemoved token ops).length + (sinceRemoved token ops).idxOf token

/-- The tokens that a stream of operations enables, in the order in which they are enabled. -/
structure LastWins (ops kept : List String) : Prop where
  mem_iff : ∀ token, token ∈ kept ↔ afterMinus? token = none ∧ token ∈ sinceRemoved token ops
  nodup : kept.Nodup
  ordered : kept.Pairwise fun a b => enabledAt a ops < enabledAt b ops

theorem removes_eq_false_of_afterMinus? (h : afterMinus? op = none) (token : String) :
    removes token op = false := by
  unfold removes
  rw [Bool.or_eq_false_iff, beq_eq_false_iff_ne, beq_eq_false_iff_ne]
  exact ⟨ne_minus_of_afterMinus? h "*", ne_minus_of_afterMinus? h token⟩

theorem sinceRemoved_of_removes (h : removes token op = true) :
    sinceRemoved token (ops ++ [op]) = [] :=
  List.rtakeWhile_concat_neg _ _ _ (by simp [h])

theorem sinceRemoved_of_not_removes (h : removes token op = false) :
    sinceRemoved token (ops ++ [op]) = sinceRemoved token ops ++ [op] :=
  List.rtakeWhile_concat_pos _ _ _ (by simp [h])

theorem length_sinceRemoved_le : (sinceRemoved token ops).length ≤ ops.length :=
  (List.rtakeWhile_suffix _ _).length_le

theorem enabledAt_lt (h : token ∈ sinceRemoved token ops) : enabledAt token ops < ops.length := by
  have hindex := List.idxOf_lt_length_iff.2 h
  have hlength : (sinceRemoved token ops).length ≤ ops.length := length_sinceRemoved_le
  unfold enabledAt
  omega

/-- Later operations that do not remove a token leave it where it is. -/
theorem enabledAt_append (h : token ∈ sinceRemoved token ops) (hop : removes token op = false) :
    enabledAt token (ops ++ [op]) = enabledAt token ops := by
  unfold enabledAt
  rw [sinceRemoved_of_not_removes hop, List.idxOf_append_of_mem h, List.length_append,
    List.length_append, Nat.add_sub_add_right]

theorem enabledAt_append_self (h : token ∉ sinceRemoved token ops)
    (htoken : removes token token = false) : enabledAt token (ops ++ [token]) = ops.length := by
  have hlength : (sinceRemoved token ops).length ≤ ops.length := length_sinceRemoved_le
  unfold enabledAt
  rw [sinceRemoved_of_not_removes htoken, List.idxOf_append_of_notMem h, List.length_append,
    List.length_append, Nat.add_sub_add_right, List.idxOf_cons_self]
  omega

/-! ## What is enabled -/

namespace LastWins

theorem nil : LastWins [] [] where
  mem_iff := by simp [sinceRemoved]
  nodup := .nil
  ordered := .nil

theorem clear (ops : List String) : LastWins (ops ++ ["-*"]) [] where
  mem_iff token := by
    rw [sinceRemoved_of_removes (by simp [removes])]
    simp
  nodup := .nil
  ordered := .nil

/-- What still stands in the list after one more operation stands in the same order. -/
theorem ordered_append (h : LastWins ops kept) {kept' : List String} (hsub : kept'.Sublist kept)
    (hkeep : ∀ token ∈ kept', removes token op = false) :
    kept'.Pairwise fun a b => enabledAt a (ops ++ [op]) < enabledAt b (ops ++ [op]) := by
  refine (h.ordered.sublist hsub).imp_of_mem fun {a b} ha hb hlt => ?_
  rw [enabledAt_append ((h.mem_iff a).1 (hsub.subset ha)).2 (hkeep a ha),
    enabledAt_append ((h.mem_iff b).1 (hsub.subset hb)).2 (hkeep b hb)]
  exact hlt

theorem remove (h : LastWins ops kept) {removed : String} (hop : "-" ++ removed ≠ "-*") :
    LastWins (ops ++ ["-" ++ removed]) (kept.filter (· != removed)) := by
  have hremoves (token : String) : removes token ("-" ++ removed) = (removed == token) := by
    rw [Bool.eq_iff_iff]
    simp [removes, hop]
  refine ⟨fun token => ?_, h.nodup.filter _, h.ordered_append List.filter_sublist fun a ha => ?_⟩
  · rw [List.mem_filter, h.mem_iff]
    by_cases htoken : token = removed
    · subst htoken
      rw [sinceRemoved_of_removes (by simp [hremoves])]
      simp
    · rw [sinceRemoved_of_not_removes (by simpa [hremoves] using Ne.symm htoken)]
      simp only [bne_iff_ne, ne_eq, htoken, not_false_eq_true, and_true, List.mem_append,
        List.mem_singleton]
      exact and_congr_right fun hnone =>
        ⟨.inl, fun hmem => hmem.resolve_right (ne_minus_of_afterMinus? hnone removed)⟩
  · have hne : a ≠ removed := by simpa using (List.mem_filter.1 ha).2
    simpa [hremoves] using hne.symm

theorem enable (h : LastWins ops kept) (hop : afterMinus? op = none) :
    LastWins (ops ++ [op]) (if op ∈ kept then kept else kept ++ [op]) := by
  have hkeep : ∀ token, removes token op = false := removes_eq_false_of_afterMinus? hop
  have hordered := h.ordered_append (List.Sublist.refl kept) fun token _ => hkeep token
  refine ⟨fun token => ?_, ?_, ?_⟩
  · rw [mem_ite_append_iff, sinceRemoved_of_not_removes (hkeep token), List.mem_append,
      List.mem_singleton, h.mem_iff]
    constructor
    · rintro (⟨hnone, hsince⟩ | rfl)
      · exact ⟨hnone, .inl hsince⟩
      · exact ⟨hop, .inr rfl⟩
    · rintro ⟨hnone, hsince | rfl⟩
      · exact .inl ⟨hnone, hsince⟩
      · exact .inr rfl
  · split
    · exact h.nodup
    · next hout =>
      exact List.nodup_append.2 ⟨h.nodup, List.pairwise_singleton _ _, fun a ha b hb hab =>
        hout (List.mem_singleton.1 hb ▸ hab ▸ ha)⟩
  · split
    · exact hordered
    · next hout =>
      have hsince : op ∉ sinceRemoved op ops := fun hsince => hout ((h.mem_iff op).2 ⟨hop, hsince⟩)
      refine List.pairwise_append.2 ⟨hordered, List.pairwise_singleton _ _, fun a ha b hb => ?_⟩
      have hbefore := ((h.mem_iff a).1 ha).2
      rw [List.mem_singleton.1 hb, enabledAt_append_self hsince (hkeep op),
        enabledAt_append hbefore (hkeep a)]
      exact enabledAt_lt hbefore

theorem applyToken (h : LastWins ops kept) (op : String) :
    LastWins (ops ++ [op]) (applyToken kept op) := by
  unfold Profile.applyToken
  by_cases hclear : op = "-*"
  · subst hclear
    exact clear ops
  · rw [if_neg (by simpa using hclear)]
    cases hminus : afterMinus? op with
    | some removed =>
      obtain rfl := afterMinus?_eq_some_iff.1 hminus
      exact h.remove hclear
    | none => exact h.enable hminus

theorem foldl_applyToken (ops : List String) : LastWins ops (ops.foldl Profile.applyToken []) := by
  -- From the back, since what is enabled is decided by the operations that come last.
  induction ops using List.reverseRecOn with
  | nil => exact .nil
  | append_singleton ops op ih =>
    rw [List.foldl_append]
    exact ih.applyToken op

end LastWins

/-! ## Assignments -/

/-- The words of all assignments to a variable, each expanded with the variables set before it. -/
def wordsAssigned (name : String) : Profile → List (String × String) → List String
  | _, [] => []
  | p, a :: rest =>
    (if a.1 = name then Text.words (Config.expand p.environment.get? a.2) else []) ++
      wordsAssigned name (p.assign a) rest

theorem incremental_assign {name : String} (hname : name ∈ incrementalVariables) (p : Profile)
    (a : String × String) : (p.assign a).incremental name =
      (if a.1 = name then Text.words (Config.expand p.environment.get? a.2) else []).foldl applyToken
        (p.incremental name) := by
  unfold assign
  dsimp only
  by_cases hkey : a.1 = name
  · subst hkey
    rw [if_pos hname, if_pos rfl]
    simp [incremental, setVariable]
  · rw [if_neg hkey]
    split <;> simp [incremental, setVariable, Ne.symm hkey]

theorem incremental_foldl_assign {name : String} (hname : name ∈ incrementalVariables)
    (assignments : List (String × String)) (p : Profile) :
    (assignments.foldl assign p).incremental name =
      (wordsAssigned name p assignments).foldl applyToken (p.incremental name) := by
  induction assignments generalizing p with
  | nil => rfl
  | cons a rest ih =>
    rw [List.foldl_cons, ih, incremental_assign hname, wordsAssigned, List.foldl_append]

theorem isWord_of_mem_wordsAssigned {name : String} {assignments : List (String × String)}
    {p : Profile} (h : token ∈ wordsAssigned name p assignments) : Text.IsWord token := by
  induction assignments generalizing p with
  | nil => cases h
  | cons a rest ih =>
    rcases List.mem_append.1 h with h | h
    · by_cases hkey : a.1 = name
      · rw [if_pos hkey] at h
        exact Text.isWord_of_mem_words h
      · rw [if_neg hkey] at h
        cases h
    · exact ih h

/-- An assignment keeps the text of an incremental variable and its tokens together. -/
theorem value_assign {name : String} (hname : name ∈ incrementalVariables) {p : Profile}
    (h : p.value name = " ".intercalate (p.incremental name)) (a : String × String) :
    (p.assign a).value name = " ".intercalate ((p.assign a).incremental name) := by
  unfold assign
  dsimp only
  by_cases hkey : a.1 = name
  · subst hkey
    rw [if_pos hname]
    simp [value, incremental, setVariable]
  · unfold value incremental at h ⊢
    split <;> simpa [setVariable, Ne.symm hkey] using h

theorem value_foldl_assign {name : String} (hname : name ∈ incrementalVariables)
    (assignments : List (String × String)) {p : Profile}
    (h : p.value name = " ".intercalate (p.incremental name)) :
    (assignments.foldl assign p).value name =
      " ".intercalate ((assignments.foldl assign p).incremental name) := by
  induction assignments generalizing p with
  | nil => exact h
  | cons a rest ih => exact ih (value_assign hname h a)

/-- The words of the text are the tokens, where every token is an operation of a stream of words. -/
theorem LastWins.words_intercalate (h : LastWins ops kept) (hops : ∀ op ∈ ops, Text.IsWord op) :
    Text.words (" ".intercalate kept) = kept := by
  refine Text.words_intercalate kept fun token htoken => hops token ?_
  exact (List.rtakeWhile_suffix _ _).subset ((h.mem_iff token).1 htoken).2

/-! ## Loaded profiles -/

/-- The last operation that names a token wins, and the words of the text are the tokens. -/
theorem load_lastWins {starts : List String} {p : Profile} {j : Journal σ}
    (h : ((load starts).on t j).1 = .ok p) {name : String} (hname : name ∈ incrementalVariables) :
    LastWins (wordsAssigned name {} (assignmentsIn t p.dirs)) (p.incremental name) ∧
      Text.words (p.value name) = p.incremental name := by
  have hsettings := (load_holds h).settings
  have htokens : p.incremental name =
      (wordsAssigned name {} (assignmentsIn t p.dirs)).foldl applyToken [] :=
    (congrArg (incremental · name) hsettings).trans (incremental_foldl_assign hname _ {})
  have htext : p.value name = " ".intercalate (p.incremental name) := by
    have hvalue := value_foldl_assign hname (assignmentsIn t p.dirs) (p := {}) rfl
    rw [← hsettings] at hvalue
    exact hvalue
  have hwins := LastWins.foldl_applyToken (wordsAssigned name {} (assignmentsIn t p.dirs))
  rw [← htokens] at hwins
  refine ⟨hwins, ?_⟩
  rw [htext]
  exact hwins.words_intercalate fun op => isWord_of_mem_wordsAssigned

/-- A directory that clears what its parent enables and enables it again, but for one flag. -/
def clearingTree : FileTree :=
  ⟨⟨[(["p"], .directory), (["p", "base"], .directory),
    (["p", "base", "make.defaults"], .text "USE=\"foo bar\"\n"), (["p", "x"], .directory),
    (["p", "x", "parent"], .text "../base\n"),
    (["p", "x", "make.defaults"], .text "USE=\"-* ${USE} -foo baz\"\nUSE=foo\n")]⟩⟩

theorem load_lastWins_clearingTree : "USE" ∈ incrementalVariables ∧
    ∃ p, ((load ["/p/x"]).on clearingTree (⟨(), []⟩ : Journal Unit)).1 = .ok p ∧
      LastWins ["foo", "bar", "-*", "foo", "bar", "-foo", "baz", "foo"] ["bar", "baz", "foo"] ∧
      Text.words (p.value "USE") = ["bar", "baz", "foo"] := by
  have hname : "USE" ∈ incrementalVariables := by decide
  have hprofile : (((load ["/p/x"]).on clearingTree (⟨(), []⟩ : Journal Unit)).1.map fun p =>
      (p.incremental "USE", wordsAssigned "USE" {} (assignmentsIn clearingTree p.dirs))).toOption =
        some (["bar", "baz", "foo"], ["foo", "bar", "-*", "foo", "bar", "-foo", "baz", "foo"]) := by
    decide +kernel
  obtain ⟨p, hp, heq⟩ := Scan.map_eq_ok_iff.1 (Scan.toOption_eq_some_iff.1 hprofile)
  obtain ⟨hkept, hops⟩ := Prod.mk.inj heq
  have h := load_lastWins hp hname
  rw [hkept, hops] at h
  exact ⟨hname, p, hp, h⟩

end PackageCatalog.Profile
