import PackageCatalog.Proofs.NamesCache.RoundTrip

/-!
# A names cache is judged once

The first lookup after an invalidation finds a cache usable if and only if it is guarded at that
moment: it is a directory whose version file starts with the format and the name of the repository.
Whatever happens to the files from then on, the verdict and every answer stand until the next
invalidation (`Renewed.judged`):

    lookup p = none      →  no lookup answers any more, and the cache is turned off
    lookup p = some cs   →  every later lookup of p answers some cs

What carries this is that nothing is remembered of a cache that has not passed its check
(`Orderly`).
-/

namespace PackageCatalog.NamesCache

variable {c : NamesCache} {w w₀ : Workspace NamesMemo} {looked : List PackageName}

/-! ## Windows -/

/-- A lookup in the files as they are. -/
def ask (c : NamesCache) (w : Workspace NamesMemo) (p : PackageName) :
    Except Error (Option (List Category)) × Workspace NamesMemo :=
  (Change.scan (c.lookup p)).on w

/-- What may become of a workspace without an invalidation, and the packages looked up on the
way. -/
inductive Lasts (c : NamesCache) (w₀ : Workspace NamesMemo) :
    Workspace NamesMemo → List PackageName → Prop
  | refl : Lasts c w₀ w₀ []
  | asked {w : Workspace NamesMemo} {looked : List PackageName} :
      Lasts c w₀ w looked → ∀ p, Lasts c w₀ (c.ask w p).2 (looked ++ [p])
  /-- Anything may happen to the files. -/
  | edited {w : Workspace NamesMemo} {looked : List PackageName} :
      Lasts c w₀ w looked → ∀ files, Lasts c w₀ { w with files := files } looked
  /-- A regeneration that fails is no invalidation. -/
  | notRegenerated {w w' : Workspace NamesMemo} {looked : List PackageName}
      {packages : List QualifiedName} {e : Error} : Lasts c w₀ w looked →
      (c.regenerate packages).on w = (.error e, w') → Lasts c w₀ w' looked

/-- A workspace in which the cache has just been made or invalidated. -/
inductive Renewed (c : NamesCache) : Workspace NamesMemo → Prop
  | made (files : FileTree) (warnings : List Warning) : Renewed c ⟨files, c.freshMemo, warnings⟩
  | invalidated {w₀ w : Workspace NamesMemo} {looked : List PackageName} :
      Renewed c w₀ → Lasts c w₀ w looked → Renewed c ((Change.scan c.invalidate).on w).2
  | regenerated {w₀ w w' : Workspace NamesMemo} {looked : List PackageName}
      {packages : List QualifiedName} : Renewed c w₀ → Lasts c w₀ w looked →
      (c.regenerate packages).on w = (.ok (), w') → Renewed c w'

/-! ## Guards -/

/-- The directory of the cache has a version file for the format and the repository.  A line that
is missing counts as empty. -/
structure Guarded (c : NamesCache) (t : FileTree) : Prop where
  directory : t.isDirectory c.location = true
  versionFile : ∃ content, t.readText c.versionFile = .ok content ∧
    line (Text.lines content) 0 = namesCacheFormat ∧
    line (Text.lines content) 1 = c.repository ∧
    (c.repository ≠ "" →
      (Text.lines content).take 2 = [namesCacheFormat, c.repository])

theorem checkVersion_eq_ok_iff {content : String} : c.checkVersion content = .ok () ↔
    line (Text.lines content) 0 = namesCacheFormat ∧
      line (Text.lines content) 1 = c.repository := by
  unfold checkVersion
  by_cases hformat : line (Text.lines content) 0 = namesCacheFormat
  · by_cases hrepository : line (Text.lines content) 1 = c.repository
    · simp [hformat, hrepository]
    · simp [hformat, hrepository]
  · simp [hformat]

/-- A line that is not empty is there, and so is the one before it. -/
theorem take_two_of_line {lines : List String} {a b : String} (ha : line lines 0 = a)
    (hb : line lines 1 = b) (hne : b ≠ "") : lines.take 2 = [a, b] := by
  match lines with
  | [] => exact absurd hb.symm hne
  | [_] => exact absurd hb.symm hne
  | first :: second :: rest =>
    show [first, second] = [a, b]
    rw [← ha, ← hb]
    rfl

theorem check_eq_ok_iff_guarded {t : FileTree} : c.check t = .ok () ↔ Guarded c t := by
  constructor
  · intro h
    have hdir := isDirectory_of_check h
    obtain ⟨content, hread, hcontent⟩ := (check_eq_ok_iff hdir).1 h
    obtain ⟨hformat, hrepository⟩ := checkVersion_eq_ok_iff.1 hcontent
    exact ⟨hdir, content, hread, hformat, hrepository, take_two_of_line hformat hrepository⟩
  · rintro ⟨hdir, content, hread, hformat, hrepository, -⟩
    exact (check_eq_ok_iff hdir).2
      ⟨content, hread, checkVersion_eq_ok_iff.2 ⟨hformat, hrepository⟩⟩

/-! ## Lookups -/

/-- A lookup answers from what is remembered and from the files as they are. -/
theorem ask_spec (c : NamesCache) (w : Workspace NamesMemo) (p : PackageName) : ∃ answer,
    (c.ask w p).1 = .ok answer ∧
      Looks c w.files p w.memo answer (c.ask w p).2.memo := by
  obtain ⟨answer, j, hon, hlooks⟩ := lookup_on (c := c) (t := w.files) p ⟨w.memo, w.warnings⟩
  have hask : c.ask w p = (.ok answer, { w with memo := j.memo, warnings := j.warnings }) := by
    unfold ask
    rw [Change.on_scan, hon]
  refine ⟨answer, by rw [hask], ?_⟩
  rw [hask]
  exact hlooks

theorem looks_of_ask {p : PackageName} {answer : Option (List Category)}
    (h : (c.ask w p).1 = .ok answer) :
    Looks c w.files p w.memo answer (c.ask w p).2.memo := by
  obtain ⟨answer', hanswer, hlooks⟩ := c.ask_spec w p
  rw [h] at hanswer
  cases hanswer
  exact hlooks

section Looks

variable {t : FileTree} {p : PackageName} {memo memo' : NamesMemo}
  {answer : Option (List Category)}

/-- A cache that is turned off stays so. -/
theorem Looks.eq_of_off (h : Looks c t p memo answer memo') (hu : memo.usable = false) :
    answer = none ∧ memo' = memo := by
  cases h with
  | off _ => exact ⟨rfl, rfl⟩
  | remembered hu' _ => rw [hu] at hu'; cases hu'
  | refused hu' _ _ => rw [hu] at hu'; cases hu'
  | found hu' _ _ => rw [hu] at hu'; cases hu'

theorem Looks.usable_eq (h : Looks c t p memo answer memo') : memo'.usable = answer.isSome := by
  cases h with
  | off hu => exact hu
  | remembered hu _ => exact hu
  | refused _ _ _ => rfl
  | found _ _ _ => rfl

end Looks

/-- What every lookup keeps of the memo lasts until the next invalidation. -/
theorem Lasts.keeps {I : List PackageName → NamesMemo → Prop}
    (hlooks : ∀ {looked t p memo answer memo'}, I looked memo → Looks c t p memo answer memo' →
      I (looked ++ [p]) memo')
    (h₀ : I [] w₀.memo) (h : Lasts c w₀ w looked) : I looked w.memo := by
  induction h with
  | refl => exact h₀
  | @asked w _ _ p ih =>
    obtain ⟨answer, -, hstep⟩ := c.ask_spec w p
    exact hlooks ih hstep
  | edited _ _ ih => exact ih
  | notRegenerated _ hrun ih =>
    rw [regenerate_error hrun]
    exact ih

/-! ## What is remembered -/

/-- Nothing is remembered of a cache that was not checked, or that is disabled. -/
structure Orderly (c : NamesCache) (looked : List PackageName) (memo : NamesMemo) : Prop where
  fresh : looked = [] → memo = c.freshMemo
  disabled : isDisabled c.location = true → memo = c.freshMemo
  unchecked : memo.checked = false → ∀ p, memo.entries.get? p = none

theorem orderly_freshMemo : Orderly c [] c.freshMemo := ⟨fun _ => rfl, fun _ => rfl, fun _ _ => rfl⟩

theorem Orderly.asked {t : FileTree} {p : PackageName} {memo memo' : NamesMemo}
    {answer : Option (List Category)} (h : Orderly c looked memo)
    (hlooks : Looks c t p memo answer memo') : Orderly c (looked ++ [p]) memo' where
  fresh hnil := by simp at hnil
  disabled hd := by
    have hfresh := h.disabled hd
    have hu : memo.usable = false := by simp [hfresh, freshMemo, hd]
    rw [(hlooks.eq_of_off hu).2, hfresh]
  unchecked hchecked := by
    cases hlooks with
    | off _ => exact h.unchecked hchecked
    | remembered _ _ => exact h.unchecked hchecked
    | refused _ hchecked' _ => exact h.unchecked hchecked'
    | found _ _ _ => cases hchecked

theorem Lasts.orderly (h₀ : Orderly c [] w₀.memo) (h : Lasts c w₀ w looked) :
    Orderly c looked w.memo :=
  h.keeps Orderly.asked h₀

/-- An invalidation forgets everything; a disabled cache has nothing to forget. -/
theorem Renewed.memo_eq (h : Renewed c w₀) : w₀.memo = c.freshMemo := by
  induction h with
  | made files warnings => rfl
  | invalidated _ _ _ => rfl
  | @regenerated w₀ w w' looked packages _ hlasts hrun ih =>
    by_cases hlocation : isDisabled c.location = true
    · rw [regenerate_disabled hlocation] at hrun
      cases hrun
      have horderly : Orderly c [] w₀.memo := by rw [ih]; exact orderly_freshMemo
      exact (hlasts.orderly horderly).disabled hlocation
    · exact (regenerate_reports (Bool.eq_false_iff.2 hlocation) hrun).1

theorem Renewed.orderly (h₀ : Renewed c w₀) (h : Lasts c w₀ w looked) :
    Orderly c looked w.memo := by
  refine h.orderly ?_
  rw [h₀.memo_eq]
  exact orderly_freshMemo

/-! ## Verdicts and answers stand -/

theorem Lasts.usable_eq_false (h₀ : w₀.memo.usable = false) (h : Lasts c w₀ w looked) :
    w.memo.usable = false := by
  refine h.keeps (I := fun _ memo => memo.usable = false) (fun hu hlooks => ?_) h₀
  rw [(hlooks.eq_of_off hu).2]
  exact hu

theorem ask_of_off (hu : w.memo.usable = false) (p : PackageName) : (c.ask w p).1 = .ok none := by
  obtain ⟨answer, hanswer, hlooks⟩ := c.ask_spec w p
  rw [hanswer, (hlooks.eq_of_off hu).1]

/-- The cache has passed its check, and the answer for `p` is remembered. -/
structure Holding (p : PackageName) (categories : List Category) (memo : NamesMemo) : Prop where
  usable : memo.usable = true
  checked : memo.checked = true
  entry : memo.entries.get? p = some categories

section Holding

variable {t : FileTree} {p : PackageName} {memo memo' : NamesMemo}
  {answer : Option (List Category)} {categories : List Category}

theorem Orderly.holding (h : Orderly c looked memo)
    (hlooks : Looks c t p memo (some categories) memo') : Holding p categories memo' := by
  cases hlooks with
  | remembered hu he =>
    refine ⟨hu, ?_, he⟩
    by_contra hchecked
    have hnone := h.unchecked (Bool.eq_false_iff.2 hchecked) p
    rw [he] at hnone
    cases hnone
  | found _ _ _ => exact ⟨rfl, rfl, by rw [Table.get?_insert, if_pos rfl]⟩

/-- Looking up a package of which nothing is remembered leaves the others alone. -/
theorem Holding.asked {q : PackageName} (h : Holding p categories memo)
    (hlooks : Looks c t q memo answer memo') : Holding p categories memo' := by
  cases hlooks with
  | off _ => exact h
  | remembered _ _ => exact h
  | refused _ hchecked _ =>
    rw [h.checked] at hchecked
    cases hchecked
  | found _ he _ =>
    refine ⟨rfl, rfl, ?_⟩
    have hne : p ≠ q := by
      rintro rfl
      rw [h.entry] at he
      cases he
    rw [Table.get?_insert, if_neg hne]
    exact h.entry

theorem Holding.answer_eq (h : Holding p categories memo) (hlooks : Looks c t p memo answer memo') :
    answer = some categories := by
  cases hlooks with
  | off hu => rw [h.usable] at hu; cases hu
  | remembered _ he => exact he.symm.trans h.entry
  | refused _ hchecked _ => rw [h.checked] at hchecked; cases hchecked
  | found _ he _ => rw [h.entry] at he; cases he

end Holding

theorem Lasts.holding {p : PackageName} {categories : List Category}
    (h₀ : Holding p categories w₀.memo) (h : Lasts c w₀ w looked) :
    Holding p categories w.memo :=
  h.keeps (I := fun _ => Holding p categories) Holding.asked h₀

theorem Holding.ask {p : PackageName} {categories : List Category}
    (h : Holding p categories w.memo) : (c.ask w p).1 = .ok (some categories) := by
  obtain ⟨answer, hanswer, hlooks⟩ := c.ask_spec w p
  rw [hanswer, h.answer_eq hlooks]

/-- The first lookup reads the verdict off the files. -/
theorem first_answer_iff (hmemo : w.memo = c.freshMemo) (p : PackageName) :
    (∃ categories, (c.ask w p).1 = .ok (some categories)) ↔
      isDisabled c.location = false ∧ Guarded c w.files := by
  obtain ⟨answer, hanswer, hlooks⟩ := c.ask_spec w p
  rw [hmemo] at hlooks
  generalize (c.ask w p).2.memo = memo' at hlooks
  rw [hanswer, ← check_eq_ok_iff_guarded]
  cases hlooks with
  | off hu =>
    have hd : isDisabled c.location = true := by simpa [freshMemo] using hu
    simp [hd]
  | remembered _ he => cases he
  | refused _ _ hc => simp [hc]
  | found hu _ hc =>
    have hd : isDisabled c.location = false := by simpa [freshMemo] using hu
    have hcheck : c.check w.files = .ok () := hc.resolve_left Bool.false_ne_true
    simp [hd, hcheck]

/-- Every lookup between two invalidations. -/
structure Judged (c : NamesCache) (looked : List PackageName) (w : Workspace NamesMemo) : Prop where
  /-- A lookup does not fail, and turns the cache off if it has no answer. -/
  total : ∀ p, ∃ answer, (c.ask w p).1 = .ok answer ∧ (c.ask w p).2.memo.usable = answer.isSome
  /-- The first lookup takes the verdict. -/
  first : looked = [] → ∀ p, (∃ categories, (c.ask w p).1 = .ok (some categories)) ↔
    isDisabled c.location = false ∧ Guarded c w.files
  refused : ∀ p, (c.ask w p).1 = .ok none → ∀ w' later, Lasts c (c.ask w p).2 w' later →
    w'.memo.usable = false ∧ ∀ q, (c.ask w' q).1 = .ok none
  kept : ∀ p categories, (c.ask w p).1 = .ok (some categories) →
    ∀ w' later, Lasts c (c.ask w p).2 w' later → (c.ask w' p).1 = .ok (some categories)
  disabled : isDisabled c.location = true → ∀ p, (c.ask w p).1 = .ok none

/-- Whatever happens to the files. -/
theorem Renewed.judged (h₀ : Renewed c w₀) (h : Lasts c w₀ w looked) : Judged c looked w where
  total p := by
    obtain ⟨answer, hanswer, hlooks⟩ := c.ask_spec w p
    exact ⟨answer, hanswer, hlooks.usable_eq⟩
  first hnil p := first_answer_iff ((h₀.orderly h).fresh hnil) p
  refused p hnone w' later hlater := by
    have hoff := hlater.usable_eq_false (looks_of_ask hnone).usable_eq
    exact ⟨hoff, ask_of_off hoff⟩
  kept p categories hsome w' later hlater :=
    (hlater.holding ((h₀.orderly h).holding (looks_of_ask hsome))).ask
  disabled hd p := by
    have hmemo := (h₀.orderly h).disabled hd
    refine ask_of_off ?_ p
    simp [hmemo, freshMemo, hd]

/-- A cache that lists `foo` in one category, before anything was looked up. -/
def unasked : Workspace NamesMemo where
  files := ⟨⟨[(["n"], .directory), (["n", "test"], .directory),
    (["n", "test", "foo"], .text "cat1\n"),
    (["n", "test", "_VERSION_"], .text "names-2\ntest\n")]⟩⟩
  memo := { usable := true }
  warnings := []

def listedName : PackageName := ⟨"foo", by decide⟩

/-- The same after a lookup, when all files are gone. -/
def erased : Workspace NamesMemo :=
  { ((ofBase "/n" testName.text).ask unasked listedName).2 with files := .empty }

/-- The answer outlives the file it was read from. -/
theorem Renewed.judged_erased :
    Renewed (ofBase "/n" testName.text) unasked ∧
      Lasts (ofBase "/n" testName.text) unasked erased [listedName] ∧
      Judged (ofBase "/n" testName.text) [listedName] erased ∧
      ((ofBase "/n" testName.text).ask erased listedName).1 =
        .ok (some [⟨"cat1", by decide⟩]) := by
  have hmade : Renewed (ofBase "/n" testName.text) unasked := .made _ _
  have hlasts : Lasts (ofBase "/n" testName.text) unasked erased [listedName] :=
    .edited (.asked .refl listedName) .empty
  exact ⟨hmade, hlasts, Renewed.judged hmade hlasts, by decide +kernel⟩

end PackageCatalog.NamesCache
