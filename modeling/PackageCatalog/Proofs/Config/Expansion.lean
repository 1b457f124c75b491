import PackageCatalog.Config.Expansion
import PackageCatalog.Proofs.Version.Reading

/-!
# Expansion piece by piece

    text  = piece*
    piece = literal  |  ${name}  |  $name  |  $

A name without braces goes on as long as it can, and a dollar sign stands alone if no reference
starts with it.  Every text is cut into such pieces (`exists_pieces`), and its expansion is that of
the pieces, one after the other, each looked at once:

    Pieces ps cs → expandChars value cs = ps.flatMap (Piece.expanded value)    (expandChars_pieces)

The same text comes out of going from dollar sign to dollar sign, in no more rounds than there are
dollar signs, and one for the rest (`expandRounds_eq`).
-/

namespace PackageCatalog.Config

/-! ## Pieces -/

/-- A text that makes a reference of the dollar sign before it, the name, and what follows the
reference. -/
inductive Refers : List Char → List Char → List Char → Prop
  | braced {name rest : List Char} (hne : name ≠ []) (hname : '}' ∉ name) :
    Refers ('{' :: (name ++ '}' :: rest)) name rest
  | bare {name rest : List Char} (hne : name ≠ []) (hname : ∀ c ∈ name, isReferenceChar c = true)
    (hrest : Starts (fun c => isReferenceChar c = false) rest) : Refers (name ++ rest) name rest

inductive Piece where
  | literal (text : List Char)
  | braced (name : List Char)
  | bare (name : List Char)
  | dollar

namespace Piece

def written : Piece → List Char
  | literal text => text
  | braced name => '$' :: '{' :: (name ++ ['}'])
  | bare name => '$' :: name
  | dollar => ['$']

def expanded (value : List Char → List Char) : Piece → List Char
  | literal text => text
  | braced name => value name
  | bare name => value name
  | dollar => ['$']

/-- Whether a piece may stand before a text. -/
def Fits : Piece → List Char → Prop
  | literal text, _ => '$' ∉ text
  | braced name, _ => name ≠ [] ∧ '}' ∉ name
  | bare name, rest => name ≠ [] ∧ (∀ c ∈ name, isReferenceChar c = true) ∧
      Starts (fun c => isReferenceChar c = false) rest
  | dollar, rest => ∀ name after, ¬ Refers rest name after

end Piece

/-- A text that is cut into these pieces. -/
inductive Pieces : List Piece → List Char → Prop
  | done : Pieces [] []
  | next {p : Piece} {ps : List Piece} {rest : List Char} (hp : p.Fits rest) (h : Pieces ps rest) :
    Pieces (p :: ps) (p.written ++ rest)

variable {value : List Char → List Char} {cs name rest : List Char}

/-! ## References -/

theorem isReferenceChar_brace : isReferenceChar '{' = false := by decide

theorem readReference_of_refers (h : Refers cs name rest) :
    readReference cs = some (name, rest) := by
  cases h with
  | braced hne hname =>
    have hcut : Text.splitOnce '}' (name ++ '}' :: rest) = some (name, rest) :=
      Text.splitOnce_eq_some_iff.2 ⟨rfl, hname⟩
    simp [readReference, hcut, hne]
  | @bare name rest hne hname hrest =>
    obtain ⟨htake, hdrop⟩ := takeWhile_dropWhile_append hname hrest
    obtain ⟨c, r, rfl⟩ := List.exists_cons_of_ne_nil hne
    have hc : c ≠ '{' := by
      rintro rfl
      cases isReferenceChar_brace.symm.trans (hname '{' List.mem_cons_self)
    unfold readReference
    split
    · next heq => exact absurd (List.cons.inj heq).1 hc
    · rw [htake, hdrop, if_neg hne]

theorem refers_of_readReference (h : readReference cs = some (name, rest)) :
    Refers cs name rest := by
  unfold readReference at h
  split at h
  · split at h
    · next hcut =>
      obtain ⟨rfl, hname⟩ := Text.splitOnce_eq_some_iff.1 hcut
      split at h
      · cases h
      · next hne =>
        cases h
        exact .braced hne hname
    · cases h
  · split at h
    · cases h
    · next hne =>
      cases h
      have hrefers := Refers.bare hne (List.all_eq_true.1 List.all_takeWhile)
        (starts_dropWhile isReferenceChar cs)
      rwa [List.takeWhile_append_dropWhile] at hrefers

theorem readReference_eq_none_iff :
    readReference cs = none ↔ ∀ name after, ¬ Refers cs name after := by
  constructor
  · intro h name after hrefers
    rw [readReference_of_refers hrefers] at h
    cases h
  · intro h
    cases hread : readReference cs with
    | none => rfl
    | some found => exact absurd (refers_of_readReference hread) (h found.1 found.2)

/-- Of what stands behind the dollar sign no more is left than there was. -/
theorem suffix_of_readReference (h : readReference cs = some (name, rest)) : rest <:+ cs := by
  cases refers_of_readReference h with
  | braced => exact ⟨'{' :: (name ++ ['}']), by simp⟩
  | bare => exact List.suffix_append name rest

/-! ## Expansion -/

theorem expandChars_reference (h : readReference cs = some (name, rest)) :
    expandChars value ('$' :: cs) = value name ++ expandChars value rest := by
  rw [expandChars]
  split
  · next hread =>
    cases h.symm.trans hread
    rfl
  · next hread => cases h.symm.trans hread

theorem expandChars_dollar (h : readReference cs = none) :
    expandChars value ('$' :: cs) = '$' :: expandChars value cs := by
  rw [expandChars]
  split
  · next hread => cases h.symm.trans hread
  · rfl

theorem expandChars_literal {text : List Char} (h : '$' ∉ text) (rest : List Char) :
    expandChars value (text ++ rest) = text ++ expandChars value rest := by
  induction text with
  | nil => rfl
  | cons c text ih =>
    rw [List.mem_cons, not_or] at h
    have hc : c ≠ '$' := Ne.symm h.1
    rw [List.cons_append, expandChars, ih h.2, List.cons_append]
    exact hc

/-- What a piece stands for is not looked at again. -/
theorem expandChars_piece {p : Piece} (h : p.Fits rest) :
    expandChars value (p.written ++ rest) = p.expanded value ++ expandChars value rest := by
  cases p with
  | literal text => exact expandChars_literal h rest
  | braced name =>
    have hread := readReference_of_refers (@Refers.braced name rest h.1 h.2)
    simpa [Piece.written, Piece.expanded] using @expandChars_reference value _ _ _ hread
  | bare name =>
    exact expandChars_reference (readReference_of_refers (.bare h.1 h.2.1 h.2.2))
  | dollar => exact expandChars_dollar (readReference_eq_none_iff.2 h)

theorem expandChars_pieces {ps : List Piece} (h : Pieces ps cs) :
    expandChars value cs = ps.flatMap (Piece.expanded value) := by
  induction h with
  | done => rw [expandChars]; rfl
  | next hp _ ih => rw [expandChars_piece hp, ih, List.flatMap_cons]

theorem exists_pieces (cs : List Char) : ∃ ps, Pieces ps cs := by
  fun_induction expandChars id cs with
  | case1 => exact ⟨[], .done⟩
  | case2 r name rest hread ih =>
    obtain ⟨ps, hps⟩ := ih
    cases refers_of_readReference hread with
    | braced hne hname =>
      have hcut := Pieces.next (p := .braced name) ⟨hne, hname⟩ hps
      exact ⟨_, by simpa [Piece.written] using hcut⟩
    | bare hne hname hrest => exact ⟨_, .next (p := .bare name) ⟨hne, hname, hrest⟩ hps⟩
  | case3 r hread ih =>
    obtain ⟨ps, hps⟩ := ih
    exact ⟨_, .next (p := .dollar) (readReference_eq_none_iff.1 hread) hps⟩
  | case4 c r hc ih =>
    obtain ⟨ps, hps⟩ := ih
    have hfits : (Piece.literal [c]).Fits r := by
      simpa [Piece.Fits, eq_comm] using hc
    exact ⟨_, .next hfits hps⟩

/-! ## From dollar sign to dollar sign -/

/-- Goes on to the next dollar sign and past the reference that starts with it, if one does, until
there is no other; nothing if there are more rounds to go than the bound allows. -/
def expandRounds (value : List Char → List Char) :
    Nat → List Char → List Char → Option (List Char)
  | 0, _, _ => none
  | bound + 1, out, cs =>
    match Text.splitOnce '$' cs with
    | none => some (out ++ cs)
    | some (before, r) =>
      match readReference r with
      | some (name, rest) => expandRounds value bound (out ++ before ++ value name) rest
      | none => expandRounds value bound (out ++ before ++ ['$']) r

theorem notMem_of_splitOnce {sep : Char} (h : Text.splitOnce sep cs = none) : sep ∉ cs := by
  intro hmem
  obtain ⟨before, after, rfl, hbefore⟩ := List.eq_append_cons_of_mem hmem
  cases h.symm.trans (Text.splitOnce_eq_some_iff.2 ⟨rfl, hbefore⟩)

theorem expandRounds_eq (bound : Nat) (out cs : List Char) (h : cs.count '$' < bound) :
    expandRounds value bound out cs = some (out ++ expandChars value cs) := by
  induction bound generalizing out cs with
  | zero => omega
  | succ bound ih =>
    unfold expandRounds
    cases hcut : Text.splitOnce '$' cs with
    | none =>
      have hliteral := @expandChars_literal value _ (notMem_of_splitOnce hcut) []
      rw [List.append_nil, expandChars, List.append_nil] at hliteral
      simp only [hliteral]
    | some parts =>
      obtain ⟨before, r⟩ := parts
      obtain ⟨rfl, hbefore⟩ := Text.splitOnce_eq_some_iff.1 hcut
      have hcount : r.count '$' < bound := by
        rw [List.count_append, List.count_cons_self] at h
        omega
      rw [expandChars_literal hbefore]
      simp only
      cases hread : readReference r with
      | some found =>
        have hless := (suffix_of_readReference hread).sublist.count_le '$'
        simp only
        rw [ih _ _ (by omega), expandChars_reference hread]
        simp only [List.append_assoc]
      | none =>
        simp only
        rw [ih _ _ hcount, expandChars_dollar hread]
        simp only [List.append_assoc, List.singleton_append]

/-! ## Texts -/

/-- The value that is put in the place of a reference. -/
def valueOf (value : String → Option String) (name : List Char) : List Char :=
  ((value (String.ofList name)).getD "").toList

/-- Every text is cut into pieces; its expansion is that of the pieces in their order, and it is
found in one pass. -/
theorem expand_pieces (value : String → Option String) (s : String) :
    (∃ ps, Pieces ps s.toList) ∧
    (∀ ps, Pieces ps s.toList →
      expand value s = String.ofList (ps.flatMap (Piece.expanded (valueOf value)))) ∧
    ∀ bound, s.toList.count '$' < bound →
      expandRounds (valueOf value) bound [] s.toList = some (expand value s).toList := by
  refine ⟨exists_pieces s.toList, fun ps hps => ?_, fun bound hbound => ?_⟩
  · exact congrArg String.ofList (expandChars_pieces hps)
  · rw [expandRounds_eq bound [] s.toList hbound, expand, String.toList_ofList]
    rfl

/-- The text is `$A$(B)-$()$(C` with braces for the parentheses. -/
def mixedText : String := "$A$\x7bB\x7d-$\x7b\x7d$\x7bC"

def mixedPieces : List Piece :=
  [.bare ['A'], .braced ['B'], .literal ['-'], .dollar, .literal ['{', '}'], .dollar,
    .literal ['{', 'C']]

def valueOfA (name : String) : Option String := if name = "A" then some "$B" else none

theorem expand_pieces_mixed :
    Pieces mixedPieces mixedText.toList ∧
    expand valueOfA mixedText = "$B-$\x7b\x7d$\x7bC" ∧
    mixedText.toList.count '$' < 5 ∧
    expandRounds (valueOf valueOfA) 5 [] mixedText.toList =
      some "$B-$\x7b\x7d$\x7bC".toList := by
  obtain ⟨-, hexpand, hrounds⟩ := expand_pieces valueOfA mixedText
  have hunclosed : Pieces [.dollar, .literal ['{', 'C']] ['$', '{', 'C'] :=
    .next (readReference_eq_none_iff.1 (by decide))
      (@Pieces.next (.literal ['{', 'C']) _ _ (by simp [Piece.Fits]) .done)
  have hempty : Pieces [.dollar, .literal ['{', '}'], .dollar, .literal ['{', 'C']]
      ['$', '{', '}', '$', '{', 'C'] :=
    .next (readReference_eq_none_iff.1 (by decide))
      (@Pieces.next (.literal ['{', '}']) _ _ (by simp [Piece.Fits]) hunclosed)
  have hpieces : Pieces mixedPieces mixedText.toList :=
    @Pieces.next (.bare ['A']) _ _ ⟨nofun, List.all_eq_true.1 (by decide),
      starts_cons (by decide) _⟩
      (@Pieces.next (.braced ['B']) _ _ ⟨nofun, by decide⟩
        (@Pieces.next (.literal ['-']) _ _ (by simp [Piece.Fits]) hempty))
  have hcount : mixedText.toList.count '$' < 5 := by decide
  have hvalue : expand valueOfA mixedText = "$B-$\x7b\x7d$\x7bC" := by
    rw [hexpand _ hpieces]
    decide
  exact ⟨hpieces, hvalue, hcount, by rw [hrounds 5 hcount, hvalue]⟩

end PackageCatalog.Config
