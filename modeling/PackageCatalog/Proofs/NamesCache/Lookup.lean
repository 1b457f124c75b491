import PackageCatalog.NamesCache
import PackageCatalog.Proofs.Ascending
import PackageCatalog.Proofs.Files.Places
import PackageCatalog.Proofs.Scans
import PackageCatalog.Proofs.Text.Lines

/-!
# What a names cache answers

A lookup answers what the files of the cache hold, whatever was looked up before
(`lookup_yields`).  The file of a package is read line by line, so a list of categories that was
written one on a line is read back (`categoriesIn_contentOf`).
-/

namespace PackageCatalog

namespace Text

/-! ## Lines -/

/-- A text that can stand on a line of its own. -/
def IsLine (s : String) : Prop := '\n' ∉ s.toList ∧ '\r' ∉ s.toList

theorem dropReturn_of_notMem {cs : List Char} (h : '\r' ∉ cs) : dropReturn cs = cs := by
  unfold dropReturn
  rw [if_neg]
  intro hlast
  obtain ⟨front, rfl⟩ := List.getLast?_eq_some_iff.1 hlast
  exact h (by simp)

/-- The first line ends with the first line feed. -/
theorem lines_append {line : String} (h : IsLine line) (rest : String) :
    lines (line ++ "\n" ++ rest) = line :: lines rest := by
  rw [lines_append_feed h.1, dropReturn_of_notMem h.2, String.ofList_toList]

/-- What starts like a name of the catalogue and goes on without line ends can stand on a line. -/
theorem isLine_of_isNameOf {others : Char → Bool} {s : String} (hfeed : others '\n' = false)
    (hreturn : others '\r' = false) (h : isNameOf isNameStart others s.toList = true) :
    IsLine s :=
  ⟨notMem_of_isNameOf h (by decide) hfeed, notMem_of_isNameOf h (by decide) hreturn⟩

end Text

theorem Category.isLine (c : Category) : Text.IsLine c.text :=
  Text.isLine_of_isNameOf (by decide) (by decide) c.valid

theorem RepositoryName.isLine (name : RepositoryName) : Text.IsLine name.text :=
  Text.isLine_of_isNameOf (by decide) (by decide) name.valid

namespace NamesCache

open Scan (Reads Yields)
open FileTree (placeOf Fits)
open PackageCatalog.Path (IsName)

variable {c : NamesCache} {t : FileTree}

/-! ## Fragments -/

/-- The categories that a list of packages has for a package. -/
def categoriesOf (packages : List QualifiedName) (p : PackageName) : List Category :=
  Ascending.ofList ((packages.filter fun n => n.package = p).map (·.category))

/-- A fragment: categories, one on a line. -/
def contentOf : List Category → String
  | [] => ""
  | category :: rest => category.text ++ "\n" ++ contentOf rest

theorem lines_contentOf (categories : List Category) :
    Text.lines (contentOf categories) = categories.map Category.text := by
  induction categories with
  | nil => rfl
  | cons category rest ih => rw [contentOf, Text.lines_append category.isLine, ih, List.map_cons]

def withLine (found : List Category) (line : String) : List Category :=
  match Category.parse line with
  | .ok category => Ascending.insert category found
  | .error _ => found

/-- The categories listed in a fragment. -/
def categoriesIn (content : String) : List Category :=
  ((Text.lines content).filter fun l => !l.isEmpty).foldl withLine []

theorem categoriesIn_contentOf (categories : List Category) :
    categoriesIn (contentOf categories) = Ascending.ofList categories := by
  have hfilter : (categories.map Category.text).filter (fun l => !l.isEmpty) =
      categories.map Category.text := by
    rw [List.filter_eq_self]
    intro l hl
    obtain ⟨category, -, rfl⟩ := List.mem_map.1 hl
    simpa using category.isName.ne_empty
  unfold categoriesIn
  rw [lines_contentOf, hfilter, List.foldl_map, Ascending.ofList]
  congr 1
  funext found category
  rw [withLine, Category.parse_eq_ok_iff.2 rfl]

theorem reads_readFragment {τ : Type} {view : NamesMemo → τ} (path content : String) :
    Reads view (readFragment path content) t (.ok (categoriesIn content)) := by
  unfold readFragment categoriesIn
  rw [← Scan.foldlM_ok]
  refine .foldlM _ (fun found l _ => ?_) []
  unfold withLine
  cases Category.parse l with
  | ok category => exact Scan.reads_pure _
  | error e => exact (Scan.reads_warn _).bind_ok (Scan.reads_pure found)

/-! ## Lookups -/

/-- What the files of a cache hold for a package. -/
def stored (c : NamesCache) (t : FileTree) (p : PackageName) : List Category :=
  match t.readText (c.fragmentFile p.text) with
  | .ok content => categoriesIn content
  | .error _ => []

theorem reads_readPackage {τ : Type} {view : NamesMemo → τ} (p : PackageName) :
    Reads view (c.readPackage p) t (.ok (c.stored t p)) := by
  unfold readPackage stored
  intro shown j hj
  rw [Scan.on_bind_of_ok (Scan.on_read t j)]
  cases t.readText (c.fragmentFile p.text) with
  | ok content => exact reads_readFragment _ content shown j hj
  | error problem =>
    cases problem with
    | missing => exact ⟨rfl, hj⟩
    | _ => exact ⟨rfl, hj⟩

/-- What a lookup of `p` answers from a memo, and the memo after it. -/
inductive Looks (c : NamesCache) (t : FileTree) (p : PackageName) :
    NamesMemo → Option (List Category) → NamesMemo → Prop
  | off {memo : NamesMemo} (hu : memo.usable = false) : Looks c t p memo none memo
  | remembered {memo : NamesMemo} {categories : List Category} (hu : memo.usable = true)
      (he : memo.entries.get? p = some categories) : Looks c t p memo (some categories) memo
  | refused {memo : NamesMemo} {problem : NamesCacheProblem} (hu : memo.usable = true)
      (hchecked : memo.checked = false) (hc : c.check t = .error problem) :
      Looks c t p memo none ⟨false, false, memo.entries⟩
  | found {memo : NamesMemo} (hu : memo.usable = true) (he : memo.entries.get? p = none)
      (hc : memo.checked = true ∨ c.check t = .ok ()) :
      Looks c t p memo (some (c.stored t p))
        ⟨true, true, memo.entries.insert p (c.stored t p)⟩

/-- What was read for a package is remembered. -/
theorem remember_on (p : PackageName) (j : Journal NamesMemo) :
    ∃ warnings, (do
        let categories ← c.readPackage p
        Scan.modifyMemo fun memo => { memo with entries := memo.entries.insert p categories }
        return some categories : Scan NamesMemo (Option (List Category))).on t j =
      (.ok (some (c.stored t p)),
        ⟨{ j.memo with entries := j.memo.entries.insert p (c.stored t p) }, warnings⟩) := by
  have hread : Reads id (c.readPackage p) t _ := reads_readPackage p
  obtain ⟨j₁, hj₁, hmemo⟩ := hread.on_eq j
  have hmemo : j₁.memo = j.memo := hmemo
  rw [Scan.on_bind_of_ok hj₁, Scan.on_bind_of_ok (Scan.on_modifyMemo _ t j₁), hmemo]
  exact ⟨j₁.warnings, rfl⟩

/-- A lookup never fails. -/
theorem lookup_on (p : PackageName) (j : Journal NamesMemo) : ∃ answer j',
    (c.lookup p).on t j = (.ok answer, j') ∧ Looks c t p j.memo answer j'.memo := by
  obtain ⟨⟨usable, checked, entries⟩, old⟩ := j
  unfold lookup
  rw [Scan.on_bind_of_ok (Scan.on_memo t _)]
  cases usable with
  | false => exact ⟨none, _, rfl, .off rfl⟩
  | true =>
    cases he : entries.get? p with
    | some categories => exact ⟨some categories, _, rfl, .remembered rfl he⟩
    | none =>
      cases checked with
      | true =>
        obtain ⟨warnings, hon⟩ := remember_on (c := c) (t := t) p ⟨⟨true, true, entries⟩, old⟩
        exact ⟨_, _, hon, .found rfl he (.inl rfl)⟩
      | false =>
        simp only [Bool.not_true, Bool.not_false, Bool.false_eq_true, ↓reduceIte]
        rw [Scan.on_bind_of_ok (Scan.on_read t _)]
        cases hc : c.check t with
        | error problem => exact ⟨none, _, rfl, .refused rfl rfl hc⟩
        | ok _ =>
          simp only
          rw [Scan.on_bind_of_ok (Scan.on_setMemo _ t _)]
          obtain ⟨warnings, hon⟩ := remember_on (c := c) (t := t) p ⟨⟨true, true, entries⟩, old⟩
          exact ⟨_, _, hon, .found rfl he (.inr hc)⟩

/-- What a cache answers for a package; nothing if it cannot be used. -/
def answerIn (c : NamesCache) (t : FileTree) (p : PackageName) : Option (List Category) :=
  if isDisabled c.location then none
  else match c.check t with
    | .ok () => some (c.stored t p)
    | .error _ => none

/-- What lookups remember is what the files say. -/
structure Sound (c : NamesCache) (t : FileTree) (memo : NamesMemo) : Prop where
  usable : memo.usable = false → ∀ p, c.answerIn t p = none
  enabled : memo.usable = true → isDisabled c.location = false
  checked : memo.checked = true → c.check t = .ok ()
  entries : memo.usable = true → ∀ p categories, memo.entries.get? p = some categories →
    c.answerIn t p = some categories

theorem sound_freshMemo : Sound c t c.freshMemo where
  usable h p := by
    unfold answerIn
    rw [if_pos (by simpa [freshMemo] using h)]
  enabled h := by simpa [freshMemo] using h
  checked h := nomatch h
  entries _ _ _ h := nomatch h

theorem answerIn_of_check (hd : isDisabled c.location = false) (hc : c.check t = .ok ())
    (p : PackageName) : c.answerIn t p = some (c.stored t p) := by
  unfold answerIn
  rw [hd, if_neg Bool.false_ne_true, hc]

theorem answerIn_of_check_error {problem : NamesCacheProblem} (hc : c.check t = .error problem)
    (p : PackageName) : c.answerIn t p = none := by
  unfold answerIn
  rw [hc]
  split <;> rfl

/-- What a lookup answers is what the files hold, and so is what it remembers. -/
theorem Looks.sound {p : PackageName} {memo memo' : NamesMemo} {answer : Option (List Category)}
    (hlooks : Looks c t p memo answer memo') (h : Sound c t memo) :
    answer = c.answerIn t p ∧ Sound c t memo' := by
  cases hlooks with
  | off hu => exact ⟨(h.usable hu p).symm, h⟩
  | remembered hu he => exact ⟨(h.entries hu p _ he).symm, h⟩
  | refused hu hchecked hc =>
    exact ⟨(answerIn_of_check_error hc p).symm, fun _ q => answerIn_of_check_error hc q, nofun,
      nofun, nofun⟩
  | found hu he hc =>
    have hcheck : c.check t = .ok () := hc.elim h.checked id
    have henabled := h.enabled hu
    refine ⟨(answerIn_of_check henabled hcheck p).symm, nofun, fun _ => henabled,
      fun _ => hcheck, fun _ q categories hq => ?_⟩
    rw [Table.get?_insert] at hq
    by_cases hp : q = p
    · rw [if_pos hp] at hq
      cases hq
      rw [hp]
      exact answerIn_of_check henabled hcheck p
    · rw [if_neg hp] at hq
      exact h.entries hu q categories hq

/-- A lookup answers what the files hold, whatever was looked up before. -/
theorem lookup_yields (p : PackageName) :
    Yields (Sound c t) (c.lookup p) t (.ok (c.answerIn t p)) := by
  refine .of_on fun j h => ?_
  obtain ⟨answer, j', hon, hlooks⟩ := lookup_on (c := c) (t := t) p j
  obtain ⟨rfl, hsound⟩ := hlooks.sound h
  exact ⟨j', hon, hsound⟩

theorem lookup_run {memo : NamesMemo} (h : Sound c t memo) (p : PackageName) :
    ((c.lookup p).run t memo).1 = .ok (c.answerIn t p) := by
  rw [Scan.run_eq_on]
  exact (lookup_yields p ⟨memo, []⟩ h).1

end NamesCache

end PackageCatalog
