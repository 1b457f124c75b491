import Mathlib.Computability.Language
import PackageCatalog.Proofs.Version.Reading

/-!
# The grammar of versions

    digits ( . digits )*  letter?  ( _ kind digits? )*  ( -r digits )?

As a language this is built from ranges of characters and words (`grammar`).  A version is one way
to build a word of it, and there is only one:

    Writes render grammar                                              (writes_render)

So reading accepts the words of the language and nothing else, and finds the pieces of which the
word is made (`parse_iff_grammar`).
-/

namespace PackageCatalog.Version

open scoped Computability

/-! ## The language -/

/-- One character of a range. -/
def oneOf (first last : Char) : Language Char :=
  {cs | ∃ c, first ≤ c ∧ c ≤ last ∧ cs = [c]}

def word (s : String) : Language Char := {s.toList}

def digit : Language Char := oneOf '0' '9'

def number : Language Char := digit * digit∗

def kindName : Language Char :=
  word "alpha" + word "beta" + word "pre" + word "rc" + word "p"

def grammar : Language Char :=
  number * (word "." * number)∗ * (1 + oneOf 'a' 'z') * (word "_" * kindName * digit∗)∗ *
    (1 + word "-r" * number)

/-! ## What is written and the words of a language -/

section
variable {α β : Type} {f : α → List Char} {g : β → List Char} {l m : Language Char}

/-- What `f` writes are the words of `l`. -/
def Writes (f : α → List Char) (l : Language Char) : Prop := ∀ cs, cs ∈ l ↔ ∃ a, f a = cs

theorem writes_word (s : String) : Writes (fun _ : Unit => s.toList) (word s) := by
  intro cs
  show cs = s.toList ↔ _
  simp [eq_comm]

theorem Writes.mul (hf : Writes f l) (hg : Writes g m) :
    Writes (fun ab : α × β => f ab.1 ++ g ab.2) (l * m) := by
  intro cs
  rw [Language.mem_mul]
  constructor
  · rintro ⟨x, hx, y, hy, rfl⟩
    obtain ⟨a, rfl⟩ := (hf x).1 hx
    obtain ⟨b, rfl⟩ := (hg y).1 hy
    exact ⟨(a, b), rfl⟩
  · rintro ⟨⟨a, b⟩, rfl⟩
    exact ⟨f a, (hf _).2 ⟨a, rfl⟩, g b, (hg _).2 ⟨b, rfl⟩, rfl⟩

theorem Writes.option (hf : Writes f l) :
    Writes (fun a : Option α => (a.map f).getD []) (1 + l) := by
  intro cs
  rw [Language.mem_add, Language.mem_one, hf cs, Option.exists]
  simp [eq_comm]

theorem Writes.star (hf : Writes f l) : Writes (List.flatMap f) l∗ := by
  intro cs
  rw [Language.mem_kstar]
  constructor
  · rintro ⟨pieces, rfl, hpieces⟩
    induction pieces with
    | nil => exact ⟨[], rfl⟩
    | cons piece pieces ih =>
      obtain ⟨hpiece, hrest⟩ := List.forall_mem_cons.1 hpieces
      obtain ⟨a, rfl⟩ := (hf piece).1 hpiece
      obtain ⟨as, has⟩ := ih hrest
      exact ⟨a :: as, by rw [List.flatMap_cons, has, List.flatten_cons]⟩
  · rintro ⟨as, rfl⟩
    refine ⟨as.map f, List.flatMap_def, fun piece hpiece => ?_⟩
    obtain ⟨a, -, rfl⟩ := List.mem_map.1 hpiece
    exact (hf _).2 ⟨a, rfl⟩

/-- Two ways to write the same words. -/
theorem Writes.congr (hf : Writes f l) (hfg : ∀ a, ∃ b, g b = f a) (hgf : ∀ b, ∃ a, f a = g b) :
    Writes g l := by
  intro cs
  rw [hf cs]
  constructor
  · rintro ⟨a, rfl⟩
    exact hfg a
  · rintro ⟨b, rfl⟩
    exact hgf b

end

/-! ## The pieces of a version -/

/-- A class of characters that is a range. -/
theorem writes_oneOf {first last : Char} {p : Char → Bool}
    (h : ∀ c, p c = true ↔ first ≤ c ∧ c ≤ last) :
    Writes (fun c : { c : Char // p c = true } => [c.val]) (oneOf first last) := by
  intro cs
  constructor
  · rintro ⟨c, hfirst, hlast, rfl⟩
    exact ⟨⟨c, (h c).2 ⟨hfirst, hlast⟩⟩, rfl⟩
  · rintro ⟨⟨c, hc⟩, rfl⟩
    obtain ⟨hfirst, hlast⟩ := (h c).1 hc
    exact ⟨c, hfirst, hlast, rfl⟩

/-- Runs of characters of a class. -/
theorem Writes.run {p : Char → Bool} {l : Language Char}
    (h : Writes (fun c : { c : Char // p c = true } => [c.val]) l) :
    Writes (Subtype.val : { cs : List Char // ∀ c ∈ cs, p c = true } → List Char) l∗ := by
  refine h.star.congr ?_ ?_
  · intro cs
    refine ⟨⟨cs.map Subtype.val, fun c hc => ?_⟩, (List.flatMap_pure_eq_map _ _).symm⟩
    obtain ⟨d, -, rfl⟩ := List.mem_map.1 hc
    exact d.property
  · rintro ⟨cs, hcs⟩
    refine ⟨cs.attachWith _ hcs, ?_⟩
    exact (List.flatMap_pure_eq_map _ _).trans (List.attachWith_map_subtype_val hcs)

/-- Two classes of characters taken together. -/
theorem Writes.or {p q : Char → Bool} {l m : Language Char}
    (hp : Writes (fun c : { c : Char // p c = true } => [c.val]) l)
    (hq : Writes (fun c : { c : Char // q c = true } => [c.val]) m) :
    Writes (fun c : { c : Char // (p c || q c) = true } => [c.val]) (l + m) := by
  intro cs
  rw [Language.mem_add, hp cs, hq cs]
  constructor
  · rintro (⟨⟨c, hc⟩, rfl⟩ | ⟨⟨c, hc⟩, rfl⟩)
    · exact ⟨⟨c, Bool.or_eq_true_iff.2 (.inl hc)⟩, rfl⟩
    · exact ⟨⟨c, Bool.or_eq_true_iff.2 (.inr hc)⟩, rfl⟩
  · rintro ⟨⟨c, hc⟩, rfl⟩
    rcases Bool.or_eq_true_iff.1 hc with hc | hc
    · exact .inl ⟨⟨c, hc⟩, rfl⟩
    · exact .inr ⟨⟨c, hc⟩, rfl⟩

/-- A class of one character. -/
theorem writes_single {c : Char} {s : String} (h : s.toList = [c]) :
    Writes (fun d : { d : Char // (d == c) = true } => [d.val]) (word s) := by
  intro cs
  show cs = s.toList ↔ _
  rw [h]
  constructor
  · rintro rfl
    exact ⟨⟨c, BEq.rfl⟩, rfl⟩
  · rintro ⟨⟨d, hd⟩, rfl⟩
    exact congrArg (fun d => [d]) (eq_of_beq hd)

theorem isDigit_iff (c : Char) : c.isDigit = true ↔ '0' ≤ c ∧ c ≤ '9' := by
  rw [Char.isDigit, Bool.and_eq_true, decide_eq_true_iff, decide_eq_true_iff]
  exact Iff.rfl

theorem isLower_iff (c : Char) : c.isLower = true ↔ 'a' ≤ c ∧ c ≤ 'z' := by
  show (decide _ && decide _) = true ↔ _
  rw [Bool.and_eq_true, decide_eq_true_iff, decide_eq_true_iff]
  exact Iff.rfl

theorem writes_digits : Writes (Subtype.val : Digits → List Char) digit∗ :=
  (writes_oneOf isDigit_iff).run

theorem writes_number : Writes (Subtype.val : Numeral → List Char) number := by
  refine ((writes_oneOf isDigit_iff).mul writes_digits).congr ?_ ?_
  · rintro ⟨c, ds⟩
    exact ⟨⟨c.val :: ds.val, nofun, List.forall_mem_cons.2 ⟨c.property, ds.property⟩⟩, rfl⟩
  · rintro ⟨ds, hne, hds⟩
    obtain ⟨c, cs, rfl⟩ := List.exists_cons_of_ne_nil hne
    obtain ⟨hc, hcs⟩ := List.forall_mem_cons.1 hds
    exact ⟨(⟨c, hc⟩, ⟨cs, hcs⟩), rfl⟩

theorem writes_kindName : Writes (fun kind : SuffixKind => kind.text.toList) kindName := by
  intro cs
  constructor
  · rintro ((((h | h) | h) | h) | h)
    · exact ⟨.alpha, h.symm⟩
    · exact ⟨.beta, h.symm⟩
    · exact ⟨.pre, h.symm⟩
    · exact ⟨.rc, h.symm⟩
    · exact ⟨.patch, h.symm⟩
  · rintro ⟨kind, rfl⟩
    cases kind with
    | alpha => exact .inl (.inl (.inl (.inl rfl)))
    | beta => exact .inl (.inl (.inl (.inr rfl)))
    | pre => exact .inl (.inl (.inr rfl))
    | rc => exact .inl (.inr rfl)
    | patch => exact .inr rfl

theorem writes_renderMinors : Writes renderMinors (word "." * number)∗ := by
  refine Writes.star (((writes_word ".").mul writes_number).congr ?_ ?_)
  · rintro ⟨-, n⟩
    exact ⟨n, rfl⟩
  · intro n
    exact ⟨((), n), rfl⟩

theorem writes_renderLetter : Writes renderLetter (1 + oneOf 'a' 'z') := by
  refine (writes_oneOf isLower_iff).option.congr ?_ ?_
  · intro letter
    exact ⟨letter, by cases letter <;> rfl⟩
  · intro letter
    exact ⟨letter, by cases letter <;> rfl⟩

theorem writes_renderSuffixes : Writes renderSuffixes (word "_" * kindName * digit∗)∗ := by
  refine Writes.star ((((writes_word "_").mul writes_kindName).mul writes_digits).congr ?_ ?_)
  · rintro ⟨⟨-, kind⟩, number⟩
    exact ⟨⟨kind, number⟩, by simp⟩
  · rintro ⟨kind, number⟩
    exact ⟨(((), kind), number), by simp⟩

theorem writes_renderRevision : Writes renderRevision (1 + word "-r" * number) := by
  refine ((writes_word "-r").mul writes_number).option.congr ?_ ?_
  · rintro (- | ⟨-, n⟩)
    · exact ⟨none, rfl⟩
    · exact ⟨some n, rfl⟩
  · rintro (- | n)
    · exact ⟨none, rfl⟩
    · exact ⟨some ((), n), rfl⟩

theorem writes_render : Writes render grammar := by
  refine ((((writes_number.mul writes_renderMinors).mul writes_renderLetter).mul
    writes_renderSuffixes).mul writes_renderRevision).congr ?_ ?_
  · rintro ⟨⟨⟨⟨major, minors⟩, letter⟩, suffixes⟩, revision⟩
    exact ⟨⟨major, minors, letter, suffixes, revision⟩, rfl⟩
  · rintro ⟨major, minors, letter, suffixes, revision⟩
    exact ⟨((((major, minors), letter), suffixes), revision), rfl⟩

/-! ## Reading -/

/-- The words of the grammar are read, and no other text is.  What is read of a text are the only
pieces of which it is made, and they give it back as it was. -/
theorem parse_iff_grammar (s : String) :
    ((∃ v, parse s = .ok v) ↔ s.toList ∈ grammar) ∧
    (parse s = .error (.invalidVersion s) ↔ s.toList ∉ grammar) ∧
    ∀ v, parse s = .ok v ↔ toString v = s ∧ ∀ w : Version, w.render = s.toList ↔ w = v := by
  have hread : ∀ v, parse s = .ok v ↔ v.render = s.toList := by
    intro v
    rw [parse_eq_ok_iff, ← toList_text, String.toList_inj]
  have hwords : (∃ v, parse s = .ok v) ↔ s.toList ∈ grammar := by
    rw [writes_render s.toList]
    exact exists_congr hread
  have hrefused : parse s = .error (.invalidVersion s) ↔ ¬ ∃ v, parse s = .ok v := by
    unfold parse
    cases ofChars? s.toList <;> simp
  refine ⟨hwords, hrefused.trans (not_congr hwords), fun v => ⟨fun h => ?_, fun h => ?_⟩⟩
  · refine ⟨parse_eq_ok_iff.1 h, fun w => ⟨fun hw => ?_, ?_⟩⟩
    · exact render_injective (hw.trans ((hread v).1 h).symm)
    · rintro rfl
      exact (hread w).1 h
  · exact parse_eq_ok_iff.2 h.1

end PackageCatalog.Version
