import PackageCatalog.Proofs.Profile.Visits

/-!
# What the files make of a profile

A profile that is loaded is what the lines of its files make of an empty one, directory after
directory and line after line; a line that cannot be read leaves everything as it is.  Each kind of
file works on a part of its own:

    p is loaded → p.useMask = (the lines of the `use.mask` files).foldl readFlagLine []
                                                       and so on              (load_holds)
    p is loaded → its directories are what the visits end with                (load_visits)
-/

namespace PackageCatalog.Profile

open Scan (Ensures Reads Yields)

variable {σ : Type} {t : FileTree}

/-! ## Lines -/

/-- What is added at the end unless it is there is a member in either case. -/
theorem mem_ite_append_iff {α : Type} [DecidableEq α] {a b : α} {as : List α} :
    b ∈ (if a ∈ as then as else as ++ [a]) ↔ b ∈ as ∨ b = a := by
  by_cases ha : a ∈ as
  · rw [if_pos ha]
    exact ⟨.inl, fun hb => hb.elim id fun heq => heq ▸ ha⟩
  · rw [if_neg ha, List.mem_append, List.mem_singleton]

theorem afterMinus?_eq_some_iff {line rest : String} :
    afterMinus? line = some rest ↔ line = "-" ++ rest := by
  unfold afterMinus?
  simp only [Option.map_eq_some_iff, Text.dropWord_eq_some_iff]
  rw [← String.toList_inj, String.toList_append]
  constructor
  · rintro ⟨cs, hcs, rfl⟩
    exact hcs.trans (congrArg (['-'] ++ ·) String.toList_ofList.symm)
  · exact fun h => ⟨rest.toList, h, String.ofList_toList⟩

theorem ne_minus_of_afterMinus? {line : String} (h : afterMinus? line = none) (rest : String) :
    line ≠ "-" ++ rest := fun hline => by
  rw [afterMinus?_eq_some_iff.2 hline] at h
  cases h

theorem eq_minus_iff_of_afterMinus? {line name : String} (h : afterMinus? line = some name)
    (rest : String) : line = "-" ++ rest ↔ rest = name := by
  rw [← afterMinus?_eq_some_iff, h, Option.some_inj, eq_comm]

/-- What is there after a step that changes nothing if it fails. -/
def orKeep {ε α : Type} (before : α) : Except ε α → α
  | .ok after => after
  | .error _ => before

def readFlagLine (flags : List UseFlag) (line : String) : List UseFlag :=
  orKeep flags (applyFlagLine flags line)

def readMaskLine (masks : Table QualifiedName (List (String × Atom))) (line : String) :
    Table QualifiedName (List (String × Atom)) :=
  orKeep masks ((({ masks := masks } : Profile).applyMaskLine line).map Profile.masks)

/-- What a line of a `virtuals` file declares, if it is well-formed. -/
def declaration? (line : String) : Option (QualifiedName × Atom) :=
  match Text.words line with
  | virtualName :: provider :: _ =>
    (do return (← QualifiedName.parse virtualName, ← Atom.parse provider) :
      Except Error (QualifiedName × Atom)).toOption
  | _ => none

def readVirtualsLine (virtuals : Table QualifiedName Atom) (line : String) :
    Table QualifiedName Atom :=
  match declaration? line with
  | some (n, atom) => virtuals.insert n atom
  | none => virtuals

theorem orKeep_applyMaskLine (p : Profile) (line : String) :
    orKeep p (p.applyMaskLine line) = { p with masks := readMaskLine p.masks line } := by
  unfold readMaskLine applyMaskLine
  cases afterMinus? line with
  | some text => rfl
  | none => cases parseMask line <;> rfl

theorem orKeep_applyVirtualsLine (p : Profile) (path line : String) :
    orKeep p (p.applyVirtualsLine path line) =
      { p with virtuals := readVirtualsLine p.virtuals line } := by
  unfold readVirtualsLine declaration? applyVirtualsLine
  rcases Text.words line with _ | ⟨virtualName, _ | ⟨provider, rest⟩⟩
  · rfl
  · rfl
  · dsimp only
    cases QualifiedName.parse virtualName with
    | error e => rfl
    | ok n => cases Atom.parse provider <;> rfl

/-! ## Files -/

/-- The lines of a file, none if it cannot be read. -/
def linesAt (t : FileTree) (path : String) : List String :=
  match Scan.content t path with
  | .ok (some text) => Config.entryLines text
  | _ => []

/-- The assignments in a file, none if it cannot be read. -/
def assignmentsAt (t : FileTree) (path : String) : List (String × String) :=
  match Scan.content t path with
  | .ok (some text) => match Config.parseAssignments text with
    | .ok assignments => assignments
    | .error _ => []
  | _ => []

/-- A profile after the files of one more directory. -/
def readDir (t : FileTree) (p : Profile) (dir : String) : Profile :=
  { (assignmentsAt t (Path.join dir "make.defaults")).foldl assign p with
    useMask := (linesAt t (Path.join dir "use.mask")).foldl readFlagLine p.useMask
    useForce := (linesAt t (Path.join dir "use.force")).foldl readFlagLine p.useForce
    masks := (linesAt t (Path.join dir "package.mask")).foldl readMaskLine p.masks
    virtuals := (linesAt t (Path.join dir "virtuals")).foldl readVirtualsLine p.virtuals }

/-- Assignments change variables and nothing else. -/
theorem foldl_assign_eq (assignments : List (String × String)) (p : Profile) :
    assignments.foldl assign p = { p with
      environment := (assignments.foldl assign p).environment
      incrementals := (assignments.foldl assign p).incrementals } := by
  induction assignments generalizing p with
  | nil => rfl
  | cons a assignments ih =>
    have ha : p.assign a = { p with
        environment := (p.assign a).environment
        incrementals := (p.assign a).incrementals } := by
      unfold assign
      dsimp only
      split <;> rfl
    rw [List.foldl_cons, ih, ha]

/-! ## Loading -/

theorem readLineFile_ensures (path : String) :
    Ensures (fun _ : σ => True) (Config.readLineFile path) t
      fun lines => lines.getD [] = linesAt t path := by
  intro j _
  have hread : Reads (id : σ → σ) (Config.readLineFile path) t _ := Scan.reads_readLineFile path
  obtain ⟨j', hj', -⟩ := hread.on_eq j
  refine ⟨trivial, fun lines hlines => ?_⟩
  rw [hj'] at hlines
  obtain ⟨text, htext, rfl⟩ := Scan.map_eq_ok_iff.1 hlines
  unfold linesAt
  rw [htext]
  cases text <;> rfl

theorem readAssignmentFile_ensures (path : String) :
    Ensures (fun _ : σ => True) (Config.readAssignmentFile path) t
      fun assignments => assignments.getD [] = assignmentsAt t path := by
  have hread : Reads (id : σ → σ) (Scan.readText? path) t _ := Scan.reads_readText? path
  have htext : Ensures (fun _ : σ => True) (Scan.readText? path) t
      fun text => Scan.content t path = .ok text := fun j _ =>
    have ⟨_, hj', _⟩ := hread.on_eq j
    ⟨trivial, fun text h => by rwa [hj'] at h⟩
  refine htext.bind fun text htext => ?_
  unfold assignmentsAt
  rw [htext]
  cases text with
  | none => exact Scan.ensures_pure rfl
  | some text =>
    dsimp only
    cases Config.parseAssignments text with
    | ok assignments => exact Scan.ensures_pure rfl
    | error problem => exact Scan.ensures_throw _

theorem reads_orWarn {α : Type} (path : String) (before : α) (outcome : Except Error α) :
    Reads (id : σ → σ) (orWarn path before outcome) t (.ok (orKeep before outcome)) := by
  cases outcome with
  | ok after => exact Scan.reads_pure after
  | error e => exact (Scan.reads_warn _).bind_ok (Scan.reads_pure before)

/-- What the lines of a file do where none of them fails. -/
theorem applyLines_ensures_eq {α : Type} {path : String} {apply : α → String → Scan σ α}
    {read : α → String → α}
    (happly : ∀ a line, Reads (id : σ → σ) (apply a line) t (.ok (read a line))) (start : α) :
    Ensures (fun _ => True) (applyLines path apply start) t
      fun a => a = (linesAt t path).foldl read start := by
  refine (readLineFile_ensures path).bind fun lines hlines => ?_
  rw [← hlines]
  cases lines with
  | none => exact Scan.ensures_pure rfl
  | some lines =>
    have hfold : Reads (id : σ → σ) (lines.foldlM apply start) t (.ok (lines.foldl read start)) := by
      rw [← Scan.foldlM_ok]
      exact .foldlM lines (fun a line _ => happly a line) start
    intro j _
    obtain ⟨j', hj', -⟩ := hfold.on_eq j
    refine ⟨trivial, fun a ha => ?_⟩
    rw [hj'] at ha
    exact (Except.ok.inj ha).symm

theorem loadFlags_ensures_eq (path : String) (flags : List UseFlag) :
    Ensures (fun _ : σ => True) (loadFlags path flags) t
      fun flags' => flags' = (linesAt t path).foldl readFlagLine flags :=
  applyLines_ensures_eq (fun _ _ => reads_orWarn _ _ _) flags

theorem loadMasks_ensures_eq (dir : String) (p : Profile) :
    Ensures (fun _ : σ => True) (loadMasks dir p) t fun p' => p' = { p with
      masks := (linesAt t (Path.join dir "package.mask")).foldl readMaskLine p.masks } := by
  have hfold (lines : List String) :
      lines.foldl (fun p line => { p with masks := readMaskLine p.masks line }) p =
        { p with masks := lines.foldl readMaskLine p.masks } :=
    List.foldl_hom (fun masks => { p with masks := masks }) fun _ _ => rfl
  rw [← hfold]
  refine applyLines_ensures_eq (fun p line => ?_) p
  rw [← orKeep_applyMaskLine]
  exact reads_orWarn _ _ _

theorem loadVirtuals_ensures_eq (dir : String) (p : Profile) :
    Ensures (fun _ : σ => True) (loadVirtuals dir p) t fun p' => p' = { p with
      virtuals := (linesAt t (Path.join dir "virtuals")).foldl readVirtualsLine p.virtuals } := by
  have hfold (lines : List String) :
      lines.foldl (fun p line => { p with virtuals := readVirtualsLine p.virtuals line }) p =
        { p with virtuals := lines.foldl readVirtualsLine p.virtuals } :=
    List.foldl_hom (fun virtuals => { p with virtuals := virtuals }) fun _ _ => rfl
  rw [← hfold]
  refine applyLines_ensures_eq (fun p line => ?_) p
  rw [← orKeep_applyVirtualsLine p (Path.join dir "virtuals")]
  cases p.applyVirtualsLine (Path.join dir "virtuals") line with
  | ok p' => exact Scan.reads_pure p'
  | error w => exact (Scan.reads_warn w).bind_ok (Scan.reads_pure p)

theorem loadDir_ensures_eq (p : Profile) (dir : String) :
    Ensures (fun _ : σ => True) (loadDir p dir) t fun p' => p' = readDir t p dir := by
  have hvariables : Ensures (fun _ : σ => True) (loadVariables dir p) t fun p' =>
      p' = (assignmentsAt t (Path.join dir "make.defaults")).foldl assign p :=
    (readAssignmentFile_ensures _).bind fun assignments h => Scan.ensures_pure (by rw [h])
  unfold loadDir readDir
  refine hvariables.bind fun p₁ h₁ => ?_
  refine (loadFlags_ensures_eq _ _).bind fun mask hmask => ?_
  refine (loadFlags_ensures_eq _ _).bind fun force hforce => ?_
  refine (loadMasks_ensures_eq dir _).bind fun p₂ h₂ => ?_
  have hvirtuals := loadVirtuals_ensures_eq (σ := σ) (t := t) dir p₂
  rw [foldl_assign_eq] at h₁ ⊢
  rw [h₂, hforce, hmask, h₁] at hvirtuals
  rw [h₂, hforce, hmask, h₁]
  exact hvirtuals

/-- A profile is loaded from the directories that the visits end with, one after the other. -/
theorem load_ensures_eq (starts : List String) :
    Ensures (fun _ : σ => True) (load starts) t fun p => ∃ s, Visits t 0 {} starts (.ok s) ∧
      p = s.dirs.foldl (readDir t) { dirs := s.dirs } := by
  have hvisits : Ensures (fun _ : σ => True) (starts.foldlM (stack parentLimit) {}) t
      fun s => Visits t 0 {} starts (.ok s) := fun j _ =>
    ⟨trivial, fun _ hs => (visits_iff_stack j).2 hs⟩
  refine hvisits.bind fun s hs => ?_
  have hdirs (dirs : List String) (p : Profile) : Ensures (fun _ : σ => True)
      (dirs.foldlM loadDir p) t fun p' => p' = dirs.foldl (readDir t) p := by
    induction dirs generalizing p with
    | nil => exact Scan.ensures_pure rfl
    | cons dir dirs ih =>
      rw [List.foldlM_cons, List.foldl_cons]
      exact (loadDir_ensures_eq p dir).bind fun p' h => h ▸ ih p'
  intro j hj
  obtain ⟨-, hp⟩ := hdirs s.dirs { dirs := s.dirs } j hj
  exact ⟨trivial, fun p h => ⟨s, hs, hp p h⟩⟩

/-! ## Loaded profiles -/

/-- The lines of the files of one name, directory after directory. -/
def linesIn (t : FileTree) (file : String) (dirs : List String) : List String :=
  dirs.flatMap fun dir => linesAt t (Path.join dir file)

/-- The assignments of the `make.defaults` files, directory after directory. -/
def assignmentsIn (t : FileTree) (dirs : List String) : List (String × String) :=
  dirs.flatMap fun dir => assignmentsAt t (Path.join dir "make.defaults")

/-- The variables of a profile, apart from the rest of it. -/
def settings (p : Profile) : Profile :=
  { environment := p.environment, incrementals := p.incrementals }

theorem settings_assign (p : Profile) (a : String × String) :
    (p.assign a).settings = p.settings.assign a := by
  unfold assign
  dsimp only
  split <;> rfl

/-- A part of a profile that one kind of file decides. -/
theorem foldl_readDir {α β : Type} {part : Profile → β} {items : String → List α}
    {read : β → α → β} (h : ∀ p dir, part (readDir t p dir) = (items dir).foldl read (part p))
    (dirs : List String) (p : Profile) :
    part (dirs.foldl (readDir t) p) = (dirs.flatMap items).foldl read (part p) := by
  induction dirs generalizing p with
  | nil => rfl
  | cons dir dirs ih => rw [List.foldl_cons, ih, h, List.flatMap_cons, List.foldl_append]

/-- Each part of a profile is what the files of its kind make of nothing. -/
structure Holds (t : FileTree) (p : Profile) : Prop where
  settings : p.settings = (assignmentsIn t p.dirs).foldl assign {}
  useMask : p.useMask = (linesIn t "use.mask" p.dirs).foldl readFlagLine []
  useForce : p.useForce = (linesIn t "use.force" p.dirs).foldl readFlagLine []
  masks : p.masks = (linesIn t "package.mask" p.dirs).foldl readMaskLine ∅
  virtuals : p.virtuals = (linesIn t "virtuals" p.dirs).foldl readVirtualsLine ∅

theorem foldl_readDir_dirs (dirs : List String) (p : Profile) :
    (dirs.foldl (readDir t) p).dirs = p.dirs := by
  induction dirs generalizing p with
  | nil => rfl
  | cons dir dirs ih =>
    rw [List.foldl_cons, ih]
    unfold readDir
    rw [foldl_assign_eq]

theorem holds_foldl_readDir (t : FileTree) (dirs : List String) :
    Holds t (dirs.foldl (readDir t) { dirs := dirs }) := by
  constructor <;> rw [foldl_readDir_dirs]
  case settings =>
    refine foldl_readDir (fun p dir => ?_) dirs _
    exact (List.foldl_hom Profile.settings fun p a => (p.settings_assign a).symm).symm
  case useMask => exact foldl_readDir (fun _ _ => rfl) dirs _
  case useForce => exact foldl_readDir (fun _ _ => rfl) dirs _
  case masks => exact foldl_readDir (fun _ _ => rfl) dirs _
  case virtuals => exact foldl_readDir (fun _ _ => rfl) dirs _

section
variable {starts : List String} {p : Profile} {j : Journal σ}

theorem load_visits (h : ((load starts).on t j).1 = .ok p) :
    ∃ s, Visits t 0 {} starts (.ok s) ∧ p.dirs = s.dirs := by
  obtain ⟨s, hs, rfl⟩ := (load_ensures_eq starts j trivial).2 p h
  exact ⟨s, hs, foldl_readDir_dirs _ _⟩

theorem load_holds (h : ((load starts).on t j).1 = .ok p) : Holds t p := by
  obtain ⟨s, -, rfl⟩ := (load_ensures_eq starts j trivial).2 p h
  exact holds_foldl_readDir t s.dirs

end

end PackageCatalog.Profile
