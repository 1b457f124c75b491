import PackageCatalog.Atom.Basic
import PackageCatalog.Error
import PackageCatalog.Text.Blank
import PackageCatalog.Version.Parser

/-!
# Reading dependency specifications

    blocker? operator? category/package-version   or   blocker? category/package
    ( : slot )?  ( [ use, use, ... ] )?  ( :: repository )?

An operator requires a version.  Without one, what follows the last hyphen before a digit is read as
a version if it is one, and otherwise belongs to the package.
-/

namespace PackageCatalog

/-! ## Words -/

/-- Characters of a word; `others` are those that this kind of word has besides. -/
def isWordChar (others : List Char) (c : Char) : Bool :=
  c.isAlphanum || c ∈ ['_', '-', '+'] || c ∈ others

/-- Categories and slots do not start with a hyphen, a period or a plus sign. -/
def isPlainStart (c : Char) : Bool := c ∉ ['-', '.', '+']

/-- The longest word at the front whose first character is fit to start it. -/
def readWord (start : Char → Bool) (others : List Char) (cs : List Char) :
    Option (List Char × List Char) :=
  match cs.takeWhile (isWordChar others) with
  | [] => none
  | c :: r => if start c then some (c :: r, cs.dropWhile (isWordChar others)) else none

theorem length_lt_of_readWord {start : Char → Bool} {others cs word rest : List Char}
    (h : readWord start others cs = some (word, rest)) : rest.length < cs.length := by
  have hcut := congrArg List.length
    (List.takeWhile_append_dropWhile (p := isWordChar others) (l := cs))
  rw [List.length_append] at hcut
  unfold readWord at h
  split at h
  · cases h
  · next ht =>
    rw [ht, List.length_cons] at hcut
    split at h
    · cases h
      omega
    · cases h

def readCategory (cs : List Char) : Option (List Char × List Char) :=
  readWord isPlainStart ['.'] cs

def isPackageStart (c : Char) : Bool := c.isAlphanum || c == '_'

/-- The text of a package in an atom, which need not be a package name. -/
def isPackageWord (cs : List Char) : Bool :=
  match cs with
  | [] => false
  | c :: _ => isPackageStart c && cs.all (isWordChar [])

/-! ## Versions -/

def VersionConstraint.ofChars? (cs : List Char) : Option VersionConstraint :=
  match Version.read? cs with
  | some (v, []) => ofVersion? v false
  | some (v, ['*']) => ofVersion? v true
  | _ => none

/-- The parts before and after the last hyphen that a digit follows. -/
def splitLastHyphen : List Char → Option (List Char × List Char)
  | [] => none
  | c :: r =>
    match splitLastHyphen r with
    | some (before, after) => some (c :: before, after)
    | none =>
      if c = '-' ∧ (r.head?.any Char.isDigit) = true then some ([], r) else none

/-- A package with a version. -/
def splitPackage? (cs : List Char) : Option (List Char × VersionConstraint) :=
  match splitLastHyphen cs with
  | some (package, version) =>
    if isPackageWord package then
      (VersionConstraint.ofChars? version).map fun c => (package, c)
    else none
  | none => none

def isVersionedChar : Char → Bool := isWordChar ['.', '*']

/-- What follows the slash of an atom: a package with a version, or without one unless
`versioned`. -/
def readPackage (versioned : Bool) (cs : List Char) :
    Option ((List Char × Option VersionConstraint) × List Char) :=
  match splitPackage? (cs.takeWhile isVersionedChar) with
  | some (package, c) => some ((package, some c), cs.dropWhile isVersionedChar)
  | none =>
    if versioned then none
    else (readWord isPackageStart [] cs).map fun (package, rest) => ((package, none), rest)

/-- What reading expects at the name of an atom. -/
def namePart (versioned : Bool) : GrammarPart :=
  if versioned then .packageVersion else .packageName

/-- The name of an atom, with its version if `versioned`.  Reading stops before what is no category,
behind a category without a slash, and behind a slash without a package; but a name that lacks a
required version is not read at all. -/
def readNamed (versioned : Bool) (cs : List Char) :
    Except Stop ((List Char × List Char × Option VersionConstraint) × List Char) :=
  match readCategory cs with
  | none => .error ⟨cs, some (namePart versioned)⟩
  | some (category, '/' :: r) =>
    match readPackage versioned r with
    | some ((package, version), rest) => .ok ((category, package, version), rest)
    | none =>
      if (r.head?.any isVersionedChar) = false then .error ⟨r, some .packageVersion⟩
      else if versioned then .error ⟨cs, some (namePart versioned)⟩
      else .error ⟨r, some (namePart versioned)⟩
  | some (_, r) => .error ⟨r, some (namePart versioned)⟩

/-! ## Slots, USE flags, repositories -/

def readSlotOperator : List Char → Option SlotOperator × List Char
  | '=' :: r => (some .rebuild, r)
  | '*' :: r => (some .any, r)
  | cs => (none, cs)

def readSubslot (cs : List Char) : Option String × List Char :=
  match cs with
  | '/' :: r =>
    match readWord isPlainStart ['.'] r with
    | some (subslot, rest) => (some (String.ofList subslot), rest)
    | none => (none, cs)
  | _ => (none, cs)

/-- A slot with an optional operator, or an operator alone. -/
def readSlotRequirement (cs : List Char) : Option (SlotRequirement × List Char) :=
  match readWord isPlainStart ['.'] cs with
  | some (slot, rest) =>
    let subslot := readSubslot rest
    let operator := readSlotOperator subslot.2
    some (⟨some ⟨String.ofList slot, subslot.1⟩, operator.1⟩, operator.2)
  | none =>
    match readSlotOperator cs with
    | (some operator, rest) => some (⟨none, some operator⟩, rest)
    | (none, _) => none

/-- A colon that no slot follows is left where it is. -/
def readSlot (cs : List Char) : Option SlotRequirement × List Char :=
  match cs with
  | ':' :: r =>
    match readSlotRequirement r with
    | some (requirement, rest) => (some requirement, rest)
    | none => (none, cs)
  | _ => (none, cs)

def readUseDefault : List Char → Option Bool × List Char
  | '(' :: '+' :: ')' :: r => (some true, r)
  | '(' :: '-' :: ')' :: r => (some false, r)
  | cs => (none, cs)

def readFlag (cs : List Char) : Option (String × Option Bool × List Char) :=
  (readWord Char.isAlphanum ['@'] cs).map fun (flag, rest) =>
    let (default, rest) := readUseDefault rest
    (String.ofList flag, default, rest)

def readUse (cs : List Char) : Option (UseRequirement × List Char) :=
  match cs with
  | '!' :: r =>
    match readFlag r with
    | some (flag, default, '?' :: rest) => some (⟨.ifDisabled, flag, default⟩, rest)
    | some (flag, default, '=' :: rest) => some (⟨.opposite, flag, default⟩, rest)
    | _ => none
  | '-' :: r =>
    (readFlag r).map fun (flag, default, rest) => (⟨.disabled, flag, default⟩, rest)
  | _ =>
    (readFlag cs).map fun (flag, default, rest) =>
      match rest with
      | '?' :: rest => (⟨.ifEnabled, flag, default⟩, rest)
      | '=' :: rest => (⟨.same, flag, default⟩, rest)
      | rest => (⟨.enabled, flag, default⟩, rest)

theorem length_le_readUseDefault (cs : List Char) : (readUseDefault cs).2.length ≤ cs.length := by
  unfold readUseDefault
  split <;> simp only [List.length_cons] <;> omega

theorem length_lt_of_readFlag {cs rest : List Char} {flag : String} {default : Option Bool}
    (h : readFlag cs = some (flag, default, rest)) : rest.length < cs.length := by
  obtain ⟨⟨word, r⟩, hw, he⟩ := Option.map_eq_some_iff.1 h
  have h1 := length_lt_of_readWord hw
  have h2 := length_le_readUseDefault r
  cases he
  exact Nat.lt_of_le_of_lt h2 h1

theorem length_lt_of_readUse {cs rest : List Char} {use : UseRequirement}
    (h : readUse cs = some (use, rest)) : rest.length < cs.length := by
  unfold readUse at h
  split at h
  · split at h
    · next hf =>
      have := length_lt_of_readFlag hf
      cases h
      simp only [List.length_cons] at *
      omega
    · next hf =>
      have := length_lt_of_readFlag hf
      cases h
      simp only [List.length_cons] at *
      omega
    · cases h
  · obtain ⟨⟨flag, default, r⟩, hf, he⟩ := Option.map_eq_some_iff.1 h
    have := length_lt_of_readFlag hf
    cases he
    simp only [List.length_cons]
    omega
  · obtain ⟨⟨flag, default, r⟩, hf, he⟩ := Option.map_eq_some_iff.1 h
    have := length_lt_of_readFlag hf
    revert he
    dsimp only
    split
    · intro he
      cases he
      simp only [List.length_cons] at this
      omega
    · intro he
      cases he
      simp only [List.length_cons] at this
      omega
    · intro he
      cases he
      exact this

/-- The requirements up to the closing bracket, each followed by a comma or the bracket. -/
def readUses (cs : List Char) : Except Stop (List UseRequirement × List Char) :=
  match cs with
  | [] => .error ⟨[], some .useList⟩
  | c :: r =>
    if c = ']' then .ok ([], r)
    else match _read : readUse (c :: r) with
      | some (use, ']' :: rest) => .ok ([use], rest)
      | some (use, ',' :: rest) => (readUses rest).map fun (uses, rest) => (use :: uses, rest)
      | some (_, rest) => .error ⟨rest, some .useList⟩
      | none => .error ⟨c :: r, some .useList⟩
termination_by cs.length
decreasing_by
  have := length_lt_of_readUse _read
  simp only [List.length_cons] at *
  omega

/-- An opening bracket has to be followed by requirements and a closing one; a comma may stand alone
between the two. -/
def readUseList (cs : List Char) : Except Stop (Option (List UseRequirement) × List Char) :=
  match cs with
  | '[' :: ',' :: ']' :: rest => .ok (some [], rest)
  | '[' :: ',' :: r => .error ⟨r, some .useList⟩
  | '[' :: r => (readUses r).map fun (uses, rest) => (some uses, rest)
  | _ => .ok (none, cs)

def readRepository (cs : List Char) : Option String × List Char :=
  match cs with
  | ':' :: ':' :: r =>
    match readWord (fun _ => true) [] r with
    | some (repository, rest) => (some (String.ofList repository), rest)
    | none => (none, cs)
  | _ => (none, cs)

/-! ## Atoms -/

def readBlocker : List Char → Option Blocker × List Char
  | '!' :: '!' :: r => (some .strong, r)
  | '!' :: r => (some .weak, r)
  | cs => (none, cs)

def readOperator : List Char → Option Operator × List Char
  | '<' :: '=' :: r => (some .lessOrEqual, r)
  | '<' :: r => (some .less, r)
  | '>' :: '=' :: r => (some .greaterOrEqual, r)
  | '>' :: r => (some .greater, r)
  | '~' :: r => (some .approximate, r)
  | '=' :: r => (some .equal, r)
  | cs => (none, cs)

namespace Atom

/-- The longest atom at the front of a text. -/
def read (cs : List Char) : Except Stop (Atom × List Char) := do
  let blocker := readBlocker cs
  let operator := readOperator blocker.2
  let ((category, package, version), rest) ← readNamed operator.1.isSome operator.2
  let slot := readSlot rest
  let (uses, rest) ← readUseList slot.2
  let repository := readRepository rest
  return (⟨blocker.1, String.ofList category, String.ofList package,
    version.map fun c => { c with operator := operator.1 }, slot.1, uses, repository.1⟩,
    repository.2)

/-- The atom that a whole text is. -/
def readAll (cs : List Char) : Except Stop Atom :=
  match read cs with
  | .ok (a, []) => .ok a
  | .ok (_, rest) => .error ⟨rest, none⟩
  | .error stop => .error stop

def parse (s : String) : Except Error Atom :=
  (readAll s.toList).mapError fun stop => .dependency (.atom (stop.report s))

def parse? (s : String) : Option Atom := (readAll s.toList).toOption

end Atom

/-! ## Each reader shortens the text -/

theorem length_le_readBlocker (cs : List Char) : (readBlocker cs).2.length ≤ cs.length := by
  unfold readBlocker
  split <;> simp only [List.length_cons] <;> omega

theorem length_le_readOperator (cs : List Char) : (readOperator cs).2.length ≤ cs.length := by
  unfold readOperator
  split <;> simp only [List.length_cons] <;> omega

theorem length_le_of_readPackage {versioned : Bool} {cs rest : List Char}
    {package : List Char × Option VersionConstraint}
    (h : readPackage versioned cs = some (package, rest)) : rest.length ≤ cs.length := by
  unfold readPackage at h
  split at h
  · cases h
    exact Text.length_dropWhile_le _ _
  · split at h
    · cases h
    · obtain ⟨⟨word, r⟩, hw, he⟩ := Option.map_eq_some_iff.1 h
      cases he
      exact Nat.le_of_lt (length_lt_of_readWord hw)

theorem length_lt_of_readNamed {versioned : Bool} {cs rest : List Char}
    {named : List Char × List Char × Option VersionConstraint}
    (h : readNamed versioned cs = .ok (named, rest)) : rest.length < cs.length := by
  unfold readNamed at h
  split at h
  · cases h
  · next category r hc =>
    have h1 := length_lt_of_readWord hc
    rw [List.length_cons] at h1
    split at h
    · next hp =>
      have h2 := length_le_of_readPackage hp
      cases h
      omega
    · split at h
      · cases h
      · split at h <;> cases h
  · cases h

theorem length_le_readSlotOperator (cs : List Char) :
    (readSlotOperator cs).2.length ≤ cs.length := by
  unfold readSlotOperator
  split <;> simp only [List.length_cons] <;> omega

theorem length_le_readSubslot (cs : List Char) : (readSubslot cs).2.length ≤ cs.length := by
  unfold readSubslot
  split
  · split
    · next hw =>
      have := length_lt_of_readWord hw
      simp only [List.length_cons]
      omega
    · exact Nat.le_refl _
  · exact Nat.le_refl _

theorem length_le_of_readSlotRequirement {cs rest : List Char} {r : SlotRequirement}
    (h : readSlotRequirement cs = some (r, rest)) : rest.length ≤ cs.length := by
  unfold readSlotRequirement at h
  split at h
  · next slot r' hw =>
    have h1 := length_lt_of_readWord hw
    have h2 := length_le_readSubslot r'
    have h3 := length_le_readSlotOperator (readSubslot r').2
    cases h
    exact Nat.le_of_lt (Nat.lt_of_le_of_lt (Nat.le_trans h3 h2) h1)
  · have h1 := length_le_readSlotOperator cs
    split at h
    · next ho =>
      cases h
      rw [ho] at h1
      exact h1
    · cases h

theorem length_le_readSlot (cs : List Char) : (readSlot cs).2.length ≤ cs.length := by
  unfold readSlot
  split
  · split
    · next hr =>
      have := length_le_of_readSlotRequirement hr
      simp only [List.length_cons]
      omega
    · exact Nat.le_refl _
  · exact Nat.le_refl _

theorem length_le_of_readUses {cs rest : List Char} {uses : List UseRequirement}
    (h : readUses cs = .ok (uses, rest)) : rest.length ≤ cs.length := by
  fun_induction readUses cs generalizing uses rest with
  | case1 => cases h
  | case2 r => cases h; exact Nat.le_succ _
  | case3 c r hc use r' hu =>
    have := length_lt_of_readUse hu
    cases h
    simp only [List.length_cons] at *
    omega
  | case4 c r hc use r' hu ih =>
    have := length_lt_of_readUse hu
    cases hr : readUses r' with
    | error stop => rw [hr] at h; cases h
    | ok read =>
      rw [hr] at h
      have := ih hr
      cases h
      simp only [List.length_cons] at *
      omega
  | case5 => cases h
  | case6 => cases h

theorem length_le_of_readUseList {cs rest : List Char} {uses : Option (List UseRequirement)}
    (h : readUseList cs = .ok (uses, rest)) : rest.length ≤ cs.length := by
  unfold readUseList at h
  split at h
  · cases h
    simp only [List.length_cons]
    omega
  · cases h
  · next r _ _ =>
    cases hr : readUses r with
    | error stop => rw [hr] at h; cases h
    | ok read =>
      rw [hr] at h
      have := length_le_of_readUses hr
      cases h
      exact Nat.le_succ_of_le this
  · cases h
    exact Nat.le_refl _

theorem length_le_readRepository (cs : List Char) :
    (readRepository cs).2.length ≤ cs.length := by
  unfold readRepository
  split
  · split
    · next hw =>
      have := length_lt_of_readWord hw
      simp only [List.length_cons]
      omega
    · exact Nat.le_refl _
  · exact Nat.le_refl _

theorem Atom.length_lt_of_read {cs rest : List Char} {a : Atom}
    (h : Atom.read cs = .ok (a, rest)) : rest.length < cs.length := by
  have h1 := length_le_readBlocker cs
  have h2 := length_le_readOperator (readBlocker cs).2
  simp only [Atom.read, bind, Except.bind] at h
  split at h
  · cases h
  · next named hn =>
    have h3 := length_lt_of_readNamed hn
    split at h
    · cases h
    · next uses hu =>
      have h4 := length_le_readSlot named.2
      have h5 := length_le_of_readUseList hu
      have h6 := length_le_readRepository uses.2
      cases h
      omega

end PackageCatalog
