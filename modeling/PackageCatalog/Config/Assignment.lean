import PackageCatalog.Error
import PackageCatalog.Text.Blank
import PackageCatalog.Text.Front

/-!
# Lists of assignments

Configuration files assign texts to keys:

    # a comment
    KEY=bare text up to the line end or a comment
    export KEY="any text without a double quote,
    also over several lines"
    KEY='any text without a single quote'

`parseAssignments` gives the assignments in the order of the file.
-/

namespace PackageCatalog.Config

/-! ## Algorithm -/

def isSpace (c : Char) : Bool := c == ' ' || c == '\t'

def isSpaceOrLineEnd (c : Char) : Bool := isSpace c || c == '\r' || c == '\n'

def isKeyStart (c : Char) : Bool := c.isAlpha || c == '_'

def isKeyChar (c : Char) : Bool := c.isAlphanum || c == '_'

/-- A word `export` with space after it may stand before a key. -/
def dropExport (cs : List Char) : List Char :=
  match Text.dropWord "export".toList cs with
  | some (c :: r) => if isSpace c then r.dropWhile isSpace else cs
  | _ => cs

def readKey : List Char → Option (List Char × List Char)
  | [] => none
  | c :: r =>
    if isKeyStart c then some (c :: r.takeWhile isKeyChar, r.dropWhile isKeyChar) else none

def isBareChar (c : Char) : Bool := c != '\n' && c != '#'

/-- A quote at the start has to be closed; a bare value loses the blanks at its end. -/
def readValue : List Char → Option (List Char × List Char)
  | '"' :: r => Text.splitOnce '"' r
  | '\'' :: r => Text.splitOnce '\'' r
  | cs => some (Text.dropEndWhile Text.isBlank (cs.takeWhile isBareChar), cs.dropWhile isBareChar)

def dropComment : List Char → List Char
  | '#' :: r => r.dropWhile (· != '\n')
  | cs => cs

/-- Space, a comment, and the end of the line or of the text. -/
def readLineEnd (cs : List Char) : Option (List Char) :=
  match dropComment (cs.dropWhile isSpace) with
  | [] => some []
  | '\n' :: r => some r
  | '\r' :: '\n' :: r => some r
  | _ => none

/-- Reading stops at what is no key, behind a key without an equals sign, at the end of the text if
a quote stays open, and at what stands between a closed quote and the end of the line. -/
def readAssignment (cs : List Char) : Except Stop ((String × String) × List Char) :=
  match readKey (dropExport cs) with
  | none => .error ⟨dropExport cs, some .variableName⟩
  | some (key, '=' :: r) =>
    match readValue r with
    | none => .error ⟨[], none⟩
    | some (value, r) =>
      match readLineEnd r with
      | none => .error ⟨r.dropWhile isSpace, some .assignmentEnd⟩
      | some rest => .ok ((String.ofList key, String.ofList value), rest)
  | some (_, r) => .error ⟨r, none⟩

/-! ## Each reader shortens the text -/

theorem length_dropExport_le (cs : List Char) : (dropExport cs).length ≤ cs.length := by
  unfold dropExport
  split
  · next c r h =>
    split
    · have := Text.length_dropWhile_le isSpace r
      rw [Text.dropWord_eq_some_iff.1 h]
      simp only [List.length_append, List.length_cons]
      omega
    · exact Nat.le_refl _
  · exact Nat.le_refl _

theorem length_lt_of_readKey {cs key rest : List Char} (h : readKey cs = some (key, rest)) :
    rest.length < cs.length := by
  cases cs with
  | nil => cases h
  | cons c r =>
    simp only [readKey] at h
    split at h
    · cases h
      exact Nat.lt_succ_of_le (Text.length_dropWhile_le _ _)
    · cases h

theorem length_lt_of_splitOnce {sep : Char} {cs before after : List Char}
    (h : Text.splitOnce sep cs = some (before, after)) : after.length < cs.length := by
  rw [(Text.splitOnce_eq_some_iff.1 h).1]
  simp only [List.length_append, List.length_cons]
  omega

theorem length_le_of_readValue {cs value rest : List Char} (h : readValue cs = some (value, rest)) :
    rest.length ≤ cs.length := by
  unfold readValue at h
  split at h
  · have := length_lt_of_splitOnce h
    simp only [List.length_cons]
    omega
  · have := length_lt_of_splitOnce h
    simp only [List.length_cons]
    omega
  · cases h
    exact Text.length_dropWhile_le _ _

theorem length_dropComment_le (cs : List Char) : (dropComment cs).length ≤ cs.length := by
  unfold dropComment
  split
  · next r => exact Nat.le_succ_of_le (Text.length_dropWhile_le _ r)
  · exact Nat.le_refl _

theorem length_le_of_readLineEnd {cs rest : List Char} (h : readLineEnd cs = some rest) :
    rest.length ≤ cs.length := by
  have h1 := length_dropComment_le (cs.dropWhile isSpace)
  have h2 := Text.length_dropWhile_le isSpace cs
  unfold readLineEnd at h
  split at h
  · cases h; exact Nat.zero_le _
  · next r he =>
    cases h
    rw [he, List.length_cons] at h1
    omega
  · next r he =>
    cases h
    rw [he, List.length_cons, List.length_cons] at h1
    omega
  · cases h

theorem length_lt_of_readAssignment {cs rest : List Char} {a : String × String}
    (h : readAssignment cs = .ok (a, rest)) : rest.length < cs.length := by
  have h1 := length_dropExport_le cs
  unfold readAssignment at h
  split at h
  · cases h
  · next key r hk =>
    have h2 := length_lt_of_readKey hk
    rw [List.length_cons] at h2
    split at h
    · cases h
    · next value r' hv =>
      have h3 := length_le_of_readValue hv
      split at h
      · cases h
      · next r'' hr =>
        have h4 := length_le_of_readLineEnd hr
        cases h
        omega
  · cases h

/-! ## The whole text -/

/-- Blank lines and comments may stand between assignments. -/
def readAssignments (cs : List Char) : Except Stop (List (String × String)) :=
  match _start : cs.dropWhile isSpaceOrLineEnd with
  | [] => .ok []
  | '#' :: r => readAssignments (r.dropWhile (· != '\n'))
  | c :: r =>
    match _read : readAssignment (c :: r) with
    | .ok (a, rest) => (readAssignments rest).map (a :: ·)
    | .error stop => .error stop
termination_by cs.length
decreasing_by
  · have h1 := Text.length_dropWhile_le isSpaceOrLineEnd cs
    have h2 := Text.length_dropWhile_le (· != '\n') r
    rw [_start, List.length_cons] at h1
    omega
  · have h1 := Text.length_dropWhile_le isSpaceOrLineEnd cs
    have h2 := length_lt_of_readAssignment _read
    rw [_start] at h1
    omega

def parseAssignments (s : String) : Except ConfigurationProblem (List (String × String)) :=
  match readAssignments s.toList with
  | .ok pairs => .ok pairs
  | .error stop => .error (.notAssignments (stop.report s))

end PackageCatalog.Config
