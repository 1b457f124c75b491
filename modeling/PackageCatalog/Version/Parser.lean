import PackageCatalog.Error
import PackageCatalog.Text.Front
import PackageCatalog.Version.Basic

/-!
# Reading versions

    digits ( . digits )*  letter?  ( _ kind digits? )*  ( -r digits )?

Each reader takes what it recognises from the front of the text and returns the rest, which is
shorter by what was read; `Version.parse` accepts a text that is read to its end.
-/

namespace PackageCatalog

/-! ## Algorithm -/

def readDigits (cs : List Char) : Digits × List Char :=
  (⟨cs.takeWhile Char.isDigit, fun _ h => List.all_eq_true.1 List.all_takeWhile _ h⟩,
    cs.dropWhile Char.isDigit)

def Numeral.read? (cs : List Char) : Option (Numeral × List Char) :=
  if h : (readDigits cs).1.val = [] then none
  else some (⟨(readDigits cs).1.val, h, (readDigits cs).1.property⟩, (readDigits cs).2)

theorem append_readDigits (cs : List Char) : (readDigits cs).1.val ++ (readDigits cs).2 = cs :=
  List.takeWhile_append_dropWhile

theorem Numeral.append_of_read? {cs rest : List Char} {n : Numeral}
    (h : Numeral.read? cs = some (n, rest)) : cs = n.val ++ rest := by
  unfold Numeral.read? at h
  split at h
  · cases h
  · cases h
    exact (append_readDigits cs).symm

theorem Numeral.length_lt_of_read? {cs rest : List Char} {n : Numeral}
    (h : Numeral.read? cs = some (n, rest)) : rest.length < cs.length := by
  have hne := List.length_pos_iff.2 n.property.1
  rw [Numeral.append_of_read? h, List.length_append]
  omega

/-- The first kind whose name starts the text; `pre` is tried before `p`, which starts it. -/
def SuffixKind.read? (cs : List Char) : Option (SuffixKind × List Char) :=
  [alpha, beta, pre, rc, patch].findSome? fun kind =>
    (Text.dropWord kind.text.toList cs).map fun rest => (kind, rest)

theorem SuffixKind.append_of_read? {cs rest : List Char} {kind : SuffixKind}
    (h : SuffixKind.read? cs = some (kind, rest)) : cs = kind.text.toList ++ rest := by
  obtain ⟨k, -, hk⟩ := List.exists_of_findSome?_eq_some h
  obtain ⟨r, hr, he⟩ := Option.map_eq_some_iff.1 hk
  cases he
  exact Text.dropWord_eq_some_iff.1 hr

namespace Version

def readMinors (cs : List Char) : List Numeral × List Char :=
  match cs with
  | '.' :: r =>
    match _read : Numeral.read? r with
    | some (n, rest) =>
      let (ns, rest') := readMinors rest
      (n :: ns, rest')
    | none => ([], cs)
  | _ => ([], cs)
termination_by cs.length
decreasing_by
  have := Numeral.length_lt_of_read? _read
  simp only [List.length_cons]
  omega

def readLetter (cs : List Char) : Option VersionLetter × List Char :=
  match cs with
  | c :: r => if h : c.isLower = true then (some ⟨c, h⟩, r) else (none, cs)
  | [] => (none, [])

def readSuffixes (cs : List Char) : List VersionSuffix × List Char :=
  match cs with
  | '_' :: r =>
    match _read : SuffixKind.read? r with
    | some (kind, rest) =>
      let (suffixes, rest') := readSuffixes (readDigits rest).2
      (⟨kind, (readDigits rest).1⟩ :: suffixes, rest')
    | none => ([], cs)
  | _ => ([], cs)
termination_by cs.length
decreasing_by
  have kind_read := congrArg List.length (SuffixKind.append_of_read? _read)
  have number_read := congrArg List.length (append_readDigits rest)
  simp only [List.length_append] at kind_read number_read
  simp only [List.length_cons]
  omega

def readRevision (cs : List Char) : Option Numeral × List Char :=
  match cs with
  | '-' :: 'r' :: r =>
    match Numeral.read? r with
    | some (n, rest) => (some n, rest)
    | none => (none, cs)
  | _ => (none, cs)

/-- The longest version at the front of a text. -/
def read? (cs : List Char) : Option (Version × List Char) :=
  (Numeral.read? cs).map fun (major, rest) =>
    let (minors, rest) := readMinors rest
    let (letter, rest) := readLetter rest
    let (suffixes, rest) := readSuffixes rest
    let (revision, rest) := readRevision rest
    (⟨major, minors, letter, suffixes, revision⟩, rest)

def ofChars? (cs : List Char) : Option Version :=
  match read? cs with
  | some (v, []) => some v
  | _ => none

def parse (s : String) : Except Error Version :=
  match ofChars? s.toList with
  | some v => .ok v
  | none => .error (.invalidVersion s)

end Version

end PackageCatalog
