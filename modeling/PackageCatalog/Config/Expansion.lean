import PackageCatalog.Text.Blank

/-!
# References to variables

A value may refer to variables as `${NAME}` or `$NAME`; `expand` puts in their values, the empty
text for a variable that is not set.  What was put in is not read again.  A dollar sign that starts
no reference stands for itself.
-/

namespace PackageCatalog.Config

/-! ## Algorithm -/

def isReferenceChar (c : Char) : Bool := c.isAlphanum || c == '_'

/-- The reference after a dollar sign: the name and what follows the reference. -/
def readReference (cs : List Char) : Option (List Char × List Char) :=
  match cs with
  | '{' :: r =>
    match Text.splitOnce '}' r with
    | some (name, rest) => if name = [] then none else some (name, rest)
    | none => none
  | cs =>
    if cs.takeWhile isReferenceChar = [] then none
    else some (cs.takeWhile isReferenceChar, cs.dropWhile isReferenceChar)

theorem length_le_of_readReference {cs name rest : List Char}
    (h : readReference cs = some (name, rest)) : rest.length ≤ cs.length := by
  unfold readReference at h
  split at h
  · split at h
    · next hs =>
      split at h
      · cases h
      · cases h
        rw [(Text.splitOnce_eq_some_iff.1 hs).1]
        simp only [List.length_append, List.length_cons]
        omega
    · cases h
  · split at h
    · cases h
    · cases h
      exact (List.dropWhile_suffix _).length_le

def expandChars (value : List Char → List Char) (cs : List Char) : List Char :=
  match cs with
  | [] => []
  | '$' :: r =>
    match _read : readReference r with
    | some (name, rest) => value name ++ expandChars value rest
    | none => '$' :: expandChars value r
  | c :: r => c :: expandChars value r
termination_by cs.length
decreasing_by
  · have := length_le_of_readReference _read
    simp only [List.length_cons]
    omega
  · exact Nat.lt_succ_self _
  · exact Nat.lt_succ_self _

/-- The text with the value of each reference, as `value` gives it, in its place. -/
def expand (value : String → Option String) (s : String) : String :=
  String.ofList <|
    expandChars (fun name => ((value (String.ofList name)).getD "").toList) s.toList

end PackageCatalog.Config
