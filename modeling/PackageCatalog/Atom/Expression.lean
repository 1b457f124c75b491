import PackageCatalog.Atom.Parser

/-!
# Dependency expressions

The value of a dependency field is a list of atoms and groups:

    cat/a  || ( cat/b cat/c )  ^^ ( ... )  ?? ( ... )  flag? ( ... )  !flag? ( ... )

A group without a head, `( ... )`, stands for its members.  The reader keeps the groups that are
open as a stack and reads the text once from left to right.
-/

namespace PackageCatalog

inductive GroupHead where
  /-- Written `||`. -/
  | anyOf
  /-- Written `^^`. -/
  | exactlyOne
  /-- Written `??`. -/
  | atMostOne
  /-- Written `flag?`, or `!flag?` when `negated`. -/
  | useFlag (negated : Bool) (flag : String)
  deriving DecidableEq

def GroupHead.text : GroupHead → String
  | .anyOf => "||"
  | .exactlyOne => "^^"
  | .atMostOne => "??"
  | .useFlag negated flag => (if negated then "!" else "") ++ flag ++ "?"

inductive Dependency where
  | atom (a : Atom)
  | group (head : GroupHead) (members : List Dependency)

namespace Dependency

/-! ## Writing -/

def text : Dependency → String
  | .atom a => a.text
  | .group head members =>
    head.text ++ " ( " ++ " ".intercalate (members.attach.map fun ⟨d, _⟩ => d.text) ++ " )"

instance : ToString Dependency := ⟨text⟩

/-! ## Reading -/

def isGap (c : Char) : Bool := c == ' ' || c == '\t' || c == '\r' || c == '\n'

/-- The bracket that opens a group, after its head. -/
def readOpen (head : Option GroupHead) (cs : List Char) : Option (Option GroupHead × List Char) :=
  match cs.dropWhile isGap with
  | '(' :: rest => some (head, rest)
  | _ => none

def readUseHead (negated : Bool) (cs : List Char) : Option (Option GroupHead × List Char) :=
  match readWord (fun _ => true) [] cs with
  | some (flag, '?' :: rest) => readOpen (some (.useFlag negated (String.ofList flag))) rest
  | _ => none

/-- The head of a group and its opening bracket; no head for a bracket alone. -/
def readHead (cs : List Char) : Option (Option GroupHead × List Char) :=
  match cs with
  | '|' :: '|' :: rest => readOpen (some .anyOf) rest
  | '^' :: '^' :: rest => readOpen (some .exactlyOne) rest
  | '?' :: '?' :: rest => readOpen (some .atMostOne) rest
  | '!' :: rest => readUseHead true rest
  | '(' :: rest => some (none, rest)
  | _ => readUseHead false cs

theorem length_lt_of_readOpen {head found : Option GroupHead} {cs rest : List Char}
    (h : readOpen head cs = some (found, rest)) : rest.length < cs.length := by
  have hle := Text.length_dropWhile_le isGap cs
  unfold readOpen at h
  split at h
  · next hd =>
    cases h
    rw [hd, List.length_cons] at hle
    omega
  · cases h

theorem length_lt_of_readUseHead {negated : Bool} {found : Option GroupHead} {cs rest : List Char}
    (h : readUseHead negated cs = some (found, rest)) : rest.length < cs.length := by
  unfold readUseHead at h
  split at h
  · next hw =>
    have h1 := length_lt_of_readWord hw
    have h2 := length_lt_of_readOpen h
    rw [List.length_cons] at h1
    omega
  · cases h

theorem length_lt_of_readHead {found : Option GroupHead} {cs rest : List Char}
    (h : readHead cs = some (found, rest)) : rest.length < cs.length := by
  unfold readHead at h
  split at h
  · have := length_lt_of_readOpen h
    simp only [List.length_cons]
    omega
  · have := length_lt_of_readOpen h
    simp only [List.length_cons]
    omega
  · have := length_lt_of_readOpen h
    simp only [List.length_cons]
    omega
  · have := length_lt_of_readUseHead h
    simp only [List.length_cons]
    omega
  · cases h
    exact Nat.lt_succ_self _
  · exact length_lt_of_readUseHead h

/-- A group that is still open: its head, and what stands before it in the list around it, the last
entry first. -/
structure OpenGroup where
  head : Option GroupHead
  before : List Dependency

/-- The list around a group once the group is closed; `members` and the result have the last entry
first. -/
def OpenGroup.close (g : OpenGroup) (members : List Dependency) : List Dependency :=
  match g.head with
  | some head => .group head members.reverse :: g.before
  | none => members ++ g.before

/-- Reads entries up to the end of the text; `entries` are those of the innermost open group, the
last one first. -/
def readEntries (opened : List OpenGroup) (entries : List Dependency) (cs : List Char) :
    Except Stop (List Dependency) :=
  match _start : cs.dropWhile isGap with
  | [] => if opened.isEmpty then .ok entries.reverse else .error ⟨[], none⟩
  | c :: r =>
    if c = ')' then
      match opened with
      | g :: outer => readEntries outer (g.close entries) r
      | [] => .error ⟨c :: r, none⟩
    else
      match _head : readHead (c :: r) with
      | some (head, rest) => readEntries (⟨head, entries⟩ :: opened) [] rest
      | none =>
        match _atom : Atom.read (c :: r) with
        | .ok (a, rest) => readEntries opened (.atom a :: entries) rest
        | .error stop => .error stop
termination_by cs.length
decreasing_by
  all_goals
    have hle := Text.length_dropWhile_le isGap cs
    rw [_start] at hle
  · rw [List.length_cons] at hle
    omega
  · exact Nat.lt_of_lt_of_le (length_lt_of_readHead _head) hle
  · exact Nat.lt_of_lt_of_le (Atom.length_lt_of_read _atom) hle

/-- The entries of a dependency field; an empty field has none. -/
def parseList (s : String) : Except Error (List Dependency) :=
  (readEntries [] [] s.toList).mapError fun stop => .dependency (.expression (stop.report s))

end Dependency

end PackageCatalog
