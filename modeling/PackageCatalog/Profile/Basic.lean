import PackageCatalog.Atom.Match
import PackageCatalog.Atom.Parser
import PackageCatalog.Config.Expansion
import PackageCatalog.Table
import PackageCatalog.Text.Blank
import PackageCatalog.Warning

/-!
# Profiles

A profile is the merged view of a stack of directories.  Each directory may assign variables, mask
and force USE flags, mask packages and declare virtuals; what a later directory says goes on from
what the earlier ones said.  Here is what one line of each file does to a profile.

Incremental variables hold a set of tokens: `-token` removes one, `-*` removes all, and any other
token is added at the end unless it is there.  The text of such a variable is its tokens, joined.
-/

namespace PackageCatalog

structure Profile where
  /-- The directories of the stack, parents first. -/
  dirs : List String := []
  environment : Table String String := ∅
  /-- The tokens of each incremental variable, in the order in which they were added. -/
  incrementals : Table String (List String) := ∅
  useMask : List UseFlag := []
  useForce : List UseFlag := []
  /-- The masks of each package, with their texts. -/
  masks : Table QualifiedName (List (String × Atom)) := ∅
  virtuals : Table QualifiedName Atom := ∅

def incrementalVariables : List String := ["USE", "USE_EXPAND", "USE_EXPAND_HIDDEN"]

/-- A mask names the package that it restricts, so a blocker is none. -/
def parseMask (line : String) : Except Error (QualifiedName × Atom) := do
  let atom ← Atom.parse line
  if atom.blocker.isSome then throw (.dependency (.notUnique line))
  return (← atom.qualifiedName, atom)

/-- What a line is after a minus sign at its start, if it has one. -/
def afterMinus? (line : String) : Option String :=
  (Text.dropWord ['-'] line.toList).map String.ofList

namespace Profile

/-! ## Variables -/

/-- What one token does to the tokens of an incremental variable. -/
def applyToken (tokens : List String) (token : String) : List String :=
  if token == "-*" then []
  else match afterMinus? token with
    | some removed => tokens.filter (· != removed)
    | none => if token ∈ tokens then tokens else tokens ++ [token]

def setVariable (p : Profile) (key value : String) : Profile :=
  { p with environment := p.environment.insert key value }

/-- One assignment of a `make.defaults` file. -/
def assign (p : Profile) (assignment : String × String) : Profile :=
  let (key, value) := assignment
  let value := Config.expand p.environment.get? value
  if key ∈ incrementalVariables then
    let tokens := (Text.words value).foldl applyToken ((p.incrementals.get? key).getD [])
    { p with incrementals := p.incrementals.insert key tokens }.setVariable key
      (" ".intercalate tokens)
  else p.setVariable key value

/-- The text of a variable, empty if it is not set. -/
def value (p : Profile) (name : String) : String := (p.environment.get? name).getD ""

def arch (p : Profile) : Option String :=
  (p.environment.get? "ARCH").filter fun a => !a.isEmpty

def incremental (p : Profile) (name : String) : List String :=
  (p.incrementals.get? name).getD []

/-! ## USE flags -/

/-- One line of a `use.mask` or `use.force` file: `flag` adds the flag, `-flag` removes it. -/
def applyFlagLine (flags : List UseFlag) (line : String) : Except Error (List UseFlag) :=
  match afterMinus? line with
  | some name => (UseFlag.parse name).map fun flag => flags.filter (· != flag)
  | none => (UseFlag.parse line).map fun flag => if flag ∈ flags then flags else flags ++ [flag]

/-- The architecture of a profile counts as one of its flags. -/
def useEnabled (p : Profile) (flag : UseFlag) : Bool :=
  flag.text ∈ p.incremental "USE" || p.arch == some flag.text

def useMasked (p : Profile) (flag : UseFlag) : Bool := flag ∈ p.useMask

def useForced (p : Profile) (flag : UseFlag) : Bool := flag ∈ p.useForce

/-! ## Masks -/

/-- Removes the masks whose text this is. -/
def unmask (p : Profile) (text : String) : Profile :=
  { p with masks := ⟨p.masks.entries.map fun entry =>
      (entry.1, entry.2.filter fun mask => mask.1 != text)⟩ }

/-- One line of a `package.mask` file. -/
def applyMaskLine (p : Profile) (line : String) : Except Error Profile :=
  match afterMinus? line with
  | some text => .ok (p.unmask text)
  | none => (parseMask line).map fun (name, atom) =>
    { p with masks := p.masks.update name [] (· ++ [(line, atom)]) }

def masksOf (p : Profile) (n : QualifiedName) : List Atom :=
  ((p.masks.get? n).getD []).map Prod.snd

/-! ## Virtuals -/

/-- One line of a `virtuals` file: the virtual, and the specification of its default provider. -/
def applyVirtualsLine (p : Profile) (path line : String) : Except Warning Profile :=
  match Text.words line with
  | virtualName :: provider :: _ =>
    let entry : Except Error Profile := do
      let n ← QualifiedName.parse virtualName
      let atom ← Atom.parse provider
      return { p with virtuals := p.virtuals.insert n atom }
    match entry with
    | .ok p => .ok p
    | .error e => .error (.malformed path e)
  | _ => .error (.malformedVirtual path line)

/-- The virtuals of a profile, by name. -/
def virtualList (p : Profile) : List (QualifiedName × Atom) :=
  p.virtuals.entries.mergeSort fun a b => compare a.1 b.1 != .gt

end Profile

end PackageCatalog
