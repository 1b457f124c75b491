import PackageCatalog.Text.Blank
import PackageCatalog.Error

/-!
# Keywords

A keyword tells how a package version stands on one architecture: `amd64` stable, `~amd64` in
testing, `-amd64` disabled; `-*` disables every architecture that has no keyword of its own.
-/

namespace PackageCatalog

inductive Stability where
  | stable
  | testing
  | disabled
  /-- What `-*` gives an architecture without a keyword of its own. -/
  | disabledAll
  deriving DecidableEq

/-- One entry of a keyword list; the architecture of `-*` is `*`. -/
structure Keyword where
  arch : String
  stability : Stability
  deriving DecidableEq

def isArchText : List Char → Bool
  | [] => false
  | c :: r => (c.isAlphanum || c == '_') && r.all fun d => d.isAlphanum || d == '_' || d == '-'

namespace Keyword

def text (k : Keyword) : String :=
  match k.stability with
  | .stable => k.arch
  | .testing => "~" ++ k.arch
  | .disabled => "-" ++ k.arch
  | .disabledAll => "-*"

/-- A keyword for the architecture `arch`, if that is the name of one. -/
def forArch? (stability : Stability) (arch : List Char) : Option Keyword :=
  if isArchText arch then some ⟨String.ofList arch, stability⟩ else none

def ofChars? : List Char → Option Keyword
  | ['-', '*'] => some ⟨"*", .disabledAll⟩
  | '~' :: arch => forArch? .testing arch
  | '-' :: arch => forArch? .disabled arch
  | arch => forArch? .stable arch

def parse (s : String) : Except Error Keyword :=
  match ofChars? s.toList with
  | some k => .ok k
  | none => .error (.invalidKeyword s)

/-- The keywords of a blank-separated list. -/
def parseList (s : String) : Except Error (List Keyword) :=
  (Text.words s).mapM parse

/-- The keyword of the architecture itself decides, and only without one `-*` does. -/
def stabilityFor (keywords : List Keyword) (arch : String) : Option Stability :=
  let own := keywords.find? fun k => k.stability != .disabledAll && k.arch == arch
  let all := keywords.find? fun k => k.stability == .disabledAll
  (own.or all).map stability

end Keyword

end PackageCatalog
