import PackageCatalog.Text.Place

/-!
# Unreadable texts

A text outside its grammar is reported with a mark below the place where reading stopped, and with
the part of the grammar that was being read there, if the part has a name:

    cat/
        ^
    invalid cpv

Of a text of several lines the report shows the line of the place:

    parse error at line 2, column 4
      |
    2 | bad
      |    ^
-/

namespace PackageCatalog

/-- The parts of the grammars that reports name. -/
inductive GrammarPart where
  | variableName
  | assignmentEnd
  /-- A category and a package. -/
  | packageName
  /-- A category, a package and its version. -/
  | packageVersion
  | useList
  deriving DecidableEq

def GrammarPart.text : GrammarPart → String
  | .variableName => "variable name"
  | .assignmentEnd => "end of assignment"
  | .packageName => "cpn"
  | .packageVersion => "cpv"
  | .useList => "use deps"

/-- Where a reader stopped: what it left of the text, and the part that does not start or go on
there. -/
structure Stop where
  rest : List Char
  part : Option GrammarPart

/-- A text outside its grammar; reading stopped after `read` characters. -/
structure Unreadable where
  text : String
  read : Nat
  part : Option GrammarPart
  deriving DecidableEq

/-- The report of a stop in `text`. -/
def Stop.report (stop : Stop) (text : String) : Unreadable :=
  ⟨text, text.length - stop.rest.length, stop.part⟩

namespace Unreadable

def before (u : Unreadable) : List Char := u.text.toList.take u.read

def after (u : Unreadable) : List Char := u.text.toList.drop u.read

def partLine (u : Unreadable) : String :=
  match u.part with
  | some part => "invalid " ++ part.text
  | none => ""

/-- A mark below column `column` of the line above. -/
def mark (column : Nat) : String := "".pushn ' ' column ++ "^"

/-- The line of the place with its number in a margin, and the mark below it. -/
def excerpt (place : Text.Place) : String :=
  let number := toString (place.line + 1)
  let margin := "".pushn ' ' number.length
  let column := toString (place.column + 1)
  s!"parse error at line {number}, column {column}\n" ++ margin ++ " |\n" ++
    number ++ " | " ++ String.ofList place.content ++ "\n" ++
    margin ++ " | " ++ mark place.column ++ "\n"

/-- Below a text of one line the mark's distance counts bytes. -/
def message (u : Unreadable) : String :=
  if '\n' ∈ u.text.toList then excerpt (Text.place u.before u.after) ++ u.partLine
  else u.text ++ "\n" ++ mark (Text.byteLength u.before) ++ "\n" ++ u.partLine

end Unreadable

end PackageCatalog
