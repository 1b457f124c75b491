/-!
# Places in a text

A place cuts a text into what stands before and what stands after it.  `place before after` gives
its line and column, both counted from zero, and the line's text.

    "ab\ncd" cut before d:  line 1, column 1, "cd"
    "ab\n" at its end:      line 0, column 3, "ab"
-/

namespace PackageCatalog.Text

/-- The part of a text after its last line end. -/
def lastLine (cs : List Char) : List Char :=
  (cs.reverse.takeWhile (· != '\n')).reverse

def firstLine (cs : List Char) : List Char := cs.takeWhile (· != '\n')

/-- The number of bytes that a text takes in UTF-8. -/
def byteLength (cs : List Char) : Nat := cs.foldl (fun n c => n + c.utf8Size) 0

structure Place where
  line : Nat
  column : Nat
  content : List Char
  deriving DecidableEq

/-- A place before a character is on that character's line; the end of a text is one column behind
the last character, on the last character's line.  A column counts characters, but it counts bytes
before a character of more than one byte. -/
def place (before after : List Char) : Place :=
  match after with
  | [] =>
    let start := lastLine before.dropLast
    ⟨before.dropLast.count '\n', start.length + 1,
      start ++ firstLine (before.drop before.dropLast.length)⟩
  | c :: r =>
    let start := lastLine before
    ⟨before.count '\n', if c.utf8Size = 1 then start.length else byteLength start,
      start ++ firstLine (c :: r)⟩

end PackageCatalog.Text
