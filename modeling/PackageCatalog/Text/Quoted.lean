import PackageCatalog.Text.Shapeless

/-!
# Quoted texts

Reports quote a path between double quotes.  A backslash stands before a double quote and before a
backslash; line ends, tabs and other characters without a shape are written as escapes.
-/

namespace PackageCatalog.Text

def escapeChar (c : Char) : List Char :=
  match c with
  | '"' => ['\\', '"']
  | '\\' => ['\\', '\\']
  | '\n' => ['\\', 'n']
  | '\r' => ['\\', 'r']
  | '\t' => ['\\', 't']
  | '\x00' => ['\\', '0']
  | c =>
    if isShapeless c then ['\\', 'u', '\x7b'] ++ Nat.toDigits 16 c.toNat ++ ['\x7d']
    else [c]

def quote (s : String) : String :=
  String.ofList ('"' :: (s.toList.flatMap escapeChar ++ ['"']))

end PackageCatalog.Text
