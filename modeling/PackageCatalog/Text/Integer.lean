import PackageCatalog.Error

/-!
# Whole numbers of 32 bits

A number is written as decimal digits after at most one sign.  The first character at which the text
cannot be such a number decides the problem.
-/

namespace PackageCatalog.Text

def leastInteger : Int := -2147483648

def greatestInteger : Int := 2147483647

/-- One more digit of a number whose sign is `sign`. -/
def extendInteger (sign value : Int) (c : Char) : Except IntegerProblem Int :=
  if c.isDigit then
    let next := 10 * value + sign * (c.toNat - '0'.toNat : Nat)
    if next < leastInteger then .error .tooSmall
    else if greatestInteger < next then .error .tooLarge
    else .ok next
  else .error .invalidDigit

def readInteger (sign : Int) (digits : List Char) : Except IntegerProblem Int :=
  if digits.isEmpty then .error .invalidDigit else digits.foldlM (extendInteger sign) 0

def parseInteger (s : String) : Except IntegerProblem Int :=
  match s.toList with
  | [] => .error .empty
  | '+' :: digits => readInteger 1 digits
  | '-' :: digits => readInteger (-1) digits
  | digits => readInteger 1 digits

end PackageCatalog.Text
