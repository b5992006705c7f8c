/-
Whole numbers in decimal, as documents read and write them. Both ways the number of digits is
limited; digits in other bases are not.
-/
import Stylesheet.Document.ReadError

namespace Stylesheet.Document.Whole

/-- A whole number is read and written with at most this many decimal digits. -/
def digitLimit : Nat := 4300

/-- The number of some decimal digits; zeros in front count as digits. -/
def read (digits : List Char) : Reading Nat :=
  if digits.length ≤ digitLimit then .ok (Nat.ofDigitChars 10 digits 0) else malformed

/-- The text of a number, if it has not too many digits. -/
def write? (n : Int) : Option String :=
  if n.natAbs < Nat.pow 10 digitLimit then some (toString n) else none

end Stylesheet.Document.Whole
