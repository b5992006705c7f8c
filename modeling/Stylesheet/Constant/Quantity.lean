/-
Numbers with a unit, as text. Reading takes the numeral at the front and whatever follows as the
unit; writing rounds to six decimals and drops the zeros that say nothing.
-/
import Stylesheet.Text.Numeral
import Stylesheet.Decimal.Fixed

namespace Stylesheet

structure Quantity where
  number : Double
  unit : Option String
deriving DecidableEq

namespace Quantity

/-- A text that starts with a digit is a number with the rest as its unit. -/
def read? (text : String) : Option Quantity :=
  (Text.Numeral.split? Text.isDigit text.toList).map fun (numeral, rest) =>
    ⟨numeral.toDouble, if rest.isEmpty then none else some (String.ofList rest)⟩

/-- The decimal places that a written number keeps. -/
def places : Nat := 6

/-- The rounded number, then the unit as it is. -/
def write (q : Quantity) : String := String.ofList (q.number.fixed places) ++ q.unit.getD ""

end Quantity

end Stylesheet
