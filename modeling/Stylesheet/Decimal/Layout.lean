/-
Written numerals of doubles: the shortest digits, positional where the exponent is small and with
an exponent part elsewhere.
-/
import Stylesheet.Decimal.Shortest

namespace Stylesheet

namespace Significand

/-- Digits before and after the decimal point; the part before is never empty. -/
def point (s : Significand) : List Char × List Char :=
  if s.exponent < 0 then
    (['0'], List.replicate (-s.exponent - 1).toNat '0' ++ s.digits)
  else
    let places := s.exponent.toNat + 1
    (s.digits.take places ++ List.replicate (places - s.digits.length) '0', s.digits.drop places)

/-- Positional text; a whole number is written without a point. -/
def positional (s : Significand) : List Char :=
  match s.point with
  | (whole, []) => whole
  | (whole, fraction) => whole ++ '.' :: fraction

/-- Positional text with at least one digit after the point. -/
def positionalWithPoint (s : Significand) : List Char :=
  match s.point with
  | (whole, []) => whole ++ ['.', '0']
  | (whole, fraction) => whole ++ '.' :: fraction

/-- An exponent is written with its sign and at least two digits. -/
def exponentText (e : Int) : List Char :=
  let digits := Nat.toDigits 10 e.natAbs
  'e' :: (if e < 0 then '-' else '+') :: (if digits.length < 2 then '0' :: digits else digits)

def scientific (s : Significand) : List Char :=
  match s.digits with
  | [] => []
  | [d] => d :: exponentText s.exponent
  | d :: rest => d :: '.' :: rest ++ exponentText s.exponent

/-- The exponents written positionally. -/
def IsPlain (s : Significand) : Prop := -4 ≤ s.exponent ∧ s.exponent < 16

instance : DecidablePred IsPlain := fun s =>
  inferInstanceAs (Decidable (-4 ≤ s.exponent ∧ s.exponent < 16))

end Significand

namespace Double

/-- Writes a sign and, for finite doubles, the magnitude's digits. -/
def writeWith (magnitude : Significand → List Char) : Double → List Char
  | .nan => ['n', 'a', 'n']
  | .infinite negative => (if negative then ['-'] else []) ++ ['i', 'n', 'f']
  | .finite negative units _ =>
    (if negative then ['-'] else []) ++ magnitude (Significand.shortest units)

/-- The text of a double: the fewest digits that read back, positional from `10⁻⁴` to below
`10¹⁶` and then with a digit after the point, else with an exponent. -/
def numeral (x : Double) : String :=
  String.ofList (x.writeWith fun s => if s.IsPlain then s.positionalWithPoint else s.scientific)

/-- The text of a double without an exponent: as `numeral` where that has none, else all places up
to the last significant digit or the unit. -/
def plainNumeral (x : Double) : List Char :=
  x.writeWith fun s => if s.IsPlain then s.positionalWithPoint else s.positional

end Double

end Stylesheet
