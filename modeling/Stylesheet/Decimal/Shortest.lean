/-
The fewest significant digits that read back to a double. For one digit, two digits and so on the
two neighbours of the value on that decimal grid are tried, the nearer first; the first grid with
a neighbour that reads back wins.
-/
import Stylesheet.Decimal.Basic

namespace Stylesheet

/-- Significant digits with a decimal point after the first, times `10 ^ exponent`. -/
structure Significand where
  digits : List Char
  exponent : Int
deriving DecidableEq, Repr

namespace Significand

/-! ## The decimal grid of a value -/

/-- The exponent of the first significant digit of `units`. Every positive double has a nonzero
digit among its first 324 decimal places. -/
def leadingExponent (units : Nat) : Int :=
  (Nat.toDigits 10 (units * Nat.pow 10 324 / Double.unitsPerOne)).length - 325

/-- The quotient of `units` by `10 ^ exponent`, as numerator and denominator. -/
def scaled (units : Nat) (exponent : Int) : Nat × Nat :=
  if 0 ≤ exponent then (units, Double.unitsPerOne * Nat.pow 10 exponent.toNat)
  else (units * Nat.pow 10 (-exponent).toNat, Double.unitsPerOne)

def readsBack (units coefficient : Nat) (exponent : Int) : Bool :=
  Decimal.nearestUnits coefficient exponent == units

/-- The multiple of `10 ^ exponent` next to `units` that reads back to it, the nearer of the two
first; of two that are equally near, the even one. -/
def neighbour? (units : Nat) (exponent : Int) : Option Nat :=
  let (num, den) := scaled units exponent
  let near := roundHalfEven num den
  let far := if near = num / den then near + 1 else num / den
  if readsBack units near exponent then some near
  else if readsBack units far exponent then some far
  else none

/-! ## The shortest digits -/

/-- A coefficient and exponent as significant digits without trailing zeros. -/
def ofCoefficient (coefficient : Nat) (exponent : Int) : Significand :=
  let digits := Nat.toDigits 10 coefficient
  { digits := (digits.reverse.dropWhile (· == '0')).reverse
    exponent := exponent + digits.length - 1 }

/-- Seventeen digits always read back, so the search stops there. -/
def shortest (units : Nat) : Significand :=
  if units = 0 then ⟨['0'], 0⟩
  else
    let lead := leadingExponent units
    let found := (List.range 17).findSome? fun (n : Nat) =>
      (neighbour? units (lead - n)).map fun c => ofCoefficient c (lead - n)
    match found with
    | some s => s
    | none =>
      let (num, den) := scaled units (lead - 16)
      ofCoefficient (roundHalfEven num den) (lead - 16)

end Significand

end Stylesheet
