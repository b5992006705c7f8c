/-
Doubles rounded to a fixed number of decimal places. The exact value is rounded, a half to the
even neighbour, and written without trailing zeros after the point; the whole part keeps its own.
-/
import Stylesheet.Double.Nearest

namespace Stylesheet.Double

/-- A positive whole number of `10 ^ -places`, written without superfluous zeros. -/
def writePlaces (places n : Nat) : List Char :=
  let fraction := Nat.toDigits 10 (n % Nat.pow 10 places)
  let padded := List.replicate (places - fraction.length) '0' ++ fraction
  let kept := (padded.reverse.dropWhile (· == '0')).reverse
  Nat.toDigits 10 (n / Nat.pow 10 places) ++ (if kept.isEmpty then [] else '.' :: kept)

/-- The magnitude of `units` in whole multiples of `10 ^ -places`, rounded half to even. -/
def roundPlaces (places units : Nat) : Nat :=
  roundHalfEven (units * Nat.pow 10 places) unitsPerOne

/-- A negative double keeps its sign even when it rounds to zero. -/
def fixed (places : Nat) : Double → List Char
  | .nan => ['n', 'a', 'n']
  | .infinite negative => (if negative then ['-'] else []) ++ ['i', 'n', 'f']
  | .finite negative units _ =>
    (if negative then ['-'] else []) ++ writePlaces places (roundPlaces places units)

end Stylesheet.Double
