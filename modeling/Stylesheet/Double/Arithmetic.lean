/-
Arithmetic on doubles: the exact result, rounded to the nearest double. Division by zero gives an
infinity or not-a-number, never an error.
-/
import Stylesheet.Double.Nearest

namespace Stylesheet.Double

/-- The exact sum of two finite doubles is a whole number of units. Opposite numbers sum to the
positive zero, and only two negative zeros to the negative one. -/
def add : Double → Double → Double
  | .nan, _ => .nan
  | _, .nan => .nan
  | .infinite s, .infinite t => if s = t then .infinite s else .nan
  | .infinite s, .finite .. => .infinite s
  | .finite .., .infinite t => .infinite t
  | .finite s u _, .finite t v _ =>
    if s = t then ofUnits s (u + v) 1
    else if v < u then ofUnits s (u - v) 1
    else if u < v then ofUnits t (v - u) 1
    else zero false

def sub (x y : Double) : Double := add x y.neg

/-- Zero times an infinity is not a number. -/
def mul : Double → Double → Double
  | .nan, _ => .nan
  | _, .nan => .nan
  | .infinite s, .infinite t => .infinite (s != t)
  | .infinite s, .finite t v _ => if v = 0 then .nan else .infinite (s != t)
  | .finite s u _, .infinite t => if u = 0 then .nan else .infinite (s != t)
  | .finite s u _, .finite t v _ => ofUnits (s != t) (u * v) unitsPerOne

/-- A quotient of two zeros or two infinities is not a number; any other division by zero is
infinite, with the sign of the quotient. -/
def div : Double → Double → Double
  | .nan, _ => .nan
  | _, .nan => .nan
  | .infinite _, .infinite _ => .nan
  | .infinite s, .finite t _ _ => .infinite (s != t)
  | .finite s _ _, .infinite t => zero (s != t)
  | .finite s u _, .finite t v _ =>
    if v = 0 then
      if u = 0 then .nan else .infinite (s != t)
    else ofUnits (s != t) (u * unitsPerOne) v

end Stylesheet.Double
