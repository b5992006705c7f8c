/-
What a formula may cost: its length, the digits kept of a number and the nesting of brackets and
minus signs. Chains of operators are never limited.
-/

namespace Stylesheet.Formula

/-- The limits that reading a formula can exceed. -/
inductive Limit
  | length
  | nesting
deriving DecidableEq, Repr

def Limit.name : Limit → String
  | .length => "max_expression_length"
  | .nesting => "max_nesting_depth"

structure Limits where
  /-- Characters a formula may have; any number if absent. -/
  length : Option Int := none
  /-- Integer digits kept of a number; further digits only scale it. -/
  digits : Int := 38
  /-- Brackets and minus signs that may be open at once. -/
  nesting : Int := 200
deriving DecidableEq, Repr, Inhabited

end Stylesheet.Formula
