/-
Why references cannot be resolved.
-/
import Stylesheet.Formula.Error

namespace Stylesheet

inductive ResolutionError
  /-- The formula of a constant has no value. -/
  | formula (constant formula : String) (cause : Formula.Error)
  /-- A word of a list has no value. -/
  | word (constant word list : String) (cause : Formula.Error)
  /-- A reference in a property has no value. -/
  | reference (formula : String) (cause : Formula.Error)
  | unknownConstant (name constant rawValue : String)
  /-- Constants that never got a value, in the order of the table. -/
  | unresolved (first : String) (others : List String)
  | overflow (cause : Overflow)
deriving DecidableEq, Repr

namespace ResolutionError

def message : ResolutionError → String
  | formula _ f cause => "Error in formula: " ++ f ++ " (" ++ cause.message ++ ")"
  | word _ w list _ => "Error in formula: " ++ w ++ " (origin: " ++ list ++ ")"
  | reference f _ => "can't evaluate: " ++ f
  | unknownConstant name c rawValue =>
    "Unknown constant '" ++ name ++ "' referenced by '" ++ c ++ "': " ++ rawValue
  | unresolved first others => "Unresolved constants: " ++ ", ".intercalate (first :: others)
  | overflow cause => cause.message

/-- What becomes of the error of a formula; an overflow stays what it is. -/
def ofFormula (wrap : Formula.Error → ResolutionError) (cause : Formula.Error) : ResolutionError :=
  match cause.overflow? with
  | some cause => overflow cause
  | none => wrap cause

/-- The constant at fault, the first if there are several. -/
def name? : ResolutionError → Option String
  | formula c _ _ => some c
  | word c _ _ _ => some c
  | reference .. => none
  | unknownConstant _ c _ => some c
  | unresolved first _ => some first
  | overflow _ => none

def formula? : ResolutionError → Option String
  | formula _ f _ => some f
  | word _ w _ _ => some w
  | reference f _ => some f
  | _ => none

end ResolutionError

end Stylesheet
