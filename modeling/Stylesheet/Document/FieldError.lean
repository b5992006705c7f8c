/-
What is wrong with a field of a record that is read from data: the path to the field, and why its
value is refused.
-/

namespace Stylesheet.Document

inductive FieldFault
  | notARecord
  | notText
  | notASet
  | notABoolean
  /-- A word or whole number that names no truth value. -/
  | noSuchBoolean
  /-- A number with more digits than are written. -/
  | tooManyDigits
  | unknownField
deriving DecidableEq, Repr

def FieldFault.code : FieldFault → String
  | notARecord => "model_type"
  | notText => "string_type"
  | notASet => "frozen_set_type"
  | notABoolean => "bool_type"
  | noSuchBoolean => "bool_parsing"
  | tooManyDigits => "value_error"
  | unknownField => "extra_forbidden"

structure FieldError where
  path : List String
  fault : FieldFault
deriving DecidableEq, Repr

/-- The faults that reading found. -/
def FieldError.all {α : Type} : Except (List FieldError) α → List FieldError
  | .ok _ => []
  | .error errors => errors

end Stylesheet.Document
