/-
Entries of a style sheet: the name, type and value of a constant as they are declared. Each field
has a short and a long name; where both stand, the short one counts, even if it holds nothing.
-/
import Stylesheet.Document.Data
import Stylesheet.Document.FieldError
import Stylesheet.Document.Whole

namespace Stylesheet

open Document (Data Scalar FieldError FieldFault)

structure Entry where
  name : Option String
  type : Option String
  value : Option String
deriving DecidableEq, Repr

namespace Entry

/-- Numbers and truth values count as their text. -/
def fieldText : Data → Except FieldFault (Option String)
  | .scalar .null => .ok none
  | .scalar (.text value) => .ok (some value)
  | .scalar (.bool value) => .ok (some (if value then "true" else "false"))
  | .scalar (.int value) =>
    match Document.Whole.write? value with
    | some text => .ok (some text)
    | none => .error .tooManyDigits
  | .scalar (.float value) => .ok (some value.numeral)
  | _ => .error .notText

/-- The field with this name. -/
def fieldAt (name : String) (value : Data) : Except (List FieldError) (Option String) :=
  match fieldText value with
  | .ok text => .ok text
  | .error fault => .error [⟨[name], fault⟩]

/-- The field under the first of two names that is there. -/
def readField (entries : Data.Entries) (short long : String) :
    Except (List FieldError) (Option String) :=
  match Data.field? short entries, Data.field? long entries with
  | some value, _ => fieldAt short value
  | none, some value => fieldAt long value
  | none, none => .ok none

/-- The entry that a mapping declares, or the faults of its name, type and value. -/
def read : Data → Except (List FieldError) Entry
  | .mapping entries =>
    match readField entries "n" "name", readField entries "t" "type",
      readField entries "v" "value" with
    | .ok name, .ok type, .ok value => .ok { name, type, value }
    | name, type, value =>
      .error (FieldError.all name ++ FieldError.all type ++ FieldError.all value)
  | _ => .error [⟨[], .notARecord⟩]

end Entry

end Stylesheet
