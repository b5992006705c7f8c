/-
Why a text holds no data. Of several faults the first in reading order counts, so a reader stops
where it finds one.
-/
import Stylesheet.Overflow

namespace Stylesheet.Document

inductive ReadError
  /-- The text breaks the rules of its format, or writes a value that there is not. -/
  | malformed
  | overflow (cause : Overflow)
deriving DecidableEq, Repr

abbrev Reading (α : Type) := Except ReadError α

def malformed {α : Type} : Reading α := .error .malformed

/-- A fault where nothing is found. -/
def Reading.ofOption {α : Type} : Option α → Reading α
  | some value => .ok value
  | none => malformed

end Stylesheet.Document
