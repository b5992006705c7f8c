/-
Constants of a style sheet. The raw value decides what a constant is: a number with a unit, a
reference to other constants, a list of words, or plain text.
-/
import Stylesheet.Constant.Quantity
import Stylesheet.Constant.Settings
import Stylesheet.Text.Blank

namespace Stylesheet

open Document (Data)

structure Constant where
  name : String
  rawValue : String
  type : Option String
  /-- The value is a list of words. -/
  isList : Bool
  /-- Where the constant was declared, for those who ask. -/
  source : Data

/-- References start with this mark. -/
def isReference (text : List Char) : Bool := text.head? == some '@'

namespace Constant

def define (settings : Settings) (name value : String) (type : Option String)
    (source : Data) : Constant :=
  { name, rawValue := value, type, isList := settings.isListType type, source }

/-- The constant wherever it was declared. Sources do not tell constants apart. -/
def bare (c : Constant) : Constant := { c with source := .null }

@[simp] theorem name_bare (c : Constant) : c.bare.name = c.name := rfl

/-- The words of the raw value. -/
def words (c : Constant) : List (List Char) := Text.words c.rawValue.toList

/-- A list value with a space in it is never read as a number with a unit. -/
def mayBeQuantity (c : Constant) : Bool :=
  !c.isList || !c.rawValue.toList.contains ' ' || c.rawValue.toList.length ≤ 1

/-- The number and unit that the raw value writes out. -/
def quantity? (c : Constant) : Option Quantity :=
  if c.mayBeQuantity then Quantity.read? c.rawValue else none

def isReference (c : Constant) : Bool := Stylesheet.isReference c.rawValue.toList

/-- The value is a list of several words. -/
def isComposite (c : Constant) : Bool := c.isList && decide (1 < c.words.length)

/-- The words of a list that refer to other constants. -/
def references (c : Constant) : List (List Char) := c.words.filter Stylesheet.isReference

end Constant

end Stylesheet
