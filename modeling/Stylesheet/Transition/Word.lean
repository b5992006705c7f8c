/-
The words of a transition: times, keywords, and all others as properties.
-/
import Stylesheet.Text.Numeral
import Stylesheet.Text.Quoted
import Stylesheet.Double.Arithmetic
import Stylesheet.Overflow
import Stylesheet.Transition.Basic

namespace Stylesheet.Transition

inductive Error
  /-- A word that cannot stand where it does, and what could. -/
  | misplaced (word : String) (expected : List String) (source : String)
  /-- A time beyond all doubles. -/
  | infiniteTime
deriving DecidableEq, Repr

def Error.message : Error → String
  | misplaced word expected source =>
    "Invalid transition (expected " ++ ", ".intercalate expected ++ ", got " ++
      String.ofList (Text.quoted word.toList) ++ "): " ++ source
  | infiniteTime => Overflow.infinity.message

/-! ## Times -/

/-- The milliseconds of a number with the unit `ms` or `s`; seconds are scaled as doubles. -/
def duration? (word : List Char) : Option Double :=
  match Text.Numeral.split? Text.isDigit word with
  | some (numeral, ['m', 's']) => some numeral.toDouble
  | some (numeral, ['s']) => some (numeral.toDouble.mul (Double.ofInt 1000))
  | _ => none

/-- The whole milliseconds of a time, if the word is one. -/
def readTime (word : List Char) : Except Error (Option Int) :=
  match duration? word with
  | none => .ok none
  | some duration =>
    match duration.truncate? with
    | some milliseconds => .ok (some milliseconds)
    | none => .error .infiniteTime

/-! ## Words -/

inductive Word
  | time (milliseconds : Int)
  | easing (value : Easing)
  | behavior (value : Behavior)
  | property (name : String)
deriving DecidableEq, Repr

/-- A word that is no time and no keyword is a property. -/
def Word.named (text : String) : Word :=
  match Easing.ofText? text, Behavior.ofText? text with
  | some value, _ => .easing value
  | none, some value => .behavior value
  | none, none => .property text

def Word.read (word : List Char) : Except Error Word := do
  match ← readTime word with
  | some milliseconds => .ok (.time milliseconds)
  | none => .ok (.named (String.ofList word))

end Stylesheet.Transition
