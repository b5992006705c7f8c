/-
The keywords of a transition: how a property moves between its values, and whether values without
steps between them move at all.
-/

namespace Stylesheet.Transition

inductive Easing
  | ease
  | linear
  | easeIn
  | easeOut
  | easeInOut
  | stepStart
  | stepEnd
deriving DecidableEq, Repr

namespace Easing

def all : List Easing := [ease, linear, easeIn, easeOut, easeInOut, stepStart, stepEnd]

def text : Easing → String
  | ease => "ease"
  | linear => "linear"
  | easeIn => "ease-in"
  | easeOut => "ease-out"
  | easeInOut => "ease-in-out"
  | stepStart => "step-start"
  | stepEnd => "step-end"

def ofText? (text : String) : Option Easing := all.find? (·.text == text)

theorem ofText?_text (e : Easing) : ofText? e.text = some e := by cases e <;> decide

end Easing

inductive Behavior
  | normal
  | discrete
deriving DecidableEq, Repr

namespace Behavior

def all : List Behavior := [normal, discrete]

def text : Behavior → String
  | normal => "normal"
  | discrete => "discrete"

def ofText? (text : String) : Option Behavior := all.find? (·.text == text)

theorem ofText?_text (b : Behavior) : ofText? b.text = some b := by cases b <;> decide

end Behavior

end Stylesheet.Transition
