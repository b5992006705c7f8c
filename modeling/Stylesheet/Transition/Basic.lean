/-
Transitions: records that say which property moves, for how long, how, after which delay and with
which behavior. Every part of a record may be left out. Written out, the parts stand in a fixed
order, with spaces between parts and commas between records.
-/
import Stylesheet.Transition.Keyword

namespace Stylesheet.Transition

/-- Times are whole milliseconds. -/
structure Record where
  property : Option String := none
  time1 : Option Int := none
  easing : Option Easing := none
  time2 : Option Int := none
  behavior : Option Behavior := none
deriving DecidableEq, Repr, Inhabited

namespace Record

def timeText (milliseconds : Int) : String := toString milliseconds ++ "ms"

/-- The parts that are there, in their order. -/
def parts (r : Record) : List String :=
  r.property.toList ++ (r.time1.map timeText).toList ++ (r.easing.map Easing.text).toList ++
    (r.time2.map timeText).toList ++ (r.behavior.map Behavior.text).toList

def text (r : Record) : String := " ".intercalate r.parts

end Record

/-- The text of a transition with these records. -/
def text (records : List Record) : String := ",".intercalate (records.map Record.text)

end Stylesheet.Transition
