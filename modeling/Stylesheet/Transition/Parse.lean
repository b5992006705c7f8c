/-
Reading transitions. Commas divide the text into records and blanks divide a record into words;
each word fills a later part of its record than the word before. Records without words are left
out.
-/
import Stylesheet.Text.Blank
import Stylesheet.Transition.Word

namespace Stylesheet.Transition

/-! ## One record -/

/-- The part of a record that was filled last. -/
inductive Slot
  | start
  | property
  | time1
  | easing
  | time2
  | behavior
deriving DecidableEq, Repr

/-- What may follow a part. -/
def Slot.expected : Slot → List String
  | start => ["property", "time", "function", "behavior"]
  | property => ["time", "function", "behavior"]
  | time1 => ["function", "second time", "behavior"]
  | easing => ["second time", "behavior"]
  | time2 => ["behavior"]
  | behavior => ["comma", "end"]

/-- The record with one more word, and the part which that fills. A second time is the delay, and
so is a time behind the easing. -/
def Record.place (r : Record) : Slot → Word → Option (Slot × Record)
  | .start, .property name => some (.property, { r with property := some name })
  | .start, .time t => some (.time1, { r with time1 := some t })
  | .property, .time t => some (.time1, { r with time1 := some t })
  | .start, .easing e => some (.easing, { r with easing := some e })
  | .property, .easing e => some (.easing, { r with easing := some e })
  | .time1, .easing e => some (.easing, { r with easing := some e })
  | .time1, .time t => some (.time2, { r with time2 := some t })
  | .easing, .time t => some (.time2, { r with time2 := some t })
  | .behavior, _ => none
  | _, .behavior b => some (.behavior, { r with behavior := some b })
  | _, _ => none

/-- Fills a record with words, in order. -/
def Record.fill (source : String) (r : Record) (slot : Slot) :
    List (List Char) → Except Error Record
  | [] => .ok r
  | word :: rest =>
    match Word.read word with
    | .error error => .error error
    | .ok w =>
      match r.place slot w with
      | some (slot, r) => fill source r slot rest
      | none => .error (.misplaced (String.ofList word) slot.expected source)

/-! ## All records -/

/-- The texts between commas. -/
def splitCommas : List Char → List (List Char)
  | [] => [[]]
  | c :: rest =>
    if c = ',' then [] :: splitCommas rest
    else match splitCommas rest with
      | [] => [[c]]
      | group :: groups => (c :: group) :: groups

theorem splitCommas_ne_nil (s : List Char) : splitCommas s ≠ [] := by
  cases s with
  | nil => simp [splitCommas]
  | cons c rest =>
    rw [splitCommas]
    split
    · simp
    · split <;> simp

/-- A comma divides a text whatever stands around it. -/
theorem splitCommas_append_comma (s t : List Char) :
    splitCommas (s ++ ',' :: t) = splitCommas s ++ splitCommas t := by
  induction s with
  | nil => simp [splitCommas]
  | cons c rest ih =>
    rw [List.cons_append, splitCommas, splitCommas, ih]
    by_cases hc : c = ','
    · simp [hc]
    · simp only [hc, if_false]
      cases h : splitCommas rest with
      | nil => exact absurd h (splitCommas_ne_nil rest)
      | cons group groups => simp

/-- The record of the words between two commas, if there are any. -/
def readGroup (source : String) (words : List (List Char)) : Except Error (Option Record) :=
  if words.isEmpty then .ok none else some <$> Record.fill source {} .start words

def readGroups (source : String) (groups : List (List (List Char))) :
    Except Error (List Record) := do
  let records ← groups.mapM (readGroup source)
  .ok (records.filterMap id)

/-- The records of a transition. -/
def parse (source : String) : Except Error (List Record) :=
  readGroups source ((splitCommas source.toList).map Text.words)

end Stylesheet.Transition
