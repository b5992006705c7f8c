/-
Dates and times of day of the Gregorian calendar. Two times with a zone are the same if they are
the same instant, however they are written; dates and times without one are the same as written.
-/

namespace Stylesheet.Document

structure TimeOfDay where
  hour : Nat
  minute : Nat
  second : Nat
  microsecond : Nat
  /-- Minutes ahead of universal time, if the zone is known. -/
  zone : Option Int
deriving DecidableEq, Repr

/-- A date, perhaps with a time of day. -/
structure Stamp where
  year : Nat
  month : Nat
  day : Nat
  time : Option TimeOfDay
deriving DecidableEq, Repr

namespace Stamp

/-! ## The calendar -/

def isLeapYear (year : Nat) : Bool := year % 4 == 0 && (year % 100 != 0 || year % 400 == 0)

def daysIn (year month : Nat) : Nat :=
  if month = 2 then (if isLeapYear year then 29 else 28)
  else if [4, 6, 9, 11].contains month then 30
  else 31

def minutesPerDay : Nat := 24 * 60

/-- The date and the time of day exist, and the zone is less than a day away. -/
def isValid (s : Stamp) : Bool :=
  decide (1 ≤ s.year) && decide (1 ≤ s.month) && decide (s.month ≤ 12) && decide (1 ≤ s.day) &&
    decide (s.day ≤ daysIn s.year s.month) && s.time.all fun t =>
      decide (t.hour < 24) && decide (t.minute < 60) && decide (t.second < 60) &&
        t.zone.all fun zone => decide (zone.natAbs < minutesPerDay)

/-- Days from the first day of year one. -/
def dayNumber (s : Stamp) : Nat :=
  let years := s.year - 1
  365 * years + years / 4 - years / 100 + years / 400 +
    (List.range (s.month - 1)).foldl (fun n m => n + daysIn s.year (m + 1)) 0 + (s.day - 1)

/-! ## Instants -/

/-- Microseconds of universal time from the first day of year one, if the zone is known. -/
def instant? (s : Stamp) : Option Int := do
  let t ← s.time
  let zone ← t.zone
  let minutes : Int := (s.dayNumber * minutesPerDay + t.hour * 60 + t.minute : Nat)
  some (((minutes - zone) * 60 + t.second) * 1000000 + t.microsecond)

def same (a b : Stamp) : Bool :=
  match a.instant?, b.instant? with
  | some m, some n => m == n
  | none, none => a == b
  | _, _ => false

/-! ## Text -/

def padded (width n : Nat) : List Char :=
  let digits := Nat.toDigits 10 n
  List.replicate (width - digits.length) '0' ++ digits

def dateText (s : Stamp) : List Char :=
  padded 4 s.year ++ '-' :: padded 2 s.month ++ '-' :: padded 2 s.day

def zoneText (zone : Int) : List Char :=
  (if zone < 0 then '-' else '+') ::
    (padded 2 (zone.natAbs / 60) ++ ':' :: padded 2 (zone.natAbs % 60))

/-- Microseconds are written if there are any. -/
def timeText (t : TimeOfDay) : List Char :=
  padded 2 t.hour ++ ':' :: padded 2 t.minute ++ ':' :: padded 2 t.second ++
    (if t.microsecond = 0 then [] else '.' :: padded 6 t.microsecond) ++
    (t.zone.map zoneText).getD []

def text (s : Stamp) : String :=
  String.ofList (s.dateText ++ (s.time.map fun t => ' ' :: timeText t).getD [])

end Stamp

end Stylesheet.Document
