/-
The kinds of plain scalars: what a text without quotes stands for. Numbers may hold underscores,
and parts in base sixty are divided by colons. A reader of one kind tells first whether a text has
the form of that kind, and then whether there is such a value.
-/
import Stylesheet.Document.Json.Token
import Stylesheet.Double.Arithmetic

namespace Stylesheet.Document.Yaml

/-! ## Matching -/

def isDigitOrBar (c : Char) : Bool := c.isDigit || c == '_'

def dropBars (s : List Char) : List Char := s.filter (· != '_')

/-- A sign, if there is one, and what follows: whether it is negative, whether it stands there. -/
def splitSign : List Char → Bool × Bool × List Char
  | '-' :: rest => (true, true, rest)
  | '+' :: rest => (false, true, rest)
  | s => (false, false, s)

/-- Exactly `count` digits, and what follows. -/
def takeDigits? (count : Nat) (s : List Char) : Option (Nat × List Char) :=
  let digits := s.take count
  if digits.length = count ∧ digits.all Char.isDigit then
    some (Nat.ofDigitChars 10 digits 0, s.drop count)
  else none

/-- One or two digits, as many as there are, and what follows. -/
def takeOneOrTwo? (s : List Char) : Option (Nat × List Char) :=
  (takeDigits? 2 s).or (takeDigits? 1 s)

def takeChar? (c : Char) : List Char → Option (List Char)
  | d :: rest => if c = d then some rest else none
  | [] => none

/-- The value of digits in a base, underscores not counted; there has to be a digit. -/
def inBase (base : Nat) (s : List Char) : Reading Nat :=
  match (dropBars s).mapM Json.hexDigit? with
  | some digits =>
    if digits.isEmpty ∨ digits.any (base ≤ ·) then malformed
    else .ok (digits.foldl (base * · + ·) 0)
  | none => malformed

/-! ## Whole numbers -/

/-- Parts in base sixty behind the first, each with its colon; what follows them. -/
def sixtieths (s : List Char) : List Nat × List Char :=
  match s with
  | ':' :: rest =>
    let part := match rest with
      | a :: b :: after =>
        if '0' ≤ a ∧ a ≤ '5' ∧ b.isDigit then some ([a, b], after)
        else if a.isDigit then some ([a], b :: after)
        else none
      | [a] => if a.isDigit then some ([a], []) else none
      | [] => none
    match part with
    | some (digits, after) =>
      if after.length < rest.length then
        let (parts, last) := sixtieths after
        (Nat.ofDigitChars 10 digits 0 :: parts, last)
      else ([], s)
    | none => ([], s)
  | _ => ([], s)
termination_by s.length
decreasing_by
  rw [List.length_cons]
  omega

/-- The magnitude of a whole number: binary, octal, hexadecimal, decimal, or in base sixty. -/
def magnitude? (s : List Char) : Option (Reading Nat) :=
  match s with
  | ['0'] => some (.ok 0)
  | '0' :: 'b' :: rest =>
    if !rest.isEmpty && rest.all (fun c => c == '0' || c == '1' || c == '_') then
      some (inBase 2 rest)
    else none
  | '0' :: 'x' :: rest =>
    if !rest.isEmpty && rest.all (fun c => (Json.hexDigit? c).isSome || c == '_') then
      some (inBase 16 rest)
    else none
  | '0' :: rest =>
    if rest.all (fun c => ('0' ≤ c && c ≤ '7') || c == '_') then some (inBase 8 s) else none
  | c :: _ =>
    if c.isDigit then
      match sixtieths (s.dropWhile isDigitOrBar) with
      | (parts, []) => some do
        let whole ← Whole.read (dropBars (s.takeWhile isDigitOrBar))
        .ok (parts.foldl (60 * · + ·) whole)
      | _ => none
    else none
  | [] => none

/-! ## Numbers with a point -/

/-- The exponent part of a number; its sign has to be there. Without one it is zero. -/
def exponent? : List Char → Option Int
  | [] => some 0
  | mark :: sign :: digits =>
    if (mark == 'e' || mark == 'E') && !digits.isEmpty && digits.all Char.isDigit then
      let value : Int := Nat.ofDigitChars 10 digits 0
      if sign = '+' then some value else if sign = '-' then some (-value) else none
    else none
  | _ => none

def ofParts (negative : Bool) (whole fraction : List Char) (exponent : Int) : Double :=
  let whole := dropBars whole
  let fraction := dropBars fraction
  Decimal.toDouble
    ⟨negative, Nat.ofDigitChars 10 (whole ++ fraction) 0, exponent - fraction.length⟩

/-- The value of parts in base sixty, summed as doubles from the last part on. What a one is worth
in the first place has to be a finite double. -/
def sexagesimal (negative : Bool) (parts : List Nat) (fraction : List Char) : Reading Double :=
  if (Double.ofInt (Nat.pow 60 (parts.length - 1))).isFinite then
    let last := ofParts false (Nat.toDigits 10 (parts.getLastD 0)) fraction 0
    let values := last :: (parts.dropLast.reverse.map fun (n : Nat) => Double.ofInt n)
    let sum := (values.zipIdx.map fun (x, i) => x.mul (Double.ofInt (Nat.pow 60 i))).foldl Double.add
      (Double.zero false)
    .ok (if negative then sum.neg else sum)
  else .error (.overflow .double)

/-- What follows the point of an infinity and of not-a-number. -/
def infinityWords : List String := ["inf", "Inf", "INF"]

def notANumberWords : List String := ["nan", "NaN", "NAN"]

def float? (s : List Char) : Option (Reading Double) :=
  let (negative, signed, body) := splitSign s
  match body with
  | '.' :: rest =>
    if infinityWords.contains (String.ofList rest) then some (.ok (.infinite negative))
    else if signed then none
    else if notANumberWords.contains (String.ofList rest) then some (.ok .nan)
    else if (rest.head?.map Char.isDigit).getD false then
      (exponent? (rest.dropWhile isDigitOrBar)).map fun exponent =>
        .ok (ofParts negative [] (rest.takeWhile isDigitOrBar) exponent)
    else none
  | c :: _ =>
    if c.isDigit then
      let whole := body.takeWhile isDigitOrBar
      match sixtieths (body.dropWhile isDigitOrBar) with
      | ([], '.' :: rest) =>
        (exponent? (rest.dropWhile isDigitOrBar)).map fun exponent =>
          .ok (ofParts negative whole (rest.takeWhile isDigitOrBar) exponent)
      | ([], _) => none
      | (parts, '.' :: fraction) =>
        if fraction.all isDigitOrBar then
          some (sexagesimal negative (Nat.ofDigitChars 10 (dropBars whole) 0 :: parts) fraction)
        else none
      | _ => none
    else none
  | [] => none

/-! ## Dates and times -/

def checkStamp (s : Stamp) : Reading Stamp := if s.isValid then .ok s else malformed

/-- A date in its full form. -/
def date? (s : List Char) : Option (Reading Stamp) := do
  let (year, s) ← takeDigits? 4 s
  let (month, s) ← takeDigits? 2 (← takeChar? '-' s)
  let (day, s) ← takeDigits? 2 (← takeChar? '-' s)
  if s.isEmpty then some (checkStamp ⟨year, month, day, none⟩) else none

/-- A time zone in minutes: nothing, `Z`, or hours and perhaps minutes. -/
def zone? (s : List Char) : Option (Option Int) :=
  if s.isEmpty then some none
  else
    match s.dropWhile isBlank with
    | ['Z'] => some (some 0)
    | sign :: rest =>
      if sign = '+' ∨ sign = '-' then do
        let (hours, rest) ← takeOneOrTwo? rest
        let minutes ← match rest with
          | [] => some 0
          | ':' :: rest => do
            let (minutes, rest) ← takeDigits? 2 rest
            if rest.isEmpty then some minutes else none
          | _ => none
        let zone : Int := hours * 60 + minutes
        some (some (if sign = '-' then -zone else zone))
      else none
    | [] => none
where
  isBlank (c : Char) : Bool := c == ' ' || c == '\t'

/-- What divides a date from a time. -/
def takeDivider? : List Char → Option (List Char)
  | c :: rest =>
    if c = 'T' ∨ c = 't' then some rest
    else if c = ' ' ∨ c = '\t' then some (rest.dropWhile fun c => c == ' ' || c == '\t')
    else none
  | [] => none

/-- Six digits of a fraction count. -/
def microseconds (fraction : List Char) : Nat :=
  Nat.ofDigitChars 10 ((fraction ++ List.replicate 6 '0').take 6) 0

def time? (s : List Char) : Option (Reading Stamp) := do
  let (year, s) ← takeDigits? 4 s
  let (month, s) ← takeOneOrTwo? (← takeChar? '-' s)
  let (day, s) ← takeOneOrTwo? (← takeChar? '-' s)
  let (hour, s) ← takeOneOrTwo? (← takeDivider? s)
  let (minute, s) ← takeDigits? 2 (← takeChar? ':' s)
  let (second, s) ← takeDigits? 2 (← takeChar? ':' s)
  let (fraction, s) := match s with
    | '.' :: rest => (rest.takeWhile Char.isDigit, rest.dropWhile Char.isDigit)
    | s => ([], s)
  let zone ← zone? s
  some (checkStamp
    ⟨year, month, day, some ⟨hour, minute, second, microseconds fraction, zone⟩⟩)

/-! ## All kinds -/

def nullWords : List String := ["", "~", "null", "Null", "NULL"]

def trueWords : List String :=
  ["yes", "Yes", "YES", "true", "True", "TRUE", "on", "On", "ON"]

def falseWords : List String :=
  ["no", "No", "NO", "false", "False", "FALSE", "off", "Off", "OFF"]

/-- What a plain scalar stands for; a fault if its form promises a value that there is not. -/
def Scalar.ofPlain (text : List Char) : Reading Scalar :=
  let s := String.ofList text
  let (negative, _, body) := splitSign text
  if nullWords.contains s then .ok .null
  else if trueWords.contains s then .ok (.bool true)
  else if falseWords.contains s then .ok (.bool false)
  else if s = "=" ∨ s = "<<" then malformed
  else match float? text, magnitude? body, (date? text).or (time? text) with
    | some value, _, _ => value.map .float
    | none, some value, _ => value.map fun n => .int (if negative then -n else n)
    | none, none, some stamp => stamp.map .stamp
    | none, none, none => .ok (.text s)

end Stylesheet.Document.Yaml
