/-
Numbers that are too large for what they are needed for. Wherever one arises, it ends the whole
operation: no fault of a formula or document is made of it.
-/

namespace Stylesheet

inductive Overflow
  /-- A code point that 31 bits do not hold. -/
  | codePoint
  /-- A whole number beyond all finite doubles. -/
  | double
  /-- An infinity where a whole number is needed. -/
  | infinity
  /-- A count of characters that 63 bits do not hold. -/
  | count
  /-- A text with more characters than 63 bits can count. -/
  | text
deriving DecidableEq, Repr

namespace Overflow

def message : Overflow → String
  | codePoint => "Python int too large to convert to C int"
  | double => "int too large to convert to float"
  | infinity => "cannot convert float infinity to integer"
  | count => "cannot fit 'int' into an index-sized integer"
  | text => "repeated string is too long"

/-- The least count that does not fit. -/
def countLimit : Nat := Nat.pow 2 63

/-- A count of characters, which may be negative, has to fit into 64 bits with its sign. -/
def checkCount (n : Int) : Except Overflow Unit :=
  if -countLimit ≤ n ∧ n < countLimit then .ok () else .error .count

/-- As many copies of a text of `width` characters have to fit into one text. -/
def checkCopies (width : Nat) (n : Int) : Except Overflow Unit := do
  checkCount n
  if width * n.toNat < countLimit then .ok () else .error .text

end Overflow

end Stylesheet
