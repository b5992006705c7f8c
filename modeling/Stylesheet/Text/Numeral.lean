/-
Numerals at the front of a text: digits, and perhaps a point with further digits. The longest one
is split off, nothing is lost (`text_append_of_split?`), and what follows is shorter.
-/
import Stylesheet.Text.Digit
import Stylesheet.Decimal.Basic

namespace Stylesheet.Text

/-- Digits before and after a decimal point; a point may stand without digits after it. -/
structure Numeral where
  whole : List Char
  fraction : Option (List Char)
deriving DecidableEq, Repr

namespace Numeral

def text (n : Numeral) : List Char :=
  match n.fraction with
  | none => n.whole
  | some fraction => n.whole ++ '.' :: fraction

/-- The digits after the point. -/
def places (n : Numeral) : List Char := n.fraction.getD []

/-- The nearest double; a digit of any script counts with its value. -/
def toDouble (n : Numeral) : Double :=
  Double.ofDigits (n.whole.map toAsciiDigit) (n.places.map toAsciiDigit)

/-! ## Splitting one off -/

/-- The longest numeral at the front, and what follows it. -/
def split? (digit : Char → Bool) (s : List Char) : Option (Numeral × List Char) :=
  if (s.takeWhile digit).isEmpty then none
  else match s.dropWhile digit with
    | '.' :: rest => some (⟨s.takeWhile digit, some (rest.takeWhile digit)⟩, rest.dropWhile digit)
    | rest => some (⟨s.takeWhile digit, none⟩, rest)

theorem text_append_of_split? {digit : Char → Bool} {s rest : List Char} {n : Numeral}
    (h : split? digit s = some (n, rest)) : n.text ++ rest = s := by
  unfold split? at h
  split at h
  · cases h
  · split at h
    · rename_i r hr
      cases h
      simp only [text, List.append_assoc, List.cons_append, List.takeWhile_append_dropWhile]
      rw [← hr, List.takeWhile_append_dropWhile]
    · cases h
      simp [text, List.takeWhile_append_dropWhile]

theorem whole_ne_nil_of_split? {digit : Char → Bool} {s rest : List Char} {n : Numeral}
    (h : split? digit s = some (n, rest)) : n.whole ≠ [] := by
  unfold split? at h
  split at h
  · cases h
  · rename_i hne
    split at h <;> cases h <;> simpa using hne

theorem length_pos_of_split? {digit : Char → Bool} {s rest : List Char} {n : Numeral}
    (h : split? digit s = some (n, rest)) : 0 < n.text.length := by
  have := List.length_pos_iff.2 (whole_ne_nil_of_split? h)
  unfold text
  split
  · exact this
  · rw [List.length_append]
    omega

theorem length_lt_of_split? {digit : Char → Bool} {s rest : List Char} {n : Numeral}
    (h : split? digit s = some (n, rest)) : rest.length < s.length := by
  have hpos := length_pos_of_split? h
  have ht := congrArg List.length (text_append_of_split? h)
  rw [List.length_append] at ht
  omega

end Numeral

end Stylesheet.Text
