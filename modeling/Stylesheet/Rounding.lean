/-
Rounding a quotient of whole numbers to the nearest whole number, a half to the even neighbour.
The result is one of the two neighbours of the quotient, so it never leaves a range whose ends
are whole.
-/

namespace Stylesheet

/-- The whole number nearest to `num / den`; a half goes to the even neighbour. -/
def roundHalfEven (num den : Nat) : Nat :=
  let q := num / den
  let r := num % den
  if 2 * r < den then q
  else if den < 2 * r then q + 1
  else if q % 2 = 0 then q
  else q + 1

theorem roundHalfEven_eq_or (num den : Nat) :
    roundHalfEven num den = num / den ∨ roundHalfEven num den = num / den + 1 := by
  simp only [roundHalfEven]
  split
  · exact .inl rfl
  · split
    · exact .inr rfl
    · split
      · exact .inl rfl
      · exact .inr rfl

theorem roundHalfEven_le_of_div_lt {num den bound : Nat} (h : num / den < bound) :
    roundHalfEven num den ≤ bound := by
  rcases roundHalfEven_eq_or num den with e | e <;> omega

end Stylesheet
