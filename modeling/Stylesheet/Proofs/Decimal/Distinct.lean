/-
Distinct texts of doubles. A magnitude is written as a numeral that is rounded to it, or as its shortest digits with an
exponent; these are rounded to it too, around their point, so no other magnitude has them. The exponent stands behind
the one letter of the text. So the text tells in which of the two ways it was written, and the magnitude; and with its
sign, it tells the double (`Double.numeral_injective`).
-/
import Mathlib.Tactic
import Stylesheet.Proofs.Decimal.Plain
import Stylesheet.Proofs.Text.Canonical

namespace Stylesheet

open Double (Representable spacingExponent)
open Text (Numeral Writes)

namespace Significand

variable {units other : Nat}

/-! ## Digits and exponents -/

theorem isDigit_of_mem_shortest (hs : 2 ^ spacingExponent units ∣ units) {d : Char} (hd : d ∈ (shortest units).digits) :
    d.isDigit = true := by
  rcases Nat.eq_zero_or_pos units with rfl | hu
  · rw [List.mem_singleton.1 (show d ∈ ['0'] from hd)]
    rfl
  · obtain ⟨c, e, hshortest, -⟩ := exists_shortest_eq hu hs
    rw [hshortest] at hd
    exact isDigit_of_mem_ofCoefficient hd

/-- The shortest digits and their exponent tell the magnitude. -/
theorem shortest_inj (hs : 2 ^ spacingExponent units ∣ units) (ho : 2 ^ spacingExponent other ∣ other)
    (hdigits : (shortest units).digits = (shortest other).digits)
    (hexponent : (shortest units).exponent = (shortest other).exponent) : units = other := by
  have hpoint : (shortest units).point = (shortest other).point := by rw [point, point, hdigits, hexponent]
  have hnearest := (writes_point_shortest hs).nearest
  rw [hpoint] at hnearest
  exact hnearest.symm.trans (writes_point_shortest ho).nearest

/-- Behind the letter and the sign of an exponent stand the digits of its magnitude. -/
theorem exponentText_spec (e : Int) : ∃ digits, exponentText e = 'e' :: (if e < 0 then '-' else '+') :: digits ∧
    (∀ d ∈ digits, d.isDigit = true) ∧ Nat.ofDigitChars 10 digits 0 = e.natAbs := by
  have hdigits : ∀ d ∈ Nat.toDigits 10 e.natAbs, d.isDigit = true :=
    fun d hd => Nat.isDigit_of_mem_toDigits (by decide) (by decide) hd
  have hvalue : Nat.ofDigitChars 10 (Nat.toDigits 10 e.natAbs) 0 = e.natAbs := Nat.ofDigitChars_ten_toDigits
  refine ⟨_, rfl, ?_, ?_⟩
  · split
    · exact List.forall_mem_cons.2 ⟨rfl, hdigits⟩
    · exact hdigits
  · -- a zero in front changes nothing
    split <;> exact hvalue

theorem exponentText_inj {e e' : Int} (h : exponentText e = exponentText e') : e = e' := by
  obtain ⟨digits, htext, -, hvalue⟩ := exponentText_spec e
  obtain ⟨digits', htext', -, hvalue'⟩ := exponentText_spec e'
  rw [htext, htext'] at h
  obtain ⟨hsign, rfl⟩ := List.cons.inj (List.cons.inj h).2
  have hnegative : e < 0 ↔ e' < 0 := by
    by_cases he : e < 0 <;> by_cases he' : e' < 0 <;> simp [he, he'] at hsign ⊢
  omega

/-- Behind its first letter an exponent has no other. -/
theorem exists_exponentText (e : Int) : ∃ rest, exponentText e = 'e' :: rest ∧ 'e' ∉ rest := by
  obtain ⟨digits, htext, hdigits, -⟩ := exponentText_spec e
  refine ⟨_, htext, fun hmem => ?_⟩
  rcases List.mem_cons.1 hmem with hsign | hmem
  · split at hsign <;> cases hsign
  · exact absurd (hdigits _ hmem) (by decide)

/-- The digits with the point behind the first of them are a numeral. -/
theorem exists_scientific_eq {s : Significand} (hne : s.digits ≠ []) (hdigits : ∀ d ∈ s.digits, d.isDigit = true) :
    ∃ n : Numeral, n.Spelled ∧ n.whole ++ n.places = s.digits ∧ s.scientific = n.text ++ exponentText s.exponent := by
  obtain ⟨digits, exponent⟩ := s
  match digits with
  | [] => exact absurd rfl hne
  | [d] => exact ⟨⟨[d], none⟩, ⟨hdigits, List.cons_ne_nil _ _⟩, rfl, rfl⟩
  | d :: d' :: rest => exact ⟨⟨[d], some (d' :: rest)⟩, ⟨hdigits, List.cons_ne_nil _ _⟩, rfl, rfl⟩

end Significand

/-! ## Texts of magnitudes -/

/-- The text of a magnitude: a numeral that is rounded to it, or its shortest digits with their exponent. -/
inductive Text.Magnitude (units : Nat) : List Char → Prop
  | plain {n : Numeral} (hn : Writes n.whole n.places units) : Magnitude units n.text
  | scientific {n : Numeral} (hn : n.Spelled) (hdigits : n.whole ++ n.places = (Significand.shortest units).digits) :
    Magnitude units (n.text ++ Significand.exponentText (Significand.shortest units).exponent)

namespace Text

variable {units other : Nat} {text : List Char}

theorem Writes.spelled {n : Numeral} (h : Writes n.whole n.places units) : n.Spelled := ⟨h.digits, h.whole_ne_nil⟩

theorem Magnitude.isDigit_or_mem (h : Magnitude units text) :
    ∀ c ∈ text, c.isDigit = true ∨ c ∈ ['.', 'e', '-', '+'] := by
  have hnumeral {n : Numeral} (hn : n.Spelled) : ∀ c ∈ n.text, c.isDigit = true ∨ c ∈ ['.', 'e', '-', '+'] :=
    fun c hc => (hn.isDigit_or_point c hc).imp_right fun hpoint => by rw [hpoint]; decide
  cases h with
  | plain hn => exact hnumeral hn.spelled
  | scientific hn =>
    obtain ⟨digits, htext, hdigits, -⟩ := Significand.exponentText_spec (Significand.shortest units).exponent
    rw [htext]
    refine List.forall_mem_append.2 ⟨hnumeral hn, List.forall_mem_cons.2 ⟨.inr (by decide), ?_⟩⟩
    refine List.forall_mem_cons.2 ⟨?_, fun d hd => .inl (hdigits d hd)⟩
    split <;> exact .inr (by decide)

theorem Magnitude.head?_ne (h : Magnitude units text) : text.head? ≠ some '-' := by
  cases h with
  | plain hn => exact hn.spelled.head?_text_ne
  | scientific hn =>
    rw [List.head?_append_of_ne_nil _ (Numeral.text_ne_nil hn.whole_ne_nil)]
    exact hn.head?_text_ne

/-- The text of a magnitude tells it. -/
theorem Magnitude.inj (hs : 2 ^ spacingExponent units ∣ units) (ho : 2 ^ spacingExponent other ∣ other)
    {text' : List Char}
    (h : Magnitude units text) (h' : Magnitude other text') (htext : text = text') : units = other := by
  -- no numeral has the letter in front of an exponent
  have hletter {n m : Numeral} {e : Int} (hn : n.Spelled) : n.text ≠ m.text ++ Significand.exponentText e := by
    intro heq
    refine hn.not_mem_text (c := 'e') (by decide) (by decide) ?_
    rw [heq]
    exact List.mem_append_right _ (List.mem_cons_self ..)
  cases h with
  | plain hn =>
    cases h' with
    | plain hm =>
      rw [hn.spelled.text_inj hm.spelled] at htext
      rw [← hn.nearest, htext, hm.nearest]
    | scientific hm => exact absurd htext (hletter hn.spelled)
  | @scientific n hn hdigits =>
    cases h' with
    | plain hm => exact absurd htext.symm (hletter hm.spelled)
    | @scientific m hm hdigits' =>
      obtain ⟨rest, hrest, hnone⟩ := Significand.exists_exponentText (Significand.shortest units).exponent
      obtain ⟨rest', hrest', -⟩ := Significand.exists_exponentText (Significand.shortest other).exponent
      rw [hrest, hrest', List.append_cons_inj_of_notMem (hn.not_mem_text (by decide) (by decide)) hnone,
        hn.text_inj hm] at htext
      obtain ⟨rfl, -, rfl⟩ := htext
      have hexponent := Significand.exponentText_inj (hrest.trans hrest'.symm)
      exact Significand.shortest_inj hs ho (hdigits.symm.trans hdigits') hexponent

end Text

/-! ## Texts of doubles -/

namespace Double

variable {units : Nat}

/-- A finite double is written as its magnitude, behind a minus sign if it has one. -/
theorem exists_magnitude (negative : Bool) (hr : Representable units) : ∃ text, Text.Magnitude units text ∧
    (Double.finite negative units hr).numeral = String.ofList ((if negative then ['-'] else []) ++ text) := by
  by_cases hplain : (Significand.shortest units).IsPlain
  · obtain ⟨n, hn, htext⟩ := exists_numeral_eq negative hr hplain
    exact ⟨n.text, .plain hn, htext⟩
  · obtain ⟨n, hn, hdigits, htext⟩ := Significand.exists_scientific_eq (Significand.digits_shortest_ne_nil hr.1)
      fun _ => Significand.isDigit_of_mem_shortest hr.1
    refine ⟨_, .scientific hn hdigits, ?_⟩
    rw [← htext, numeral, writeWith, if_neg hplain]

/-- Texts of finite doubles have no letter but that of the exponent. -/
theorem isDigit_or_mem_numeral {x : Double} (hx : x.isFinite = true) :
    ∀ c ∈ x.numeral.toList, c.isDigit = true ∨ c ∈ ['.', 'e', '-', '+'] := by
  cases x with
  | nan => cases hx
  | infinite negative => cases hx
  | finite negative units hr =>
    obtain ⟨text, htext, hnumeral⟩ := exists_magnitude negative hr
    rw [hnumeral, String.toList_ofList]
    refine List.forall_mem_append.2 ⟨?_, htext.isDigit_or_mem⟩
    cases negative <;> simp

/-- Distinct doubles have distinct texts. -/
theorem numeral_injective : Function.Injective numeral := by
  -- the others have a letter that no finite double has
  have hspecial {x y : Double} (hx : 'n' ∈ x.numeral.toList) (hy : y.isFinite = true) : x.numeral ≠ y.numeral := by
    intro h
    rw [h] at hx
    exact absurd (isDigit_or_mem_numeral hy 'n' hx) (by decide)
  have hinfinite (negative : Bool) : 'n' ∈ (infinite negative).numeral.toList := by cases negative <;> decide
  intro x y h
  cases x with
  | nan =>
    cases y with
    | nan => rfl
    | infinite negative => cases negative <;> exact absurd h (by decide)
    | finite => exact absurd h (hspecial (by decide) rfl)
  | infinite negative =>
    cases y with
    | nan => cases negative <;> exact absurd h (by decide)
    | infinite negative' => cases negative <;> cases negative' <;> first | rfl | exact absurd h (by decide)
    | finite => exact absurd h (hspecial (hinfinite negative) rfl)
  | finite negative units hr =>
    cases y with
    | nan => exact absurd h.symm (hspecial (by decide) rfl)
    | infinite negative' => exact absurd h.symm (hspecial (hinfinite negative') rfl)
    | finite negative' other ho =>
      obtain ⟨text, htext, hnumeral⟩ := exists_magnitude negative hr
      obtain ⟨text', htext', hnumeral'⟩ := exists_magnitude negative' ho
      rw [hnumeral, hnumeral', String.ofList_inj, Text.sign_append_inj htext.head?_ne htext'.head?_ne] at h
      obtain ⟨rfl, h⟩ := h
      obtain rfl := htext.inj hr.1 ho.1 htext' h
      rfl

end Double

end Stylesheet
