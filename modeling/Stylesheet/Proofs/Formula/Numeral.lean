/-
A value in the place of its name. The decimal text of a finite double is read as one number, behind a
minus sign if the double has one, and seventeen digits are enough for the number to be the double.
Texts of infinities and names without value start no token. So a formula that is a name is worth the
value of the name, or nothing.
-/
import Mathlib.Tactic
import Stylesheet.Proofs.Decimal.Layout
import Stylesheet.Proofs.Formula.Parse

namespace Stylesheet

open Text (Numeral Writes)

/-! ## Numerals at the front of a text -/

/-- Characters up to a place where none of their kind follows are taken as a whole. -/
theorem Text.takeWhile_dropWhile_append {p : Char → Bool} {s rest : List Char} (hs : ∀ c ∈ s, p c = true)
    (hrest : ∀ c ∈ rest.head?, p c = false) : (s ++ rest).takeWhile p = s ∧ (s ++ rest).dropWhile p = rest := by
  rw [List.takeWhile_append_of_pos hs, List.dropWhile_append_of_pos hs]
  cases rest with
  | nil => simp
  | cons c cs => simp [hrest c (by simp)]

/-- What is left of them starts with none of their kind. -/
theorem Text.head?_dropWhile (p : Char → Bool) (s : List Char) : ∀ c ∈ (s.dropWhile p).head?, p c = false := by
  intro c hc
  have := List.head?_dropWhile_not p s
  rw [Option.mem_def.1 hc] at this
  simpa using this

namespace Text.Numeral

/-- A numeral is split off by what follows its digits: another digit, or a point that it does not have, would go
on with it. -/
theorem split?_text_append_of_head {digit : Char → Bool} {n : Numeral} {rest : List Char}
    (hpoint : digit '.' = false) (hdigits : ∀ d ∈ n.whole ++ n.places, digit d = true) (hwhole : n.whole ≠ [])
    (hrest : ∀ c ∈ rest.head?, digit c = false) (hfraction : n.fraction = none → ∀ c ∈ rest.head?, c ≠ '.') :
    split? digit (n.text ++ rest) = some (n, rest) := by
  obtain ⟨whole, fraction⟩ := n
  have hw : ∀ d ∈ whole, digit d = true := fun d hd => hdigits d (List.mem_append_left _ hd)
  have hne : whole.isEmpty = false := by simpa using hwhole
  unfold split?
  cases fraction with
  | none =>
    obtain ⟨htake, hdrop⟩ := takeWhile_dropWhile_append hw hrest
    simp only [text, htake, hdrop, hne, Bool.false_eq_true, if_false]
    split
    · exact absurd rfl (hfraction rfl '.' (by simp))
    · rfl
  | some fraction =>
    have hf : ∀ d ∈ fraction, digit d = true := fun d hd => hdigits d (List.mem_append_right _ hd)
    have hp : ∀ c ∈ ('.' :: (fraction ++ rest)).head?, digit c = false := by simpa using hpoint
    obtain ⟨htake, hdrop⟩ := takeWhile_dropWhile_append hw hp
    obtain ⟨htake', hdrop'⟩ := takeWhile_dropWhile_append hf hrest
    simp only [text, List.append_assoc, List.cons_append, htake, hdrop, hne, Bool.false_eq_true, if_false,
      htake', hdrop']

theorem split?_text_append {digit : Char → Bool} {n : Numeral} {rest : List Char}
    (hpoint : digit '.' = false) (hdigits : ∀ d ∈ n.whole ++ n.places, digit d = true) (hwhole : n.whole ≠ [])
    (hrest : ∀ c ∈ rest.head?, digit c = false ∧ c ≠ '.') : split? digit (n.text ++ rest) = some (n, rest) :=
  split?_text_append_of_head hpoint hdigits hwhole (fun c hc => (hrest c hc).1) fun _ c hc => (hrest c hc).2

/-- A numeral that is split off has digits only, and ends where they do. -/
theorem digits_of_split? {digit : Char → Bool} {s after : List Char} {n : Numeral}
    (h : split? digit s = some (n, after)) :
    (∀ d ∈ n.whole ++ n.places, digit d = true) ∧ ∀ c ∈ after.head?, digit c = false := by
  have htake (s : List Char) : ∀ d ∈ s.takeWhile digit, digit d = true := fun d hd => List.mem_takeWhile_imp hd
  unfold split? at h
  split at h
  · cases h
  · split at h
    · cases h
      refine ⟨fun d hd => ?_, head?_dropWhile _ _⟩
      rcases List.mem_append.1 hd with hd | hd
      · exact htake _ d hd
      · exact htake _ d hd
    · cases h
      exact ⟨by simpa [Numeral.places] using htake s, head?_dropWhile _ s⟩

theorem mem_text {n : Numeral} {d : Char} (h : d ∈ n.text) : d ∈ n.whole ++ n.places ∨ d = '.' := by
  obtain ⟨whole, fraction⟩ := n
  cases fraction with
  | none => exact Or.inl (List.mem_append_left _ h)
  | some fraction =>
    rcases List.mem_append.1 h with h | h
    · exact Or.inl (List.mem_append_left _ h)
    · rcases List.mem_cons.1 h with h | h
      · exact Or.inr h
      · exact Or.inl (List.mem_append_right _ h)

theorem text_ne_nil {n : Numeral} (h : n.whole ≠ []) : n.text ≠ [] := by
  unfold text
  cases n.fraction <;> simp [h]

end Text.Numeral

namespace Formula

/-! ## Tokens -/

theorem isDigit_eq_false_of_isNameStart {c : Char} (h : isNameStart c = true) : c.isDigit = false := by
  by_contra hd
  obtain ⟨hlow, hhigh⟩ : 48 ≤ c.toNat ∧ c.toNat ≤ 57 := Char.isDigit_iff_toNat.1 (Bool.eq_true_of_not_eq_false hd)
  change ((decide (65 ≤ c.toNat ∧ c.toNat ≤ 90) || (decide (97 ≤ c.toNat) && decide (c.toNat ≤ 122))) ||
    c == '_') = true at h
  simp only [Bool.or_eq_true, Bool.and_eq_true, decide_eq_true_eq, beq_iff_eq] at h
  rcases h with (h | h) | rfl
  · omega
  · omega
  · revert hhigh; decide

/-- A character of names and numbers is no blank and no operator. -/
theorem ofChar?_of_isNameChar {c : Char} (h : isNameChar c = true) : isSpace c = false ∧ Lexeme.ofChar? c = none := by
  constructor
  · by_contra hs
    simp only [isSpace, Bool.not_eq_false, Bool.or_eq_true, beq_iff_eq] at hs
    rcases hs with ((rfl | rfl) | rfl) | rfl <;> cases h
  · unfold Lexeme.ofChar?
    split <;> first | rfl | cases h

/-- A numeral at the front is a token. -/
theorem scan_of_split? {s after : List Char} {n : Numeral} (h : Numeral.split? Char.isDigit s = some (n, after))
    (position : Nat) :
    scan position s = (scan (position + n.text.length) after).map (⟨.number n, position⟩ :: ·) := by
  obtain ⟨c, cs, rfl, hdigit⟩ : ∃ c cs, s = c :: cs ∧ c.isDigit = true := by
    unfold Numeral.split? at h
    split at h
    · cases h
    · rename_i hne
      cases s with
      | nil => simp at hne
      | cons c cs =>
        refine ⟨c, cs, rfl, ?_⟩
        by_contra hc
        simp [hc] at hne
  obtain ⟨hs, hop⟩ := ofChar?_of_isNameChar (c := c) (by rw [isNameChar, hdigit, Bool.or_true])
  rw [scan, if_neg (by rw [hs]; exact Bool.false_ne_true), hop]
  dsimp only
  split
  · rename_i h'; rw [h] at h'; cases h'; rfl
  · rename_i h'; rw [h] at h'; cases h'

theorem scan_numeral {n : Numeral} {rest : List Char} (position : Nat)
    (hdigits : ∀ d ∈ n.whole ++ n.places, d.isDigit = true) (hwhole : n.whole ≠ [])
    (hrest : ∀ c ∈ rest.head?, c.isDigit = false ∧ c ≠ '.') :
    scan position (n.text ++ rest) =
      (scan (position + n.text.length) rest).map (⟨.number n, position⟩ :: ·) :=
  scan_of_split? (Numeral.split?_text_append (by decide) hdigits hwhole hrest) position

theorem scan_text {n : Numeral} (position : Nat) (hdigits : ∀ d ∈ n.whole ++ n.places, d.isDigit = true)
    (hwhole : n.whole ≠ []) :
    scan position n.text = .ok [⟨.number n, position⟩] := by
  rw [← List.append_nil n.text, scan_numeral position hdigits hwhole (by simp), scan]
  rfl

theorem scan_minus (position : Nat) (rest : List Char) :
    scan position ('-' :: rest) = (scan (position + 1) rest).map (⟨.minus, position⟩ :: ·) := by
  rw [scan]; rfl

/-- What is no blank, sign or bracket and no digit starts no token. -/
theorem scan_of_not_isDigit {c : Char} (hs : ¬ isSpace c = true) (hop : Lexeme.ofChar? c = none)
    (hdigit : c.isDigit = false) (position : Nat) (rest : List Char) :
    scan position (c :: rest) = .error (c, position) := by
  have hsplit : Numeral.split? Char.isDigit (c :: rest) = none := by simp [Numeral.split?, hdigit]
  rw [scan, if_neg hs, hop]
  dsimp only
  split
  · rename_i h; rw [hsplit] at h; cases h
  · rfl

theorem scan_of_isNameStart {c : Char} (hc : isNameStart c = true) (position : Nat) (rest : List Char) :
    scan position (c :: rest) = .error (c, position) := by
  obtain ⟨hs, hop⟩ := ofChar?_of_isNameChar (c := c) (by rw [isNameChar, hc, Bool.true_or])
  exact scan_of_not_isDigit (by rw [hs]; exact Bool.false_ne_true) hop
    (isDigit_eq_false_of_isNameStart hc) position rest

/-! ## Numbers -/

theorem limitDigits_eq {limit : Int} (hl : 0 ≤ limit) (whole : List Char) :
    limitDigits limit whole = whole.take limit.toNat ++ List.replicate (whole.length - limit.toNat) '0' := by
  obtain ⟨n, rfl⟩ : ∃ n : Nat, limit = (n : Int) := ⟨limit.toNat, by omega⟩
  have hmax : max (n : Int) (-whole.length) = n := by omega
  unfold limitDigits keptDigits
  dsimp only
  rw [hmax, if_pos (Int.natCast_nonneg n), Int.toNat_natCast,
    show ((whole.length : Int) - n).toNat = whole.length - n by omega]
  split
  · rfl
  · rw [List.take_of_length_le (by omega), Nat.sub_eq_zero_of_le (by omega), List.replicate_zero, List.append_nil]

/-- Zeros take the place of zeros. -/
theorem limitDigits_of_zeros {limit : Int} (hl : 17 ≤ limit) {whole : List Char} (hz : ∀ d ∈ whole.drop 17, d = '0') :
    limitDigits limit whole = whole := by
  have hdrop : whole.drop limit.toNat = List.replicate (whole.length - limit.toNat) '0' := by
    refine List.eq_replicate_iff.2 ⟨List.length_drop, fun d hd => hz d ?_⟩
    rw [show limit.toNat = 17 + (limit.toNat - 17) by omega, ← List.drop_drop] at hd
    exact List.mem_of_mem_drop hd
  rw [limitDigits_eq (by omega), ← hdrop, List.take_append_drop]

theorem numberValue_of_writes {limits : Limits} (hl : 17 ≤ limits.digits) {n : Numeral} {units : Nat}
    (h : Writes n.whole n.places units) (hr : Double.Representable units) :
    limits.numberValue n = .finite false units hr := by
  unfold Limits.numberValue
  rw [limitDigits_of_zeros hl h.zeros, h.ofDigits hr]

theorem isNaN_numberValue (limits : Limits) (n : Numeral) : (limits.numberValue n).isNaN = false := by
  unfold Limits.numberValue
  exact Double.isNaN_ofDigits _ _

/-! ## Formulas of one number -/

/-- The double with the sign changed, or as it is. -/
def signed (negative : Bool) (x : Double) : Double := if negative then x.neg else x

@[simp] theorem signed_false (x : Double) : signed false x = x := rfl

@[simp] theorem signed_true (x : Double) : signed true x = x.neg := rfl

theorem signed_finite (negative : Bool) {units : Nat} (hr : Double.Representable units) :
    signed negative (.finite false units hr) = .finite negative units hr := by
  cases negative <;> rfl

theorem isNaN_signed (negative : Bool) (x : Double) : (signed negative x).isNaN = x.isNaN := by
  cases negative <;> cases x <;> rfl

theorem Expr.eval_number (position : Nat) (x : Double) : (Expr.number position x).eval = .ok x :=
  evalWith_number ..

theorem Expr.eval_negate_number (position : Nat) (position' : Nat) (x : Double) :
    (Expr.negate position (.number position' x)).eval = .ok x.neg := by
  rw [eval, evalWith_negate, evalWith_number]
  rfl

/-- The derivation of a number that is written with its sign. -/
def Derivation.ofNumeral (negative : Bool) (n : Numeral) : Derivation Numeral .expression :=
  .term (.factor (if negative then .negation 0 (.atom n 1) else .atom n 0))

theorem tokens_ofNumeral (negative : Bool) (n : Numeral) : (Derivation.ofNumeral negative n).tokens =
    if negative then [⟨.minus, 0⟩, ⟨.number n, 1⟩] else [⟨.number n, 0⟩] := by
  cases negative <;> rfl

theorem scan_ofNumeral (negative : Bool) {n : Numeral} (hdigits : ∀ d ∈ n.whole ++ n.places, d.isDigit = true)
    (hwhole : n.whole ≠ []) :
    scan 0 ((if negative then ['-'] else []) ++ n.text) = .ok (Derivation.ofNumeral negative n).tokens := by
  rw [tokens_ofNumeral]
  cases negative with
  | false => exact scan_text 0 hdigits hwhole
  | true =>
    rw [if_pos rfl, List.singleton_append, scan_minus, scan_text _ hdigits hwhole]
    rfl

theorem eval_tree_ofNumeral (value : Numeral → Double) (negative : Bool) (n : Numeral) :
    ((Derivation.ofNumeral negative n).tree value).eval = .ok (signed negative (value n)) := by
  cases negative with
  | false => exact Expr.eval_number ..
  | true => exact Expr.eval_negate_number ..

/-- A numeral is read as its number, and one behind a minus sign as the negated number. -/
theorem eval_of_parse_numeral {limits : Limits} {negative : Bool} {n : Numeral} {e : Expr}
    (hdigits : ∀ d ∈ n.whole ++ n.places, d.isDigit = true) (hwhole : n.whole ≠ [])
    (h : parse limits (String.ofList ((if negative then ['-'] else []) ++ n.text)) = .ok e) :
    e.eval = .ok (signed negative (limits.numberValue n)) := by
  obtain ⟨ts, hts, h⟩ := parse_eq_ok_iff_parseTokens.1 h
  have hscan := (tokens_eq_ok_iff.1 hts).2
  rw [String.toList_ofList, scan_ofNumeral negative hdigits hwhole] at hscan
  cases hscan
  obtain ⟨-, -, rfl⟩ := (Derivation.parseTokens_iff _).1 h
  exact eval_tree_ofNumeral ..

/-- A text that starts no token is no formula. -/
theorem parse_ne_ok_of_scan {limits : Limits} {formula : String} {stray : Char × Nat} {e : Expr}
    (hs : scan 0 formula.toList = .error stray) : parse limits formula ≠ .ok e := by
  intro h
  obtain ⟨ts, hts, -⟩ := parse_eq_ok_iff_parseTokens.1 h
  rw [(tokens_eq_ok_iff.1 hts).2] at hs
  cases hs

/-! ## Texts of values -/

/-- The text of a value is a numeral, behind a minus sign if the value has one, and worth the value. -/
structure Spells (x : Double) (negative : Bool) (n : Numeral) : Prop where
  digits : ∀ d ∈ n.whole ++ n.places, d.isDigit = true
  whole_ne_nil : n.whole ≠ []
  text : x.plainNumeral = (if negative then ['-'] else []) ++ n.text
  value : ∀ limits : Limits, 17 ≤ limits.digits → signed negative (limits.numberValue n) = x

theorem exists_spells_isNegative {x : Double} (hx : x.isFinite = true) : ∃ n, Spells x x.isNegative n := by
  cases x with
  | nan => cases hx
  | infinite negative => cases hx
  | finite negative units hr =>
    obtain ⟨n, hn, htext⟩ := Double.plainNumeral_finite negative hr
    refine ⟨n, hn.digits, hn.whole_ne_nil, htext, fun limits hl => ?_⟩
    rw [numberValue_of_writes hl hn hr, Double.isNegative, signed_finite]

theorem exists_spells {x : Double} (hx : x.isFinite = true) : ∃ negative n, Spells x negative n :=
  ⟨_, exists_spells_isNegative hx⟩

/-- What can be read back of a value from its text: the value itself, where it is finite and digits
enough are kept. -/
theorem eval_of_parse_plainNumeral {limits : Limits} {x y : Double} {e : Expr} (hx : x.isNaN = false)
    (h : parse limits (String.ofList x.plainNumeral) = .ok e) (he : e.eval = .ok y) :
    y.isNaN = false ∧ (17 ≤ limits.digits → y = x) := by
  cases x with
  | nan => cases hx
  | infinite negative =>
    -- the text of an infinity stops at its first letter
    have hscan : scan 0 (Double.infinite negative).plainNumeral = .error ('i', if negative then 1 else 0) := by
      show scan 0 ((if negative then ['-'] else []) ++ ['i', 'n', 'f']) = _
      cases negative with
      | false => exact scan_of_isNameStart (by decide) 0 _
      | true =>
        rw [if_pos rfl, List.singleton_append, scan_minus, scan_of_isNameStart (by decide)]
        rfl
    exact absurd h (parse_ne_ok_of_scan (by rw [String.toList_ofList]; exact hscan))
  | finite negative units hr =>
    obtain ⟨n, hn⟩ := exists_spells_isNegative (x := .finite negative units hr) rfl
    rw [hn.text] at h
    rw [eval_of_parse_numeral hn.digits hn.whole_ne_nil h] at he
    rw [← Except.ok.inj he]
    exact ⟨by rw [isNaN_signed, isNaN_numberValue], hn.value limits⟩

theorem mem_plainNumeral {x : Double} (hx : x.isFinite = true) :
    ∀ c ∈ x.plainNumeral, c.isDigit = true ∨ c = '.' ∨ c = '-' := by
  obtain ⟨n, hn⟩ := exists_spells_isNegative hx
  rw [hn.text]
  refine List.forall_mem_append.2 ⟨fun c hc => ?_, fun c hc => (Numeral.mem_text hc).imp (hn.digits c) .inl⟩
  split at hc
  · exact .inr (.inr (List.mem_singleton.1 hc))
  · cases hc

/-- The text of a finite value has no exponent. It is read as one number, behind a minus sign if the value has one, and
is worth the value: of the digits that the limit cuts off, none was significant. -/
theorem parse_plainNumeral {limits : Limits} {x : Double} (hx : x.isFinite = true) (hlength : limits.length = none)
    (hdigits : 17 ≤ limits.digits) (hnesting : 1 ≤ limits.nesting) :
    (∀ c ∈ x.plainNumeral, c.isDigit = true ∨ c = '.' ∨ c = '-') ∧
    (∃ n : Numeral, tokens limits (String.ofList x.plainNumeral) =
      .ok (if x.isNegative then [⟨.minus, 0⟩, ⟨.number n, 1⟩] else [⟨.number n, 0⟩])) ∧
    ∃ e, parse limits (String.ofList x.plainNumeral) = .ok e ∧ e.eval = .ok x := by
  obtain ⟨n, hn⟩ := exists_spells_isNegative hx
  have hfits (length : Nat) : limits.checkLength length = .ok () := by
    unfold Limits.checkLength
    rw [hlength]
  have hscan := scan_ofNumeral x.isNegative hn.digits hn.whole_ne_nil
  rw [← hn.text] at hscan
  -- only a minus sign nests, and by one
  have hadmits : limits.Admits (Derivation.ofNumeral x.isNegative n).nesting := by
    cases x.isNegative with
    | false => exact .inl rfl
    | true => exact .inr hnesting
  refine ⟨mem_plainNumeral hx, ⟨n, ?_⟩, (Derivation.ofNumeral x.isNegative n).tree limits.numberValue, ?_, ?_⟩
  · rw [tokens_eq_ok_iff, String.toList_ofList, ← tokens_ofNumeral]
    exact ⟨hfits _, hscan⟩
  · refine parse_of_derivation (hfits _) ?_ (countable_of_digits (by omega) _) hadmits
    rw [String.toList_ofList]
    exact hscan
  · rw [eval_tree_ofNumeral, hn.value limits hdigits]

/-- The double next to zero on its negative side, the largest one and the negative zero are read back where just
seventeen digits are kept and one minus sign may be open. -/
theorem parse_plainNumeral_extremes :
    (∃ e, parse { digits := 17, nesting := 1 }
      (String.ofList (Double.finite true 1 (by decide +kernel)).plainNumeral) = .ok e ∧
      e.eval = .ok (.finite true 1 (by decide +kernel))) ∧
    (∃ e, parse { digits := 17, nesting := 1 }
      (String.ofList (Double.finite false (2 ^ 2098 - 2 ^ 2045) (by decide +kernel)).plainNumeral) = .ok e ∧
        e.eval = .ok (.finite false (2 ^ 2098 - 2 ^ 2045) (by decide +kernel))) ∧
    (∃ n : Numeral, tokens { digits := 17, nesting := 1 } "-0.0" = .ok [⟨.minus, 0⟩, ⟨.number n, 1⟩]) ∧
    ∃ e, parse { digits := 17, nesting := 1 } "-0.0" = .ok e ∧ e.eval = .ok (Double.zero true) :=
  ⟨(parse_plainNumeral rfl rfl (by decide) (by decide)).2.2, (parse_plainNumeral rfl rfl (by decide) (by decide)).2.2,
    (parse_plainNumeral (x := Double.zero true) rfl rfl (by decide) (by decide)).2⟩

/-! ## Formulas of one name -/

/-- A name is worth its value, or nothing if it has none. -/
theorem evaluate_of_isName {limits : Limits} {b : Bindings} {name : String} {y : Double}
    (hn : isName name.toList = true) (h : evaluate limits b name = .ok y) :
    ∃ x, b name = some x ∧ x.isNaN = y.isNaN ∧ (17 ≤ limits.digits → y = x) := by
  unfold evaluate at h
  rw [substitute_of_isName hn] at h
  cases hb : b name with
  | none =>
    rw [hb] at h
    obtain ⟨e, he, -⟩ := except_bind_ok h
    obtain ⟨c, cs, hc⟩ : ∃ c cs, name.toList = c :: cs := by
      cases hl : name.toList with
      | nil => rw [hl] at hn; cases hn
      | cons c cs => exact ⟨c, cs, rfl⟩
    rw [hc, isName, Bool.and_eq_true] at hn
    exact absurd he (parse_ne_ok_of_scan (by rw [hc]; exact scan_of_isNameStart hn.1 0 cs))
  | some x =>
    rw [hb] at h
    dsimp only at h
    refine ⟨x, rfl, ?_⟩
    cases hx : x.isNaN with
    | true =>
      rw [hx, if_pos rfl] at h
      cases h
      exact ⟨rfl, fun _ => (Double.eq_nan_of_isNaN hx).symm⟩
    | false =>
      rw [hx, if_neg Bool.false_ne_true] at h
      obtain ⟨e, he, hy⟩ := except_bind_ok h
      obtain ⟨hnan, hround⟩ := eval_of_parse_plainNumeral hx he hy
      exact ⟨hnan.symm, hround⟩

end Formula

end Stylesheet
