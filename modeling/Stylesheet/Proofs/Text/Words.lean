/-
Words and digits that are read back. Words joined by single blanks fall apart into the same words, and
the decimal digits of a whole number are split off as one numeral, with the number as its value.
-/
import Mathlib.Tactic
import Stylesheet.Proofs.Formula.Numeral
import Stylesheet.Text.Blank

namespace Stylesheet.Text

/-! ## Words -/

theorem wordsFrom_append {word w rest : List Char} (hw : ∀ c ∈ w, isBlank c = false) :
    wordsFrom word (w ++ rest) = wordsFrom (w.reverse ++ word) rest := by
  induction w generalizing word with
  | nil => rfl
  | cons c cs ih =>
    have hc : isBlank c = false := hw c (List.mem_cons_self ..)
    rw [List.cons_append, wordsFrom, if_neg (by rw [hc]; exact Bool.false_ne_true),
      ih fun d hd => hw d (List.mem_cons_of_mem _ hd), List.reverse_cons, List.append_assoc, List.singleton_append]

theorem words_of_not_blank {w : List Char} (hne : w ≠ []) (hw : ∀ c ∈ w, isBlank c = false) : words w = [w] := by
  have happend : wordsFrom [] (w ++ []) = wordsFrom (w.reverse ++ []) [] := wordsFrom_append hw
  rw [List.append_nil, List.append_nil] at happend
  rw [words, happend, wordsFrom, if_neg (by simpa using hne), List.reverse_reverse]

theorem wordsFrom_append_blank (word front : List Char) {b : Char} (hb : isBlank b = true) (back : List Char) :
    wordsFrom word (front ++ b :: back) = wordsFrom word front ++ words back := by
  induction front generalizing word with
  | nil => cases word <;> simp [wordsFrom, words, hb]
  | cons c front ih =>
    simp only [List.cons_append, wordsFrom]
    split
    · split
      · exact ih []
      · rw [ih [], List.cons_append]
    · exact ih (c :: word)

/-- A blank divides a text: its words are those in front of the blank, and then those behind it. -/
theorem words_append_blank (front : List Char) {b : Char} (hb : isBlank b = true) (back : List Char) :
    words (front ++ b :: back) = words front ++ words back :=
  wordsFrom_append_blank [] front hb back

/-- Words that are joined by a blank are the words of the text. -/
theorem words_intercalate {b : Char} (hb : isBlank b = true) {ws : List (List Char)}
    (h : ∀ w ∈ ws, w ≠ [] ∧ ∀ c ∈ w, isBlank c = false) : words ([b].intercalate ws) = ws := by
  induction ws with
  | nil => rfl
  | cons w rest ih =>
    obtain ⟨hne, hw⟩ := h w (List.mem_cons_self ..)
    cases rest with
    | nil => rw [List.intercalate_singleton, words_of_not_blank hne hw]
    | cons w' rest =>
      rw [List.intercalate_cons_cons, List.append_assoc, List.singleton_append, words_append_blank w hb,
        words_of_not_blank hne hw, ih fun v hv => h v (List.mem_cons_of_mem _ hv), List.singleton_append]

/-- Every character of a word is one of the text. -/
theorem mem_of_mem_words {s w : List Char} (hw : w ∈ words s) {c : Char} (hc : c ∈ w) : c ∈ s := by
  have hflat : c ∈ (words s).flatten := List.mem_flatten.2 ⟨w, hw, hc⟩
  rw [flatten_words] at hflat
  exact List.mem_of_mem_filter hflat

/-- A text has words unless it is blank. -/
theorem words_ne_nil_iff {s : List Char} : words s ≠ [] ↔ ∃ c ∈ s, isBlank c = false := by
  constructor
  · intro h
    obtain ⟨w, hw⟩ := List.exists_mem_of_ne_nil _ h
    obtain ⟨c, hc⟩ := List.exists_mem_of_ne_nil _ (ne_nil_of_mem_words hw)
    exact ⟨c, mem_of_mem_words hw hc, isBlank_eq_false_of_mem_words hw c hc⟩
  · rintro ⟨c, hc, hblank⟩ h
    have hflat := flatten_words s
    rw [h, List.flatten_nil] at hflat
    exact List.filter_eq_nil_iff.1 hflat.symm c hc (by rw [hblank]; rfl)

/-- A blank stands between two characters that are none. -/
def Divided (s : List Char) : Prop := ∃ front b back, s = front ++ b :: back ∧ isBlank b = true ∧
  (∃ c ∈ front, isBlank c = false) ∧ ∃ c ∈ back, isBlank c = false

theorem exists_blank_of_wordsFrom {word s : List Char} (h : 1 < (wordsFrom word s).length) :
    ∃ front b back, s = front ++ b :: back ∧ isBlank b = true ∧ (word ≠ [] ∨ ∃ c ∈ front, isBlank c = false) ∧
      ∃ c ∈ back, isBlank c = false := by
  induction s generalizing word with
  | nil =>
    rw [wordsFrom] at h
    split at h <;> simp at h
  | cons c rest ih =>
    rw [wordsFrom] at h
    split at h
    · rename_i hc
      split at h
      · rename_i hword
        obtain ⟨front, b, back, rfl, hb, hfront, hback⟩ := ih h
        obtain ⟨d, hd⟩ := hfront.resolve_left fun hne => hne rfl
        exact ⟨c :: front, b, back, rfl, hb, .inr ⟨d, List.mem_cons_of_mem _ hd.1, hd.2⟩, hback⟩
      -- the blank ends the word that is under way, and another one follows
      · rename_i hword
        have hrest : words rest ≠ [] := by
          intro hnil
          rw [List.length_cons, show wordsFrom [] rest = [] from hnil] at h
          exact absurd h (by decide)
        exact ⟨[], c, rest, rfl, hc, .inl (by simpa using hword), words_ne_nil_iff.1 hrest⟩
    · rename_i hc
      obtain ⟨front, b, back, rfl, hb, -, hback⟩ := ih h
      exact ⟨c :: front, b, back, rfl, hb, .inr ⟨c, List.mem_cons_self .., by simpa using hc⟩, hback⟩

/-- A text has several words exactly if a blank divides it. -/
theorem one_lt_length_words_iff {s : List Char} : 1 < (words s).length ↔ Divided s := by
  constructor
  · intro h
    obtain ⟨front, b, back, hs, hb, hfront, hback⟩ := exists_blank_of_wordsFrom h
    exact ⟨front, b, back, hs, hb, hfront.resolve_left fun hne => hne rfl, hback⟩
  · rintro ⟨front, b, back, rfl, hb, hfront, hback⟩
    have hlfront := List.length_pos_iff.2 (words_ne_nil_iff.2 hfront)
    have hlback := List.length_pos_iff.2 (words_ne_nil_iff.2 hback)
    rw [words_append_blank front hb, List.length_append]
    omega

/-- There is nothing to trim of a word. -/
theorem trim_of_not_blank {w : List Char} (hw : ∀ c ∈ w, isBlank c = false) : trim w = w := by
  have hdrop {v : List Char} (hv : ∀ c ∈ v, isBlank c = false) : v.dropWhile isBlank = v := by
    refine List.dropWhile_eq_self_iff.2 fun hl => ?_
    rw [hv _ (List.getElem_mem hl)]
    exact Bool.false_ne_true
  rw [trim, hdrop hw, hdrop fun c hc => hw c (List.mem_reverse.1 hc), List.reverse_reverse]

/-! ## Digits -/

/-- An ASCII digit is a digit of its own value. -/
theorem isDigit_of_ascii {c : Char} (h : c.isDigit = true) : isDigit c = true ∧ toAsciiDigit c = c := by
  obtain ⟨hlow, hhigh⟩ : 48 ≤ c.toNat ∧ c.toNat ≤ 57 := Char.isDigit_iff_toNat.1 h
  have hvalue : digitValue? c = some (c.toNat - 48) := by
    unfold digitValue? digitZeros
    rw [List.find?_cons_of_pos (by simpa using ⟨hlow, by omega⟩)]
    rfl
  have hback : ∀ n, 48 ≤ n → n ≤ 57 → (n - 48).digitChar = Char.ofNat n := by decide
  unfold isDigit toAsciiDigit
  rw [hvalue]
  exact ⟨rfl, (hback _ hlow hhigh).trans (Char.ofNat_toNat c)⟩

/-- A digit of any script has the value of an ASCII digit. -/
theorem isDigit_toAsciiDigit {c : Char} (h : isDigit c = true) : (toAsciiDigit c).isDigit = true := by
  obtain ⟨value, hvalue⟩ := Option.isSome_iff_exists.1 h
  rw [toAsciiDigit, hvalue]
  obtain ⟨first, hfirst, rfl⟩ := Option.map_eq_some_iff.1 hvalue
  have hrange := List.find?_some hfirst
  simp only [Bool.and_eq_true, decide_eq_true_eq] at hrange
  have hdigit : ∀ n < 10, (Nat.digitChar n).isDigit = true := by decide
  exact hdigit _ (by omega)

/-- Digits behind a number of `k` places make a number of as many places more. -/
theorem ofDigitChars_lt {digits : List Char} (h : ∀ d ∈ digits, d.isDigit = true) {n k : Nat} (hn : n < 10 ^ k) :
    Nat.ofDigitChars 10 digits n < 10 ^ (k + digits.length) := by
  induction digits generalizing n k with
  | nil => exact hn
  | cons d digits ih =>
    have hd : 48 ≤ d.toNat ∧ d.toNat ≤ 57 := Char.isDigit_iff_toNat.1 (h d (List.mem_cons_self ..))
    have hstep : 10 * n + (d.toNat - '0'.toNat) < 10 ^ (k + 1) := by
      show 10 * n + (d.toNat - 48) < _
      rw [pow_succ]
      omega
    rw [Nat.ofDigitChars_cons, List.length_cons, Nat.add_comm digits.length, ← Nat.add_assoc]
    exact ih (fun c hc => h c (List.mem_cons_of_mem _ hc)) hstep

theorem isBlank_of_isDigit {c : Char} (h : c.isDigit = true) : isBlank c = false := by
  obtain ⟨hlow, hhigh⟩ : 48 ≤ c.toNat ∧ c.toNat ≤ 57 := Char.isDigit_iff_toNat.1 h
  simp [isBlank]
  omega

/-- The digits of a whole number, followed by none and no point, are split off as one numeral. -/
theorem split?_toDigits (n : Nat) {rest : List Char} (hrest : ∀ c ∈ rest.head?, isDigit c = false ∧ c ≠ '.') :
    Numeral.split? isDigit (Nat.toDigits 10 n ++ rest) = some (⟨Nat.toDigits 10 n, none⟩, rest) := by
  refine Numeral.split?_text_append (n := ⟨Nat.toDigits 10 n, none⟩) (by decide) ?_ Nat.toDigits_ne_nil hrest
  intro d hd
  rw [Numeral.places, Option.getD_none, List.append_nil] at hd
  exact (isDigit_of_ascii (Nat.isDigit_of_mem_toDigits (by decide) (by decide) hd)).1

/-- ASCII digits count as they are. -/
theorem toDouble_of_ascii {n : Numeral} (h : ∀ d ∈ n.whole ++ n.places, d.isDigit = true) :
    n.toDouble = Double.ofDigits n.whole n.places := by
  have hmap (digits : List Char) (hd : ∀ d ∈ digits, d.isDigit = true) : digits.map toAsciiDigit = digits :=
    (List.map_congr_left fun d hmem => (isDigit_of_ascii (hd d hmem)).2).trans (List.map_id _)
  rw [Numeral.toDouble, hmap _ fun d hd => h d (List.mem_append_left _ hd),
    hmap _ fun d hd => h d (List.mem_append_right _ hd)]

theorem toDouble_toDigits (n : Nat) : Numeral.toDouble ⟨Nat.toDigits 10 n, none⟩ = Double.ofRatio false n 1 := by
  rw [toDouble_of_ascii (by simpa [Numeral.places] using fun d => Nat.isDigit_of_mem_toDigits (by decide) (by decide))]
  show Double.ofRatio false (Nat.ofDigitChars 10 (Nat.toDigits 10 n ++ []) 0) 1 = _
  rw [List.append_nil, Nat.ofDigitChars_ten_toDigits]

end Stylesheet.Text
