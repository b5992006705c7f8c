/-
Blank characters and the words between them. A text splits into its words: none is empty, none
holds a blank, and no character but blanks is lost.
-/

namespace Stylesheet.Text

/-- The characters that separate words: the Unicode spaces and separators, and the control
characters of line and field layout. -/
def isBlank (c : Char) : Bool :=
  let n := c.toNat
  (9 ≤ n && n ≤ 13) || (28 ≤ n && n ≤ 32) || n == 0x85 || n == 0xA0 || n == 0x1680 ||
    (0x2000 ≤ n && n ≤ 0x200A) || n == 0x2028 || n == 0x2029 || n == 0x202F || n == 0x205F ||
    n == 0x3000

/-- The text holds no character but blanks. -/
def allBlank (s : String) : Bool := s.toList.all isBlank

/-! ## Words -/

/-- The words of a text in front of which `word` is under way, its last character first. -/
def wordsFrom (word : List Char) : List Char → List (List Char)
  | [] => if word.isEmpty then [] else [word.reverse]
  | c :: rest =>
    if isBlank c then
      if word.isEmpty then wordsFrom [] rest else word.reverse :: wordsFrom [] rest
    else wordsFrom (c :: word) rest

/-- The words of a text, in order. -/
def words (s : List Char) : List (List Char) := wordsFrom [] s

theorem ne_nil_of_mem_wordsFrom {word s w : List Char} (h : w ∈ wordsFrom word s) : w ≠ [] := by
  induction s generalizing word with
  | nil =>
    cases word with
    | nil => cases h
    | cons c cs =>
      rw [List.mem_singleton.1 h]
      simp
  | cons c rest ih =>
    simp only [wordsFrom] at h
    split at h
    · cases word with
      | nil => exact ih h
      | cons d ds =>
        rcases List.mem_cons.1 h with rfl | h
        · simp
        · exact ih h
    · exact ih h

theorem isBlank_eq_false_of_mem_wordsFrom {word s w : List Char}
    (hw : ∀ c ∈ word, isBlank c = false) (h : w ∈ wordsFrom word s) :
    ∀ c ∈ w, isBlank c = false := by
  induction s generalizing word with
  | nil =>
    cases word with
    | nil => cases h
    | cons c cs =>
      rw [List.mem_singleton.1 h]
      exact fun d hd => hw d (List.mem_reverse.1 hd)
  | cons c rest ih =>
    simp only [wordsFrom] at h
    split at h
    · cases word with
      | nil => exact ih (by simp) h
      | cons d ds =>
        rcases List.mem_cons.1 h with rfl | h
        · exact fun e he => hw e (List.mem_reverse.1 he)
        · exact ih (by simp) h
    · rename_i hc
      refine ih (fun d hd => ?_) h
      rcases List.mem_cons.1 hd with rfl | hd
      · simpa using hc
      · exact hw d hd

theorem flatten_wordsFrom (word s : List Char) :
    (wordsFrom word s).flatten = word.reverse ++ s.filter (!isBlank ·) := by
  induction s generalizing word with
  | nil => cases word <;> simp [wordsFrom]
  | cons c rest ih =>
    by_cases hc : isBlank c
    · cases word <;> simp [wordsFrom, hc, ih]
    · simp [wordsFrom, hc, ih]

theorem ne_nil_of_mem_words {s w : List Char} (h : w ∈ words s) : w ≠ [] :=
  ne_nil_of_mem_wordsFrom h

theorem isBlank_eq_false_of_mem_words {s w : List Char} (h : w ∈ words s) :
    ∀ c ∈ w, isBlank c = false :=
  isBlank_eq_false_of_mem_wordsFrom (by simp) h

/-- Words lose nothing but blanks. -/
theorem flatten_words (s : List Char) : (words s).flatten = s.filter (!isBlank ·) := by
  simp [words, flatten_wordsFrom]

/-! ## Ends -/

/-- The text without the blanks at either end. -/
def trim (s : List Char) : List Char :=
  ((s.dropWhile isBlank).reverse.dropWhile isBlank).reverse

end Stylesheet.Text
