/-
Formulas with names as operands. A formula with names falls into tokens and names (`scanNames`), and, whatever
it is, into names and the characters between them. With values in the place of its names (`spliced`), it is
what the parser gets to see.
-/
import Mathlib.Tactic
import Stylesheet.Proofs.Formula.Numeral

namespace Stylesheet.Formula

open Stylesheet.Text (Numeral)

/-! ## Tokens and names -/

/-- A token, or a name at its position. -/
inductive Symbol
  | token (t : Token)
  | name (text : List Char) (position : Nat)
deriving DecidableEq, Repr

/-- The tokens and names of a text that stands at `position`, or its first stray character. -/
def scanNames (position : Nat) (s : List Char) : Except (Char × Nat) (List Symbol) :=
  match s with
  | [] => .ok []
  | c :: rest =>
    if isSpace c then scanNames (position + 1) rest
    else match Lexeme.ofChar? c with
      | some lexeme => (scanNames (position + 1) rest).map (.token ⟨lexeme, position⟩ :: ·)
      | none =>
        if isNameStart c then
          (scanNames (position + 1 + (rest.takeWhile isNameChar).length) (rest.dropWhile isNameChar)).map
            (.name (c :: rest.takeWhile isNameChar) position :: ·)
        else match h : Numeral.split? Char.isDigit (c :: rest) with
          | some (numeral, after) =>
            have : after.length < rest.length + 1 := Numeral.length_lt_of_split? h
            (scanNames (position + numeral.text.length) after).map (.token ⟨.number numeral, position⟩ :: ·)
          | none => .error (c, position)
termination_by s.length
decreasing_by
  all_goals simp only [List.length_cons]
  · omega
  · omega
  · exact Nat.lt_succ_of_le (List.dropWhile_sublist _).length_le
  · omega

theorem ofChar?_of_isNameStart {c : Char} (h : isNameStart c = true) : isSpace c = false ∧ Lexeme.ofChar? c = none :=
  ofChar?_of_isNameChar (by rw [isNameChar, h, Bool.true_or])

/-- Blanks, signs and brackets start no name. -/
theorem not_isNameStart_of_isSpace {c : Char} (hc : isSpace c = true) : ¬ isNameStart c = true :=
  fun h => by simp [(ofChar?_of_isNameStart h).1] at hc

theorem not_isNameStart_of_ofChar? {c : Char} {lexeme : Lexeme} (hc : Lexeme.ofChar? c = some lexeme) :
    ¬ isNameStart c = true :=
  fun h => by simp [(ofChar?_of_isNameStart h).2] at hc

/-- No name starts within a numeral. -/
theorem not_isNameStart_of_split? {s after : List Char} {n : Numeral}
    (h : Numeral.split? Char.isDigit s = some (n, after)) : ∀ d ∈ n.text, ¬ isNameStart d = true := by
  intro d hd hstart
  rcases Numeral.mem_text hd with hd | rfl
  · simpa [isDigit_eq_false_of_isNameStart hstart] using (Numeral.digits_of_split? h).1 d hd
  · cases hstart

section Equations

variable {position : Nat} {c : Char} {rest : List Char}

theorem scan_space (hc : isSpace c = true) : scan position (c :: rest) = scan (position + 1) rest := by
  rw [scan, if_pos hc]

theorem scan_lexeme {lexeme : Lexeme} (hs : ¬ isSpace c = true) (hc : Lexeme.ofChar? c = some lexeme) :
    scan position (c :: rest) = (scan (position + 1) rest).map (⟨lexeme, position⟩ :: ·) := by
  rw [scan, if_neg hs, hc]

theorem scanNames_name (hc : isNameStart c = true) :
    scanNames position (c :: rest) =
      (scanNames (position + 1 + (rest.takeWhile isNameChar).length) (rest.dropWhile isNameChar)).map
        (.name (c :: rest.takeWhile isNameChar) position :: ·) := by
  obtain ⟨hs, hop⟩ := ofChar?_of_isNameStart hc
  rw [scanNames, if_neg (by rw [hs]; exact Bool.false_ne_true), hop]
  dsimp only
  rw [if_pos hc]

end Equations

/-! ## Values in the place of names -/

def Piece.splice (bindings : Bindings) : Piece → List Char
  | name text => ((bindings (String.ofList text)).getD .nan).plainNumeral
  | gap c => [c]

/-- The text of a formula with the value of every name in its place. -/
def spliced (bindings : Bindings) (s : List Char) : List Char := (pieces s).flatMap (Piece.splice bindings)

/-- Every name has a finite value. -/
def Bindings.Covers (bindings : Bindings) (s : List Char) : Prop :=
  ∀ text, .name text ∈ pieces s → ∃ x, bindings (String.ofList text) = some x ∧ x.isFinite = true

/-- Names whose values are known are replaced by them. -/
theorem substitute_of_known {b : Bindings} {formula : String}
    (h : ∀ text, .name text ∈ pieces formula.toList → ∃ x, b (String.ofList text) = some x ∧ x.isNaN = false) :
    substitute b formula = some (String.ofList (spliced b formula.toList)) := by
  have hnan : ∀ text, .name text ∈ pieces formula.toList → ∀ x, b (String.ofList text) = some x → x.isNaN = false := by
    intro text htext x hx
    obtain ⟨y, hy, hnan⟩ := h text htext
    rw [hx] at hy
    cases hy
    exact hnan
  rw [substitute_of_not_isNaN hnan, spliced, List.flatMap_congr fun p hp => ?_]
  cases p with
  | gap c => rfl
  | name text =>
    obtain ⟨x, hx, -⟩ := h text hp
    simp [Piece.written, Piece.splice, hx]

theorem substitute_of_covers {b : Bindings} {formula : String} (h : b.Covers formula.toList) :
    substitute b formula = some (String.ofList (spliced b formula.toList)) := by
  refine substitute_of_known fun text htext => ?_
  obtain ⟨x, hx, hfinite⟩ := h text htext
  exact ⟨x, hx, Double.isNaN_of_isFinite hfinite⟩

section Spliced

variable {b : Bindings} {c : Char} {s rest : List Char}

theorem pieces_gap (hc : ¬ isNameStart c = true) : pieces (c :: rest) = .gap c :: pieces rest := by
  rw [pieces, if_neg hc]

theorem pieces_name (hc : isNameStart c = true) :
    pieces (c :: rest) = .name (c :: rest.takeWhile isNameChar) :: pieces (rest.dropWhile isNameChar) := by
  rw [pieces, if_pos hc]

theorem pieces_append_gaps {gaps : List Char} (h : ∀ c ∈ gaps, ¬ isNameStart c = true) :
    pieces (gaps ++ s) = gaps.map .gap ++ pieces s := by
  induction gaps with
  | nil => rfl
  | cons c gaps ih =>
    rw [List.cons_append, pieces_gap (h c (List.mem_cons_self ..)), ih fun d hd => h d (List.mem_cons_of_mem _ hd)]
    rfl

theorem spliced_gap (hc : ¬ isNameStart c = true) : spliced b (c :: rest) = c :: spliced b rest := by
  rw [spliced, pieces_gap hc]
  rfl

theorem spliced_name {x : Double} (hc : isNameStart c = true)
    (hx : b (String.ofList (c :: rest.takeWhile isNameChar)) = some x) :
    spliced b (c :: rest) = x.plainNumeral ++ spliced b (rest.dropWhile isNameChar) := by
  rw [spliced, pieces_name hc, List.flatMap_cons, Piece.splice, hx]
  rfl

theorem spliced_append_gaps {gaps : List Char} (h : ∀ c ∈ gaps, ¬ isNameStart c = true) :
    spliced b (gaps ++ s) = gaps ++ spliced b s := by
  simp [spliced, pieces_append_gaps h, List.flatMap_map, Piece.splice]

theorem Bindings.Covers.of_gaps (gaps : List Char) (h : ∀ c ∈ gaps, ¬ isNameStart c = true)
    (hb : b.Covers (gaps ++ s)) :
    b.Covers s := by
  intro text htext
  exact hb text (by rw [pieces_append_gaps h]; exact List.mem_append_right _ htext)

theorem Bindings.Covers.of_name (hc : isNameStart c = true) (hb : b.Covers (c :: rest)) :
    (∃ x, b (String.ofList (c :: rest.takeWhile isNameChar)) = some x ∧ x.isFinite = true) ∧
      b.Covers (rest.dropWhile isNameChar) := by
  refine ⟨hb _ (by rw [pieces_name hc]; exact List.mem_cons_self ..), fun text htext => hb text ?_⟩
  rw [pieces_name hc]
  exact List.mem_cons_of_mem _ htext

end Spliced

theorem exists_isNameStart {s text : List Char} (h : .name text ∈ pieces s) : ∃ c ∈ text, isNameStart c = true := by
  induction s using pieces.induct with
  | case1 =>
    rw [pieces] at h
    cases h
  | case2 c rest hc ih =>
    rw [pieces_name hc] at h
    rcases List.mem_cons.1 h with h | h
    · cases h
      exact ⟨c, List.mem_cons_self .., hc⟩
    · exact ih h
  | case3 c rest hc ih =>
    rw [pieces_gap hc] at h
    rcases List.mem_cons.1 h with h | h
    · cases h
    · exact ih h

/-- The names that are scanned are the names of the formula. -/
theorem mem_pieces_of_scanNames {position : Nat} {s : List Char} {ss : List Symbol} (hs : scanNames position s = .ok ss)
    {text : List Char} {p : Nat} (hm : .name text p ∈ ss) : .name text ∈ pieces s := by
  fun_induction scanNames position s generalizing ss with
  | case1 =>
    cases hs
    cases hm
  | case2 position c rest hc ih =>
    rw [pieces_gap (not_isNameStart_of_isSpace hc)]
    exact List.mem_cons_of_mem _ (ih hs hm)
  | case3 position c rest hc lexeme hlexeme ih =>
    obtain ⟨us, hus, rfl⟩ := except_map_ok hs
    rw [pieces_gap (not_isNameStart_of_ofChar? hlexeme)]
    rcases List.mem_cons.1 hm with hm | hm
    · cases hm
    · exact List.mem_cons_of_mem _ (ih hus hm)
  | case4 position c rest hc hlexeme hname ih =>
    obtain ⟨us, hus, rfl⟩ := except_map_ok hs
    rw [pieces_name hname]
    rcases List.mem_cons.1 hm with hm | hm
    · cases hm
      exact List.mem_cons_self ..
    · exact List.mem_cons_of_mem _ (ih hus hm)
  | case5 position c rest hc hlexeme hname n after hsplit _ ih =>
    obtain ⟨us, hus, rfl⟩ := except_map_ok hs
    rw [← Numeral.text_append_of_split? hsplit, pieces_append_gaps (not_isNameStart_of_split? hsplit)]
    rcases List.mem_cons.1 hm with hm | hm
    · cases hm
    · exact List.mem_append_right _ (ih hus hm)
  | case6 => cases hs

end Stylesheet.Formula
