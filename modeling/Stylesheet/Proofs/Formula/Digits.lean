/-
Texts that differ in their digits. Read character by character, a text falls into tokens whose numbers begin where none
is under way, so what becomes of the characters behind a value depends on its minus sign and its point only. A value may
therefore give way to another one with the same sign if both have a point or neither has one; and where its name touches
no digit or point, in any case (`skeleton?_spliced`).
-/
import Stylesheet.Proofs.Formula.Scanning

namespace Stylesheet.Formula

open Stylesheet.Text (Numeral)

/-! ## Tokens without their digits -/

/-- One lexeme for all numbers. -/
def Lexeme.bare : Lexeme → Lexeme
  | number _ => number ⟨['0'], none⟩
  | lexeme => lexeme

/-- What is under way in front of a character: nothing, a number, or a number with a point. -/
inductive Mode
  | gap
  | whole
  | fraction
deriving DecidableEq, Repr

/-- What is under way behind a character, and the lexeme that begins with it, unless it is stray. -/
def Mode.next? (mode : Mode) (c : Char) : Option (Mode × List Lexeme) :=
  if c.isDigit then some (if mode = .gap then (.whole, [.number ⟨['0'], none⟩]) else (mode, []))
  else if c = '.' then if mode = .whole then some (.fraction, []) else none
  else if isSpace c then some (.gap, [])
  else (Lexeme.ofChar? c).map fun lexeme => (.gap, [lexeme])

/-- The lexemes of a text but for their digits, if no character is stray. -/
def skeleton? : Mode → List Char → Option (List Lexeme)
  | _, [] => some []
  | mode, c :: rest => (mode.next? c).bind fun p => (skeleton? p.1 rest).map (p.2 ++ ·)

section Skeleton

variable {mode next : Mode} {c : Char} {s rest : List Char} {ls : List Lexeme} {n : Numeral}

theorem skeleton?_cons (h : mode.next? c = some (next, ls)) (rest : List Char) :
    skeleton? mode (c :: rest) = (skeleton? next rest).map (ls ++ ·) := by
  rw [skeleton?, h]
  rfl

theorem skeleton?_cons_nil (h : mode.next? c = some (next, [])) (rest : List Char) :
    skeleton? mode (c :: rest) = skeleton? next rest := by
  rw [skeleton?_cons h]
  exact Option.map_id' 

theorem next?_gap_of_isDigit (h : c.isDigit = true) : Mode.gap.next? c = some (.whole, [.number ⟨['0'], none⟩]) := by
  rw [Mode.next?, if_pos h]
  rfl

theorem next?_of_isDigit (h : c.isDigit = true) (hmode : mode ≠ .gap) : mode.next? c = some (mode, []) := by
  rw [Mode.next?, if_pos h, if_neg hmode]

/-- Blanks, signs and brackets are not part of a number. -/
theorem not_part_of_gap (h : isSpace c = true ∨ ∃ lexeme, Lexeme.ofChar? c = some lexeme) :
    ¬ c.isDigit = true ∧ c ≠ '.' := by
  have htouches := Piece.touches_gap h (.name [])
  simp only [Piece.touches, Bool.or_eq_false_iff, beq_eq_false_iff_ne] at htouches
  simpa using htouches

theorem next?_of_isSpace (h : isSpace c = true) : mode.next? c = some (.gap, []) := by
  obtain ⟨hdigit, hpoint⟩ := not_part_of_gap (.inl h)
  rw [Mode.next?, if_neg hdigit, if_neg hpoint, if_pos h]

theorem next?_of_ofChar? {lexeme : Lexeme} (hs : ¬ isSpace c = true) (h : Lexeme.ofChar? c = some lexeme) :
    mode.next? c = some (.gap, [lexeme]) := by
  obtain ⟨hdigit, hpoint⟩ := not_part_of_gap (.inr ⟨lexeme, h⟩)
  rw [Mode.next?, if_neg hdigit, if_neg hpoint, if_neg hs, h]
  rfl

/-- A character that does not go on with a number is read as behind a gap. -/
theorem next?_of_not_continues (hdigit : c.isDigit = false) (hpoint : mode = .whole → c ≠ '.') :
    mode.next? c = Mode.gap.next? c := by
  have hd : ¬ c.isDigit = true := by simp [hdigit]
  rw [Mode.next?, Mode.next?, if_neg hd, if_neg hd]
  by_cases hc : c = '.'
  · rw [if_pos hc, if_pos hc, if_neg fun h => hpoint h hc]
    rfl
  · rw [if_neg hc, if_neg hc]

theorem continues_of_next? (h : mode.next? c = some (next, ls)) (hnext : next ≠ .gap) : c.isDigit = true ∨ c = '.' := by
  by_contra hc
  rw [not_or] at hc
  rw [Mode.next?, if_neg hc.1, if_neg hc.2] at h
  split at h
  · cases h
    exact hnext rfl
  · obtain ⟨lexeme, -, hlexeme⟩ := Option.map_eq_some_iff.1 h
    cases hlexeme
    exact hnext rfl

theorem skeleton?_of_head? (h : ∀ c ∈ s.head?, c.isDigit = false ∧ (mode = .whole → c ≠ '.')) :
    skeleton? mode s = skeleton? .gap s := by
  cases s with
  | nil => rfl
  | cons c rest =>
    obtain ⟨hdigit, hpoint⟩ := h c rfl
    rw [skeleton?, skeleton?, next?_of_not_continues hdigit hpoint]

theorem skeleton?_digits {digits : List Char} (hmode : mode ≠ .gap) (h : ∀ d ∈ digits, d.isDigit = true)
    (rest : List Char) : skeleton? mode (digits ++ rest) = skeleton? mode rest := by
  induction digits with
  | nil => rfl
  | cons d digits ih =>
    rw [List.cons_append, skeleton?_cons_nil (next?_of_isDigit (h d (List.mem_cons_self ..)) hmode)]
    exact ih fun e he => h e (List.mem_cons_of_mem _ he)

/-- A number goes on with the one that is under way, unless both have a point. -/
theorem skeleton?_text (hmode : mode ≠ .gap) (hdigits : ∀ d ∈ n.whole ++ n.places, d.isDigit = true)
    (rest : List Char) :
    skeleton? mode (n.text ++ rest) =
      if n.fraction.isSome then (if mode = .whole then skeleton? .fraction rest else none)
      else skeleton? mode rest := by
  obtain ⟨whole, fraction⟩ := n
  have hwhole : ∀ e ∈ whole, e.isDigit = true := fun e he => hdigits e (by simp [he])
  cases fraction with
  | none => exact skeleton?_digits hmode hwhole rest
  | some places =>
    have hplaces : ∀ e ∈ places, e.isDigit = true := fun e he => hdigits e (by simp [Numeral.places, he])
    show skeleton? mode (whole ++ '.' :: places ++ rest) = _
    rw [List.append_assoc, skeleton?_digits hmode hwhole, List.cons_append]
    cases mode with
    | gap => exact absurd rfl hmode
    | whole =>
      have hpoint : Mode.whole.next? '.' = some (.fraction, []) := rfl
      rw [skeleton?_cons_nil hpoint, skeleton?_digits (by decide) hplaces]
      rfl
    | fraction => rfl

/-- What is under way behind a number. -/
def Mode.behind (n : Numeral) : Mode := if n.fraction.isSome then .fraction else .whole

theorem skeleton?_numeral (hdigits : ∀ d ∈ n.whole ++ n.places, d.isDigit = true) (hwhole : n.whole ≠ [])
    (rest : List Char) :
    skeleton? .gap (n.text ++ rest) = (skeleton? (.behind n) rest).map ([.number ⟨['0'], none⟩] ++ ·) := by
  obtain ⟨whole, fraction⟩ := n
  obtain ⟨d, whole, rfl⟩ := List.exists_cons_of_ne_nil hwhole
  have hfirst : Mode.gap.next? d = some (.whole, [.number ⟨['0'], none⟩]) := next?_gap_of_isDigit (hdigits d (by simp))
  have htail : skeleton? .whole ((⟨whole, fraction⟩ : Numeral).text ++ rest) = _ :=
    skeleton?_text (by decide) (fun e he => hdigits e (List.mem_cons_of_mem _ he)) rest
  have hbehind : skeleton? (.behind ⟨d :: whole, fraction⟩) rest =
      skeleton? .whole ((⟨whole, fraction⟩ : Numeral).text ++ rest) := by
    rw [htail, Mode.behind]
    cases fraction <;> rfl
  rw [hbehind, ← skeleton?_cons hfirst]
  cases fraction <;> rfl

theorem Lexeme.bare_of_ofChar? {lexeme : Lexeme} (h : ofChar? c = some lexeme) : lexeme.bare = lexeme := by
  unfold ofChar? at h
  split at h <;> cases h <;> rfl

/-- The skeleton is that of the tokens that are scanned. -/
theorem map_bare_lexemes? (position : Nat) (s : List Char) :
    (lexemes? position s).map (List.map Lexeme.bare) = skeleton? .gap s := by
  induction position, s using scan.induct with
  | case1 position =>
    rw [lexemes?_nil]
    rfl
  | case2 position c rest hc ih => rw [lexemes?_space hc, ih, skeleton?_cons_nil (next?_of_isSpace hc)]
  | case3 position c rest hs lexeme hc ih =>
    rw [lexemes?_lexeme hs hc, skeleton?_cons (next?_of_ofChar? hs hc), ← ih, Option.map_map, Option.map_map]
    congr 1
    funext ls
    exact congrArg (· :: ls.map Lexeme.bare) (Lexeme.bare_of_ofChar? hc)
  | case4 position c rest hs hc n after hsplit _ ih =>
    obtain ⟨hdigits, hhead⟩ := Numeral.digits_of_split? hsplit
    have hafter : skeleton? (.behind n) after = skeleton? .gap after := by
      refine skeleton?_of_head? fun d hd => ⟨hhead d hd, fun hmode => ne_point_of_split? hsplit ?_ d hd⟩
      unfold Mode.behind at hmode
      split at hmode
      · cases hmode
      · simpa using ‹¬ n.fraction.isSome = true›
    rw [lexemes?_numeral hsplit, ← Numeral.text_append_of_split? hsplit,
      skeleton?_numeral hdigits (Numeral.whole_ne_nil_of_split? hsplit), hafter, ← ih, Option.map_map, Option.map_map]
    rfl
  | case5 position c rest hs hc hsplit =>
    have hdigit := isDigit_of_split?_eq_none hsplit
    rw [lexemes?_stray hs hc hdigit, skeleton?, Mode.next?, if_neg (by simp [hdigit]), if_neg hs, hc]
    split <;> rfl

end Skeleton

/-! ## Values in place of each other -/

section Value

variable {mode : Mode} {x y : Double} {negative : Bool} {n m : Numeral} {rest rest' : List Char}

/-- The text of a value has a point if its numeral has. -/
theorem Spells.contains_point (h : Spells x negative n) : x.plainNumeral.contains '.' = n.fraction.isSome := by
  have hdigits := h.digits
  have hsign : '.' ∉ (if negative then ['-'] else []) := by cases negative <;> decide
  rw [Bool.eq_iff_iff, List.contains_iff_mem, h.text, List.mem_append, or_iff_right hsign]
  obtain ⟨whole, fraction⟩ := n
  cases fraction with
  | some places => simp [Numeral.text]
  | none =>
    simp only [Numeral.text, Option.isSome_none, Bool.false_eq_true, iff_false]
    intro hpoint
    exact absurd (hdigits '.' (List.mem_append_left _ hpoint)) (by decide)

/-- Between gaps, a value is a number, behind a minus sign if it has one. -/
theorem skeleton?_value (h : Spells x negative n) (hrest : ∀ c ∈ rest.head?, c.isDigit = false ∧ c ≠ '.') :
    skeleton? .gap (x.plainNumeral ++ rest) =
      (skeleton? .gap rest).map ((if negative then [.minus] else []) ++ [.number ⟨['0'], none⟩] ++ ·) := by
  have hbehind : skeleton? (.behind n) rest = skeleton? .gap rest :=
    skeleton?_of_head? fun c hc => ⟨(hrest c hc).1, fun _ => (hrest c hc).2⟩
  have hnumeral := skeleton?_numeral h.digits h.whole_ne_nil rest
  rw [hbehind] at hnumeral
  rw [h.text]
  cases negative with
  | false => exact hnumeral
  | true =>
    show skeleton? .gap ('-' :: (n.text ++ rest)) = _
    rw [skeleton?_cons (next?_of_ofChar? (by decide) rfl), hnumeral, Option.map_map]
    rfl

/-- Anywhere, a value can give way to one that has its sign and a point if it has one. -/
theorem skeleton?_value_congr (hx : Spells x negative n) (hy : Spells y negative m)
    (hpoint : n.fraction.isSome = m.fraction.isSome)
    (hrest : ∀ mode : Mode, mode ≠ .gap → skeleton? mode rest = skeleton? mode rest') :
    skeleton? mode (x.plainNumeral ++ rest) = skeleton? mode (y.plainNumeral ++ rest') := by
  have hbehind : Mode.behind n = .behind m := by rw [Mode.behind, Mode.behind, hpoint]
  have hne : Mode.behind m ≠ .gap := by
    unfold Mode.behind
    split <;> decide
  have hgap : skeleton? .gap (n.text ++ rest) = skeleton? .gap (m.text ++ rest') := by
    rw [skeleton?_numeral hx.digits hx.whole_ne_nil, skeleton?_numeral hy.digits hy.whole_ne_nil, hbehind, hrest _ hne]
  rw [hx.text, hy.text]
  cases negative with
  | true =>
    show skeleton? mode ('-' :: (n.text ++ rest)) = skeleton? mode ('-' :: (m.text ++ rest'))
    have hminus : mode.next? '-' = some (.gap, [.minus]) := next?_of_ofChar? (by decide) rfl
    rw [skeleton?_cons hminus, skeleton?_cons hminus, hgap]
  | false =>
    show skeleton? mode (n.text ++ rest) = skeleton? mode (m.text ++ rest')
    by_cases hmode : mode = .gap
    · rw [hmode]
      exact hgap
    · rw [skeleton?_text hmode hx.digits, skeleton?_text hmode hy.digits, hpoint, hrest mode hmode,
        hrest .fraction (by decide)]

end Value

/-! ## Formulas with other values -/

/-- The text that stands for a name has a point. -/
def Piece.hasPoint (b : Bindings) : Piece → Bool
  | gap _ => false
  | name text => ((b (String.ofList text)).getD .nan).plainNumeral.contains '.'

/-- The same names are bound, to finite values of the same signs, whose texts agree in having a point where the name
touches a digit or a point. -/
structure Bindings.Alike (b b' : Bindings) (s : List Char) : Prop where
  bound : ∀ text, .name text ∈ pieces s → (b (String.ofList text)).isSome = (b' (String.ofList text)).isSome
  finite : ∀ text, .name text ∈ pieces s → ∀ x, b (String.ofList text) = some x ∨ b' (String.ofList text) = some x →
    x.isFinite = true
  signs : ∀ text, .name text ∈ pieces s → ∀ x y, b (String.ofList text) = some x → b' (String.ofList text) = some y →
    x.isNegative = y.isNegative
  points : (pieces s).IsChain fun p q => p.touches q = true →
    p.hasPoint b = p.hasPoint b' ∧ q.hasPoint b = q.hasPoint b'

section Alike

variable {b b' : Bindings} {mode : Mode} {c : Char} {s rest : List Char}

theorem Bindings.Alike.of_pieces {s' : List Char} (h : b.Alike b' s) (hs : (pieces s').IsSuffix (pieces s)) :
    b.Alike b' s' where
  bound text htext := h.bound text (hs.subset htext)
  finite text htext := h.finite text (hs.subset htext)
  signs text htext := h.signs text (hs.subset htext)
  points := h.points.suffix hs

theorem Bindings.Alike.of_gap (hc : ¬ isNameStart c = true) (h : b.Alike b' (c :: rest)) : b.Alike b' rest :=
  h.of_pieces (by rw [pieces_gap hc]; exact List.suffix_cons ..)

theorem Bindings.Alike.of_name (hc : isNameStart c = true) (h : b.Alike b' (c :: rest)) :
    b.Alike b' (rest.dropWhile isNameChar) :=
  h.of_pieces (by rw [pieces_name hc]; exact List.suffix_cons ..)

/-- Alike values make formulas that differ in their digits only. -/
theorem skeleton?_spliced (h : b.Alike b' s) (hb : b.Covers s)
    (hmode : mode ≠ .gap → ∀ p ∈ (pieces s).head?, p.hasPoint b = p.hasPoint b') :
    skeleton? mode (spliced b s) = skeleton? mode (spliced b' s) := by
  induction s using pieces.induct generalizing mode with
  | case1 =>
    rw [spliced, spliced, pieces]
    rfl
  | case2 c rest hc ih =>
    have hname : .name (c :: rest.takeWhile isNameChar) ∈ pieces (c :: rest) := by
      rw [pieces_name hc]
      exact List.mem_cons_self ..
    obtain ⟨⟨x, hx, hfinite⟩, hcovers⟩ := hb.of_name hc
    obtain ⟨y, hy⟩ : ∃ y, b' (String.ofList (c :: rest.takeWhile isNameChar)) = some y := by
      rw [← Option.isSome_iff_exists, ← h.bound _ hname, hx]
      rfl
    obtain ⟨n, hn⟩ := exists_spells_isNegative hfinite
    obtain ⟨m, hm⟩ := exists_spells_isNegative (h.finite _ hname y (.inr hy))
    rw [← h.signs _ hname x y hx hy] at hm
    have hbehind := not_continues_of_dropWhile rest
    have hpoints := h.points
    rw [pieces_name hc] at hpoints hmode
    rw [List.isChain_cons] at hpoints
    rw [spliced_name hc hx, spliced_name hc hy]
    by_cases hsame : n.fraction.isSome = m.fraction.isSome
    · refine skeleton?_value_congr hn hm hsame fun mode _ => ih (h.of_name hc) hcovers fun _ p hp => ?_
      cases p with
      | gap d => rfl
      | name text =>
        obtain ⟨d, hd, hstart⟩ := exists_of_name_mem_head? hp
        exact absurd hstart (hbehind d hd).1
    · -- the name touches nothing, so that its point does not matter
      have hdiffer : (Piece.name (c :: rest.takeWhile isNameChar)).hasPoint b ≠
          (Piece.name (c :: rest.takeWhile isNameChar)).hasPoint b' := by
        rwa [Piece.hasPoint, Piece.hasPoint, hx, hy, Option.getD_some, Option.getD_some,
          hn.contains_point, hm.contains_point]
      have hgap : mode = .gap := by
        by_contra hne
        exact hdiffer (hmode hne _ rfl)
      have hapart : ∀ d ∈ (rest.dropWhile isNameChar).head?, d.isDigit = false ∧ d ≠ '.' := by
        intro d hd
        refine ⟨(hbehind d hd).2, ?_⟩
        rintro rfl
        obtain ⟨tail, htail⟩ := List.head?_eq_some_iff.1 hd
        rw [htail, pieces_gap (by decide)] at hpoints
        exact hdiffer (hpoints.1 _ rfl rfl).1
      have hhead (b : Bindings) : ∀ d ∈ (spliced b (rest.dropWhile isNameChar)).head?, d.isDigit = false ∧ d ≠ '.' := by
        rw [head?_spliced fun d hd => (hbehind d hd).1]
        exact hapart
      rw [hgap, skeleton?_value hn (hhead b), skeleton?_value hm (hhead b'),
        ih (h.of_name hc) hcovers fun hne => absurd rfl hne]
  | case3 c rest hc ih =>
    rw [spliced_gap hc, spliced_gap hc, skeleton?, skeleton?]
    cases hnext : mode.next? c with
    | none => rfl
    | some p =>
      obtain ⟨next, ls⟩ := p
      have hrest : skeleton? next (spliced b rest) = skeleton? next (spliced b' rest) := by
        refine ih (h.of_gap hc) (hb.of_gaps [c] (by simpa using hc)) fun hne p hp => ?_
        cases p with
        | gap d => rfl
        | name text =>
          have hcontinues := continues_of_next? hnext hne
          have hpoints := h.points
          rw [pieces_gap hc, List.isChain_cons] at hpoints
          have htouches : (Piece.gap c).touches (.name text) = true := by simpa [Piece.touches] using hcontinues
          exact (hpoints.1 _ hp htouches).2
      rw [Option.bind_some, Option.bind_some, hrest]

end Alike

end Stylesheet.Formula
