/-
Scanning a formula with the values of its names. Where no name touches a digit or a point, the text falls into
the tokens of the formula, with one number in the place of each name, behind a minus sign if the value has one;
and it has a stray character where the formula has (`lexemes?_spliced`).
-/
import Mathlib.Tactic
import Stylesheet.Proofs.Formula.Names

namespace Stylesheet.Formula

open Stylesheet.Text (Numeral)

/-! ## Scanning the values -/

/-- The text has these lexemes, wherever it stands. -/
def Scans (s : List Char) (ls : List Lexeme) : Prop :=
  ∀ position, ∃ ts, scan position s = .ok ts ∧ ts.map (·.lexeme) = ls

/-- The lexemes of a text, if no character of it is stray. -/
def lexemes? (position : Nat) (s : List Char) : Option (List Lexeme) :=
  (scan position s).toOption.map fun ts => ts.map (·.lexeme)

section Lexemes

variable {position : Nat} {c : Char} {s rest after : List Char}

theorem lexemes?_eq_some_iff {ls : List Lexeme} :
    lexemes? position s = some ls ↔ ∃ ts, scan position s = .ok ts ∧ ts.map (·.lexeme) = ls := by
  unfold lexemes?
  cases scan position s with
  | error e => simp [Except.toOption]
  | ok ts => simp [Except.toOption]

theorem lexemes?_nil : lexemes? position [] = some [] := by
  rw [lexemes?, scan]
  rfl

theorem lexemes?_space (hc : isSpace c = true) : lexemes? position (c :: rest) = lexemes? (position + 1) rest := by
  rw [lexemes?, scan_space hc]
  rfl

theorem lexemes?_lexeme {lexeme : Lexeme} (hs : ¬ isSpace c = true) (hc : Lexeme.ofChar? c = some lexeme) :
    lexemes? position (c :: rest) = (lexemes? (position + 1) rest).map (lexeme :: ·) := by
  rw [lexemes?, lexemes?, scan_lexeme hs hc]
  cases scan (position + 1) rest <;> rfl

theorem lexemes?_numeral {n : Numeral} (h : Numeral.split? Char.isDigit s = some (n, after)) :
    lexemes? position s = (lexemes? (position + n.text.length) after).map (.number n :: ·) := by
  rw [lexemes?, lexemes?, scan_of_split? h]
  cases scan (position + n.text.length) after <;> rfl

theorem isDigit_of_split?_eq_none (h : Numeral.split? Char.isDigit (c :: rest) = none) : c.isDigit = false := by
  by_contra hd
  rw [Numeral.split?, List.takeWhile_cons_of_pos (by simpa using hd)] at h
  split at h
  · rename_i hnil; cases hnil
  · split at h <;> cases h

theorem lexemes?_stray (hs : ¬ isSpace c = true) (hc : Lexeme.ofChar? c = none) (hd : c.isDigit = false) :
    lexemes? position (c :: rest) = none := by
  rw [lexemes?, scan_of_not_isDigit hs hc hd]
  rfl

end Lexemes

/-- The lexemes of the text of a value. -/
def valueLexemes (x : Double) : List Lexeme :=
  match scan 0 x.plainNumeral with
  | .ok ts => ts.map (·.lexeme)
  | .error _ => []

/-- A value is read as what it spells, unless the text behind it goes on with its digits. -/
theorem lexemes?_value {x : Double} {negative : Bool} {n : Numeral} (h : Spells x negative n) (rest : List Char)
    (hrest : ∀ c ∈ rest.head?, c.isDigit = false ∧ c ≠ '.') (position : Nat) :
    ∃ position', lexemes? position (x.plainNumeral ++ rest) =
      (lexemes? position' rest).map fun ls => (if negative then [.minus] else []) ++ .number n :: ls := by
  have hsplit : Numeral.split? Char.isDigit (n.text ++ rest) = some (n, rest) :=
    Numeral.split?_text_append (by decide) h.digits h.whole_ne_nil hrest
  rw [h.text]
  cases negative with
  | false => exact ⟨_, lexemes?_numeral hsplit⟩
  | true =>
    refine ⟨position + 1 + n.text.length, ?_⟩
    show lexemes? position ('-' :: (n.text ++ rest)) = _
    rw [lexemes?_lexeme (by decide) rfl, lexemes?_numeral hsplit, Option.map_map]
    rfl

theorem valueLexemes_of_spells {x : Double} {negative : Bool} {n : Numeral} (h : Spells x negative n) :
    valueLexemes x = (if negative then [.minus] else []) ++ [.number n] := by
  obtain ⟨position, hls⟩ := lexemes?_value h [] (by simp) 0
  rw [List.append_nil, lexemes?_nil] at hls
  obtain ⟨ts, hts, hls⟩ := lexemes?_eq_some_iff.1 hls
  rw [valueLexemes, hts]
  exact hls

/-! ## Names that touch nothing -/

/-- A value in the place of the name would go on with the digits beside it. -/
def Piece.touches : Piece → Piece → Bool
  | gap c, name _ => c.isDigit || c == '.'
  | name _, gap c => c == '.'
  | _, _ => false

/-- No name touches a number or a point. -/
def Untouched (s : List Char) : Prop := (pieces s).IsChain fun p q => p.touches q = false

/-- Blanks, signs and brackets touch nothing. -/
theorem Piece.touches_gap {c : Char} (hc : isSpace c = true ∨ ∃ lexeme, Lexeme.ofChar? c = some lexeme) (p : Piece) :
    (gap c).touches p = false := by
  cases p with
  | gap d => rfl
  | name text =>
    have hdigit : c.isDigit = false := by
      by_contra hd
      obtain ⟨hs, hop⟩ := ofChar?_of_isNameChar (c := c) (by simp [isNameChar, hd])
      simp [hs, hop] at hc
    have hpoint : c ≠ '.' := by
      rintro rfl
      rcases hc with hc | ⟨lexeme, hc⟩ <;> cases hc
    simp [touches, hdigit, hpoint]

section Untouched

variable {b : Bindings} {c : Char} {s rest after : List Char}

theorem Untouched.of_gaps (gaps : List Char) (h : ∀ c ∈ gaps, ¬ isNameStart c = true) (hs : Untouched (gaps ++ s)) :
    Untouched s := by
  unfold Untouched at hs
  rw [pieces_append_gaps h] at hs
  exact hs.right_of_append

theorem Untouched.of_name (hc : isNameStart c = true) (hs : Untouched (c :: rest)) :
    Untouched (rest.dropWhile isNameChar) := by
  unfold Untouched at hs
  rw [pieces_name hc] at hs
  exact hs.tail

/-- What follows a name starts no name and is no digit. -/
theorem not_continues_of_dropWhile (rest : List Char) :
    ∀ d ∈ (rest.dropWhile isNameChar).head?, ¬ isNameStart d = true ∧ d.isDigit = false := by
  intro d hd
  have hchar := Text.head?_dropWhile isNameChar rest d hd
  rw [isNameChar, Bool.or_eq_false_iff] at hchar
  exact ⟨by simp [hchar.1], hchar.2⟩

/-- What follows a name does not go on with the digits of its value. -/
theorem Untouched.next_of_name (hc : isNameStart c = true) (hs : Untouched (c :: rest)) :
    ∀ d ∈ (rest.dropWhile isNameChar).head?, ¬ isNameStart d = true ∧ d.isDigit = false ∧ d ≠ '.' := by
  intro d hd
  obtain ⟨hstart, hdigit⟩ := not_continues_of_dropWhile rest d hd
  refine ⟨hstart, hdigit, ?_⟩
  obtain ⟨tail, htail⟩ : ∃ tail, rest.dropWhile isNameChar = d :: tail := List.head?_eq_some_iff.1 hd
  unfold Untouched at hs
  rw [pieces_name hc, htail, pieces_gap hstart] at hs
  simpa [Piece.touches] using (List.isChain_cons_cons.1 hs).1

/-- Behind a numeral without a point, there is none. -/
theorem ne_point_of_split? {n : Numeral} (h : Numeral.split? Char.isDigit s = some (n, after))
    (hfraction : n.fraction = none) :
    ∀ d ∈ after.head?, d ≠ '.' := by
  intro d hd
  unfold Numeral.split? at h
  split at h
  · cases h
  · split at h
    · cases h
      cases hfraction
    · rename_i hpoint
      cases h
      rintro rfl
      obtain ⟨tail, htail⟩ := List.head?_eq_some_iff.1 hd
      exact hpoint tail htail

/-- Only the first character behind a numeral matters to where it ends. -/
theorem split?_of_head? {n : Numeral} {other : List Char} (h : Numeral.split? Char.isDigit s = some (n, after))
    (hother : other.head? = after.head?) : Numeral.split? Char.isDigit (n.text ++ other) = some (n, other) := by
  obtain ⟨hdigits, hhead⟩ := Numeral.digits_of_split? h
  refine Numeral.split?_text_append_of_head (by decide) hdigits (Numeral.whole_ne_nil_of_split? h) ?_ ?_
  · rwa [hother]
  · rw [hother]
    exact ne_point_of_split? h

/-- What follows a numeral is no name. -/
theorem Untouched.next_of_numeral {n : Numeral} (h : Numeral.split? Char.isDigit s = some (n, after))
    (hs : Untouched s) :
    ∀ d ∈ after.head?, ¬ isNameStart d = true := by
  intro d hd hstart
  obtain ⟨tail, rfl⟩ := List.head?_eq_some_iff.1 hd
  unfold Untouched at hs
  rw [← Numeral.text_append_of_split? h, pieces_append_gaps (not_isNameStart_of_split? h), pieces_name hstart] at hs
  obtain ⟨digits, e, htext⟩ :=
    (List.eq_nil_or_concat' n.text).resolve_left (Numeral.text_ne_nil (Numeral.whole_ne_nil_of_split? h))
  have he : e ∈ n.whole ++ n.places ∨ e = '.' := Numeral.mem_text (by rw [htext]; simp)
  rw [htext, List.map_append, List.map_singleton] at hs
  have htouches : (Piece.gap e).touches (.name (d :: tail.takeWhile isNameChar)) = false :=
    (List.isChain_append.1 hs).2.2 _ (by simp) _ rfl
  rcases he with he | rfl
  · simp [Piece.touches, (Numeral.digits_of_split? h).1 e he] at htouches
  · cases htouches

theorem head?_of_gap_mem_head? {d : Char} (h : .gap d ∈ (pieces s).head?) : s.head? = some d := by
  cases s with
  | nil => rw [pieces] at h; cases h
  | cons c rest =>
    rw [pieces] at h
    split at h <;> cases h
    rfl

theorem exists_of_name_mem_head? {text : List Char} (h : .name text ∈ (pieces s).head?) :
    ∃ d ∈ s.head?, isNameStart d = true := by
  cases s with
  | nil => rw [pieces] at h; cases h
  | cons c rest =>
    rw [pieces] at h
    split at h <;> cases h
    exact ⟨c, rfl, by assumption⟩

theorem head?_spliced (h : ∀ d ∈ s.head?, ¬ isNameStart d = true) : (spliced b s).head? = s.head? := by
  cases s with
  | nil => rw [spliced, pieces]; rfl
  | cons c rest => rw [spliced_gap (h c rfl)]; rfl

end Untouched

/-! ## Scanning a formula with its values -/

namespace Symbol

/-- The lexemes in the place of a symbol. -/
def lexemes (bindings : Bindings) : Symbol → List Lexeme
  | token t => [t.lexeme]
  | name text _ => valueLexemes ((bindings (String.ofList text)).getD .nan)

/-- An operand may end with this symbol. -/
def endsOperand : Symbol → Bool
  | token ⟨.number _, _⟩ => true
  | token ⟨.closeBracket, _⟩ => true
  | token _ => false
  | name .. => true

/-- No name follows on an operand. -/
def Parted (s t : Symbol) : Prop := s.endsOperand = true → ∀ text position, t ≠ name text position

/-- No name follows on a number. -/
def Apart : Symbol → Symbol → Prop
  | token ⟨.number _, _⟩, name .. => False
  | _, _ => True

end Symbol

theorem scanNames_point (position : Nat) (rest : List Char) :
    scanNames position ('.' :: rest) = .error ('.', position) := by
  rw [scanNames]
  rfl

/-- The values are read in the place of the names, and everything else as it is in the formula. -/
theorem lexemes?_spliced {b : Bindings} (position : Nat) {s : List Char} (hs : Untouched s) (hb : b.Covers s)
    (position' : Nat) : lexemes? position' (spliced b s) =
      (scanNames position s).toOption.map fun ss => ss.flatMap (Symbol.lexemes b) := by
  fun_induction scanNames position s generalizing position' with
  | case1 =>
    rw [spliced, pieces]
    exact lexemes?_nil
  | case2 position c rest hc ih =>
    have hgap : ¬ isNameStart c = true := not_isNameStart_of_isSpace hc
    have hgaps : ∀ d ∈ [c], ¬ isNameStart d = true := by simpa using hgap
    rw [spliced_gap hgap, lexemes?_space hc, ih (hs.of_gaps [c] hgaps) (hb.of_gaps [c] hgaps)]
  | case3 position c rest hc lexeme hlexeme ih =>
    have hgap : ¬ isNameStart c = true := not_isNameStart_of_ofChar? hlexeme
    have hgaps : ∀ d ∈ [c], ¬ isNameStart d = true := by simpa using hgap
    rw [spliced_gap hgap, lexemes?_lexeme hc hlexeme, ih (hs.of_gaps [c] hgaps) (hb.of_gaps [c] hgaps)]
    cases scanNames (position + 1) rest <;> rfl
  | case4 position c rest hc hlexeme hname ih =>
    obtain ⟨⟨x, hx, hfinite⟩, hrest⟩ := hb.of_name hname
    obtain ⟨negative, n, hspells⟩ := exists_spells hfinite
    have hnext := hs.next_of_name hname
    obtain ⟨position'', hvalue⟩ := lexemes?_value hspells (spliced b (rest.dropWhile isNameChar))
      (by rw [head?_spliced fun d hd => (hnext d hd).1]; exact fun d hd => (hnext d hd).2) position'
    rw [spliced_name hname hx, hvalue, ih (hs.of_name hname) hrest]
    cases scanNames (position + 1 + (rest.takeWhile isNameChar).length) (rest.dropWhile isNameChar) with
    | error e => rfl
    | ok ss =>
      simp only [Except.toOption, Except.map, Option.map_some, List.flatMap_cons, Symbol.lexemes, hx, Option.getD_some,
        valueLexemes_of_spells hspells, List.append_assoc, List.singleton_append]
  | case5 position c rest hc hlexeme hname n after hsplit _ ih =>
    have hgaps := not_isNameStart_of_split? hsplit
    have htext := Numeral.text_append_of_split? hsplit
    have hafter := hs.next_of_numeral hsplit
    rw [← htext] at hs hb
    rw [← htext, spliced_append_gaps hgaps, lexemes?_numeral (split?_of_head? hsplit (head?_spliced hafter)),
      ih (hs.of_gaps n.text hgaps) (hb.of_gaps n.text hgaps)]
    cases scanNames (position + n.text.length) after <;> rfl
  | case6 position c rest hc hlexeme hname hsplit =>
    rw [spliced_gap hname]
    exact lexemes?_stray hc hlexeme (isDigit_of_split?_eq_none hsplit)

/-- Where a number keeps apart from what follows, no name does follow. -/
theorem not_isNameStart_of_apart {t : Token} {n : Numeral} {position : Nat} {s : List Char} {ss : List Symbol}
    (hs : scanNames position s = .ok ss) (ht : t.lexeme = .number n) (h : (.token t :: ss).IsChain Symbol.Apart) :
    ∀ c ∈ s.head?, ¬ isNameStart c = true := by
  intro c hc hstart
  cases s with
  | nil => cases hc
  | cons d rest =>
    obtain rfl : d = c := Option.some.inj hc
    rw [scanNames_name hstart] at hs
    obtain ⟨us, -, rfl⟩ := except_map_ok hs
    obtain ⟨lexeme, position'⟩ := t
    obtain rfl : lexeme = .number n := ht
    exact (List.isChain_cons_cons.1 h).1

/-- Where numbers keep apart from what follows, no name touches them. -/
theorem untouched_of_apart {position : Nat} {s : List Char} {ss : List Symbol}
    (hs : scanNames position s = .ok ss) (hapart : ss.IsChain Symbol.Apart) : Untouched s := by
  unfold Untouched
  fun_induction scanNames position s generalizing ss with
  | case1 =>
    rw [pieces]
    exact .nil
  | case2 position c rest hc ih =>
    rw [pieces_gap (not_isNameStart_of_isSpace hc), List.isChain_cons]
    exact ⟨fun p _ => Piece.touches_gap (.inl hc) p, ih hs hapart⟩
  | case3 position c rest hc lexeme hlexeme ih =>
    obtain ⟨ts, hts, rfl⟩ := except_map_ok hs
    rw [pieces_gap (not_isNameStart_of_ofChar? hlexeme), List.isChain_cons]
    exact ⟨fun p _ => Piece.touches_gap (.inr ⟨lexeme, hlexeme⟩) p, ih hts hapart.tail⟩
  | case4 position c rest hc hlexeme hname ih =>
    obtain ⟨ts, hts, rfl⟩ := except_map_ok hs
    rw [pieces_name hname, List.isChain_cons]
    refine ⟨fun p hp => ?_, ih hts hapart.tail⟩
    -- a point behind the name would be stray
    cases p with
    | name text => rfl
    | gap d =>
      obtain ⟨tail, htail⟩ := List.head?_eq_some_iff.1 (head?_of_gap_mem_head? hp)
      rw [htail] at hts
      by_contra hd
      obtain rfl : d = '.' := by simpa [Piece.touches] using hd
      rw [scanNames_point] at hts
      cases hts
  | case5 position c rest hc hlexeme hname n after hsplit _ ih =>
    obtain ⟨ts, hts, rfl⟩ := except_map_ok hs
    rw [← Numeral.text_append_of_split? hsplit, pieces_append_gaps (not_isNameStart_of_split? hsplit),
      List.isChain_append]
    refine ⟨?_, ih hts hapart.tail, ?_⟩
    · rw [List.isChain_map]
      exact (List.pairwise_of_forall fun _ _ => rfl).isChain
    · intro p hp q hq
      obtain ⟨e, -, rfl⟩ := List.mem_map.1 (List.mem_of_mem_getLast? hp)
      cases q with
      | gap d => rfl
      | name text =>
        obtain ⟨d, hd, hstart⟩ := exists_of_name_mem_head? hq
        exact absurd hstart (not_isNameStart_of_apart hts rfl hapart d hd)
  | case6 => cases hs

theorem scans_spliced {b : Bindings} {position : Nat} {s : List Char} {ss : List Symbol}
    (hs : scanNames position s = .ok ss) (hapart : ss.IsChain Symbol.Apart) (hb : b.Covers s) :
    Scans (spliced b s) (ss.flatMap (Symbol.lexemes b)) := by
  intro position'
  have hlexemes := lexemes?_spliced position (untouched_of_apart hs hapart) hb position'
  rw [hs] at hlexemes
  exact lexemes?_eq_some_iff.1 hlexemes

/-! ## Values that have no text -/

/-- No token holds the beginning of a name. -/
theorem not_isNameStart_of_scan {position : Nat} {s : List Char} {ts : List Token} (h : scan position s = .ok ts) :
    ∀ c ∈ s, ¬ isNameStart c = true := by
  fun_induction scan position s generalizing ts with
  | case1 => simp
  | case2 position c rest hc ih => exact List.forall_mem_cons.2 ⟨not_isNameStart_of_isSpace hc, ih h⟩
  | case3 position c rest hs lexeme hc ih =>
    obtain ⟨us, hus, -⟩ := except_map_ok h
    exact List.forall_mem_cons.2 ⟨not_isNameStart_of_ofChar? hc, ih hus⟩
  | case4 position c rest hs hc n after hsplit _ ih =>
    obtain ⟨us, hus, -⟩ := except_map_ok h
    rw [← Numeral.text_append_of_split? hsplit]
    exact List.forall_mem_append.2 ⟨not_isNameStart_of_split? hsplit, ih hus⟩
  | case5 => cases h

/-- Names are spelled with letters, and so are infinities: in a formula that is read, every name has a finite value. -/
theorem isFinite_of_parse {limits : Limits} {b : Bindings} {formula text name : String} {e : Expr}
    (hsubstitute : substitute b formula = some text) (hparse : parse limits text = .ok e)
    (hname : name ∈ names formula) :
    ∃ x, b name = some x ∧ x.isFinite = true := by
  have hknown : ∀ part, .name part ∈ pieces formula.toList → ∀ x, b (String.ofList part) = some x →
      x.isNaN = false := by
    intro part hpart x hx
    by_contra hnan
    obtain rfl := Double.eq_nan_of_isNaN (Bool.eq_true_of_not_eq_false hnan)
    rw [(substitute_eq_none_iff b formula).2 ⟨_, mem_names.2 ⟨part, hpart, rfl⟩, hx⟩] at hsubstitute
    cases hsubstitute
  rw [substitute_of_not_isNaN hknown] at hsubstitute
  cases hsubstitute
  obtain ⟨ts, hts, -⟩ := parse_eq_ok_iff_parseTokens.1 hparse
  have hscan := (tokens_eq_ok_iff.1 hts).2
  rw [String.toList_ofList] at hscan
  obtain ⟨part, hpart, rfl⟩ := mem_names.1 hname
  have hletters : ∀ c ∈ (Piece.name part).written b, ¬ isNameStart c = true :=
    fun c hc => not_isNameStart_of_scan hscan c (List.mem_flatMap.2 ⟨_, hpart, hc⟩)
  cases hb : b (String.ofList part) with
  | none =>
    rw [Piece.written, hb] at hletters
    obtain ⟨c, hc, hstart⟩ := exists_isNameStart hpart
    exact absurd hstart (hletters c hc)
  | some x =>
    cases x with
    | finite negative units hr => exact ⟨_, rfl, rfl⟩
    | nan => exact absurd (hknown part hpart _ hb) (by decide)
    | infinite negative =>
      have hletter : 'i' ∈ (Double.infinite negative).plainNumeral := by cases negative <;> decide
      rw [Piece.written, hb] at hletters
      exact absurd (by decide) (hletters 'i' hletter)

/-- A formula that is worth a number names numbers only. -/
theorem isFinite_of_evaluate {limits : Limits} {b : Bindings} {formula name : String} {y : Double}
    (h : evaluate limits b formula = .ok y) (hy : y.isNaN = false) (hname : name ∈ names formula) :
    ∃ x, b name = some x ∧ x.isFinite = true := by
  unfold evaluate at h
  split at h
  · cases h
    cases hy
  · rename_i text hsubstitute
    obtain ⟨e, hparse, -⟩ := except_bind_ok h
    exact isFinite_of_parse hsubstitute hparse hname

/-- A formula that names an infinity is refused. -/
theorem evaluate_of_infinite (limits : Limits) {b : Bindings} {formula name : String} {negative : Bool}
    (hknown : ∀ name ∈ names formula, ∃ x, b name = some x ∧ x.isNaN = false) (hname : name ∈ names formula)
    (hb : b name = some (.infinite negative)) : ∃ e, evaluate limits b formula = .error e := by
  rw [exists_error_iff]
  rintro ⟨y, hy⟩
  have hsubstitute := substitute_of_known fun text htext => hknown _ (mem_names.2 ⟨text, htext, rfl⟩)
  unfold evaluate at hy
  rw [hsubstitute] at hy
  obtain ⟨e, hparse, -⟩ := except_bind_ok hy
  obtain ⟨x, hx, hfinite⟩ := isFinite_of_parse hsubstitute hparse hname
  rw [hb] at hx
  cases hx
  cases hfinite

end Stylesheet.Formula
