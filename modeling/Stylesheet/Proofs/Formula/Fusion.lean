/-
Values that run into what stands beside them. The values are spelled out in the text of a formula before it is
read. So a malformed formula may become a sound one: where the digits of a value go on with those of a number,
and where the minus sign of a value, behind an operand, is taken for a subtraction. If all names are set apart
in both respects, a formula that has a value is well-formed (`derivable_iff_setsApart`).
-/
import Mathlib.Tactic
import Stylesheet.Proofs.Formula.Splicing

namespace Stylesheet.Formula

open Stylesheet.Text (Numeral)

/-! ## Operands side by side -/

namespace Piece

def isBlank : Piece → Bool
  | gap c => isSpace c
  | name _ => false

/-- An operand may end with this piece. -/
def endsOperand : Piece → Bool
  | gap c => c.isDigit || c == '.' || c == ')'
  | name _ => true

/-- A name with a minus sign in its value. -/
def isNegative (b : Bindings) : Piece → Bool
  | gap _ => false
  | name text => ((b (String.ofList text)).getD .nan).isNegative

/-- The minus sign of the value would be taken for a subtraction. -/
def joins (b : Bindings) (p q : Piece) : Bool := p.endsOperand && q.isNegative b

end Piece

/-- No name touches a digit or a point, and none with a negative value stands behind an operand, be it with
blanks between them. -/
def Bindings.SetsApart (b : Bindings) (s : List Char) : Prop :=
  Untouched s ∧ ((pieces s).filter (!·.isBlank)).IsChain fun p q => p.joins b q = false

/-! ## The pieces of symbols -/

namespace Symbol

def isNegative (b : Bindings) : Symbol → Bool
  | token _ => false
  | name text _ => ((b (String.ofList text)).getD .nan).isNegative

def joins (b : Bindings) (s t : Symbol) : Bool := s.endsOperand && t.isNegative b

theorem Parted.joins_eq_false {s t : Symbol} (h : s.Parted t) (b : Bindings) : s.joins b t = false := by
  rw [joins, Bool.and_eq_false_imp]
  intro hs
  cases t with
  | token t => rfl
  | name text position => exact absurd rfl (h hs text position)

def pieces : Symbol → List Piece
  | token t => t.lexeme.text.map .gap
  | name text _ => [.name text]

/-- The symbol is written with some characters, those of a number being digits and perhaps a point. -/
def Written : Symbol → Prop
  | token ⟨.number n, _⟩ => n.text ≠ [] ∧ ∀ d ∈ n.text, d.isDigit = true ∨ d = '.'
  | _ => True

theorem Written.pieces_ne_nil {s : Symbol} (h : s.Written) : s.pieces ≠ [] := by
  cases s with
  | name text position => simp [pieces]
  | token t =>
    obtain ⟨lexeme, position⟩ := t
    cases lexeme with
    | number n => simpa [pieces, Lexeme.text] using h.1
    | plus | minus | star | slash | openBracket | closeBracket => simp [pieces, Lexeme.text]

/-- Operands end with the same symbols as with their last pieces. -/
theorem Written.endsOperand_getLast? {s : Symbol} (h : s.Written) :
    ∀ p ∈ s.pieces.getLast?, p.endsOperand = s.endsOperand := by
  intro p hp
  cases s with
  | name text position => cases hp; rfl
  | token t =>
    obtain ⟨lexeme, position⟩ := t
    cases lexeme with
    | number n =>
      obtain ⟨d, hd, rfl⟩ := List.mem_map.1 (List.mem_of_mem_getLast? hp)
      rcases h.2 d hd with hdigit | rfl
      · simp [Piece.endsOperand, Symbol.endsOperand, hdigit]
      · rfl
    | plus | minus | star | slash | openBracket | closeBracket => cases hp; rfl

theorem isNegative_head? (b : Bindings) (t : Symbol) : ∀ p ∈ t.pieces.head?, p.isNegative b = t.isNegative b := by
  intro p hp
  cases t with
  | name text position => cases hp; rfl
  | token t =>
    obtain ⟨d, -, rfl⟩ := List.mem_map.1 (List.mem_of_mem_head? hp)
    rfl

end Symbol

theorem Lexeme.text_of_ofChar? {c : Char} {lexeme : Lexeme} (h : ofChar? c = some lexeme) :
    lexeme.text = [c] ∧ ∀ n, lexeme ≠ .number n := by
  unfold ofChar? at h
  split at h <;> cases h <;> simp [text]

/-- But for its blanks, a formula is the pieces of its symbols. -/
theorem filter_pieces {position : Nat} {s : List Char} {ss : List Symbol} (hs : scanNames position s = .ok ss) :
    (pieces s).filter (!·.isBlank) = ss.flatMap Symbol.pieces ∧ ∀ u ∈ ss, u.Written := by
  fun_induction scanNames position s generalizing ss with
  | case1 =>
    cases hs
    rw [pieces]
    exact ⟨rfl, by simp⟩
  | case2 position c rest hc ih =>
    rw [pieces_gap (not_isNameStart_of_isSpace hc), List.filter_cons_of_neg (by simpa [Piece.isBlank] using hc)]
    exact ih hs
  | case3 position c rest hc lexeme hlexeme ih =>
    obtain ⟨us, hus, rfl⟩ := except_map_ok hs
    obtain ⟨hpieces, hwritten⟩ := ih hus
    rw [pieces_gap (not_isNameStart_of_ofChar? hlexeme),
      List.filter_cons_of_pos (by simpa [Piece.isBlank] using hc), hpieces]
    obtain ⟨htext, hnumber⟩ := Lexeme.text_of_ofChar? hlexeme
    refine ⟨?_, List.forall_mem_cons.2 ⟨?_, hwritten⟩⟩
    · rw [List.flatMap_cons, Symbol.pieces, htext]
      rfl
    · cases lexeme with
      | number n => exact absurd rfl (hnumber n)
      | plus | minus | star | slash | openBracket | closeBracket => trivial
  | case4 position c rest hc hlexeme hname ih =>
    obtain ⟨us, hus, rfl⟩ := except_map_ok hs
    obtain ⟨hpieces, hwritten⟩ := ih hus
    rw [pieces_name hname, List.filter_cons_of_pos rfl, hpieces]
    exact ⟨rfl, List.forall_mem_cons.2 ⟨trivial, hwritten⟩⟩
  | case5 position c rest hc hlexeme hname n after hsplit _ ih =>
    obtain ⟨us, hus, rfl⟩ := except_map_ok hs
    obtain ⟨hpieces, hwritten⟩ := ih hus
    have hdigits : ∀ d ∈ n.text, d.isDigit = true ∨ d = '.' := fun d hd =>
      (Numeral.mem_text hd).imp_left ((Numeral.digits_of_split? hsplit).1 d)
    have hkept : (n.text.map Piece.gap).filter (!·.isBlank) = n.text.map .gap := by
      refine List.filter_eq_self.2 fun p hp => ?_
      obtain ⟨d, hd, rfl⟩ := List.mem_map.1 hp
      rcases hdigits d hd with hdigit | rfl
      · simp [Piece.isBlank, (ofChar?_of_isNameChar (c := d) (by rw [isNameChar, hdigit, Bool.or_true])).1]
      · rfl
    rw [← Numeral.text_append_of_split? hsplit, pieces_append_gaps (not_isNameStart_of_split? hsplit),
      List.filter_append,
      hkept, hpieces]
    exact ⟨rfl, List.forall_mem_cons.2
      ⟨⟨Numeral.text_ne_nil (Numeral.whole_ne_nil_of_split? hsplit), hdigits⟩, hwritten⟩⟩
  | case6 => cases hs

/-- Names are set apart from operands before them in the text as they are among its symbols. -/
theorem isChain_joins_iff (b : Bindings) {position : Nat} {s : List Char} {ss : List Symbol}
    (hs : scanNames position s = .ok ss) :
    (((pieces s).filter (!·.isBlank)).IsChain fun p q => p.joins b q = false) ↔
      ss.IsChain fun u v => u.joins b v = false := by
  obtain ⟨hpieces, hwritten⟩ := filter_pieces hs
  have hnil : [] ∉ ss.map Symbol.pieces := by
    rintro hmem
    obtain ⟨u, hu, hempty⟩ := List.mem_map.1 hmem
    exact (hwritten u hu).pieces_ne_nil hempty
  -- no piece of a single symbol joins the next
  have hwithin : ∀ l ∈ ss.map Symbol.pieces, l.IsChain fun p q => p.joins b q = false := by
    rintro l hl
    obtain ⟨u, -, rfl⟩ := List.mem_map.1 hl
    cases u with
    | name text position => exact .singleton _
    | token t =>
      rw [Symbol.pieces, List.isChain_map]
      exact (List.pairwise_of_forall fun d e => by simp [Piece.joins, Piece.isNegative]).isChain
  have hbetween {u v : Symbol} (hu : u.Written) (hv : v.Written) :
      (∀ p ∈ u.pieces.getLast?, ∀ q ∈ v.pieces.head?, p.joins b q = false) ↔ u.joins b v = false := by
    have hp := List.getLast?_eq_some_getLast hu.pieces_ne_nil
    have hq := List.head?_eq_some_head hv.pieces_ne_nil
    have hends := hu.endsOperand_getLast? _ hp
    have hnegative := v.isNegative_head? b _ hq
    rw [hp, hq]
    simp [Piece.joins, Symbol.joins, hends, hnegative]
  rw [hpieces, List.flatMap_def, List.isChain_flatten hnil, List.isChain_map, and_iff_right hwithin]
  exact List.IsChain.iff_of_mem_imp fun u v hu hv => hbetween (hwritten u hu) (hwritten v hv)

/-! ## Names for numbers -/

/-- All names among the symbols have finite values. -/
def Bindings.CoversSymbols (b : Bindings) (ss : List Symbol) : Prop :=
  ∀ text position, .name text position ∈ ss → ∃ x, b (String.ofList text) = some x ∧ x.isFinite = true

section Names

variable {b : Bindings}

namespace Bindings.CoversSymbols

variable {ss us : List Symbol} {u : Symbol}

theorem tail (hb : b.CoversSymbols (u :: us)) : b.CoversSymbols us :=
  fun text position h => hb text position (List.mem_cons_of_mem _ h)

theorem left (hb : b.CoversSymbols (ss ++ us)) : b.CoversSymbols ss :=
  fun text position h => hb text position (List.mem_append_left _ h)

theorem right (hb : b.CoversSymbols (ss ++ u :: us)) : b.CoversSymbols us :=
  fun text position h => hb text position (List.mem_append_right _ (List.mem_cons_of_mem _ h))

end Bindings.CoversSymbols

/-- A name has the lexeme of a number in its place, behind a minus sign if its value is negative. -/
theorem exists_lexemes_name {text : List Char} {position : Nat} {ss : List Symbol} (hb : b.CoversSymbols ss)
    (h : .name text position ∈ ss) : ∃ n, (Symbol.name text position).lexemes b =
      (if (Symbol.name text position).isNegative b then [.minus] else []) ++ [.number n] := by
  obtain ⟨x, hx, hfinite⟩ := hb text position h
  obtain ⟨n, hn⟩ := exists_spells_isNegative hfinite
  refine ⟨n, ?_⟩
  rw [Symbol.lexemes, Symbol.isNegative, hx, Option.getD_some, valueLexemes_of_spells hn]

theorem lexemes_ne_nil {ss : List Symbol} (hb : b.CoversSymbols ss) {u : Symbol} (hu : u ∈ ss) : u.lexemes b ≠ [] := by
  cases u with
  | token t => simp [Symbol.lexemes]
  | name text position =>
    obtain ⟨n, hn⟩ := exists_lexemes_name hb hu
    simp [hn]

theorem eq_nil_of_flatMap_lexemes {ss : List Symbol} (hb : b.CoversSymbols ss)
    (h : ss.flatMap (Symbol.lexemes b) = []) :
    ss = [] := by
  cases ss with
  | nil => rfl
  | cons u ss =>
    rw [List.flatMap_cons, List.append_eq_nil_iff] at h
    exact absurd h.1 (lexemes_ne_nil hb (List.mem_cons_self ..))

/-- A single lexeme is that of a single symbol. -/
theorem exists_eq_singleton_of_flatMap {ss : List Symbol} (hb : b.CoversSymbols ss) {lexeme : Lexeme}
    (h : ss.flatMap (Symbol.lexemes b) = [lexeme]) : ∃ u, ss = [u] ∧ u.lexemes b = [lexeme] := by
  cases ss with
  | nil => cases h
  | cons u ss =>
    rw [List.flatMap_cons] at h
    rcases List.append_eq_singleton_iff.1 h with ⟨hnone, -⟩ | ⟨hu, hnone⟩
    · exact absurd hnone (lexemes_ne_nil hb (List.mem_cons_self ..))
    · exact ⟨u, by rw [eq_nil_of_flatMap_lexemes hb.tail hnone], hu⟩

/-- The symbols have a lexeme between those on the left and those on the right: as a symbol itself, or, if it is a
minus sign, as the sign of a name with a negative value. -/
def SplitsAt (b : Bindings) (lexeme : Lexeme) (left right : List Lexeme) (ss : List Symbol) : Prop :=
  (∃ ss₁ position ss₂, ss = ss₁ ++ .token ⟨lexeme, position⟩ :: ss₂ ∧ ss₁.flatMap (Symbol.lexemes b) = left ∧
    ss₂.flatMap (Symbol.lexemes b) = right) ∨
  lexeme = .minus ∧ ∃ ss₁ text position ss₂ n, ss = ss₁ ++ .name text position :: ss₂ ∧
    (Symbol.name text position).isNegative b = true ∧ ss₁.flatMap (Symbol.lexemes b) = left ∧
    right = .number n :: ss₂.flatMap (Symbol.lexemes b)

theorem SplitsAt.cons {lexeme : Lexeme} {left right : List Lexeme} {ss : List Symbol} (u : Symbol)
    (h : SplitsAt b lexeme left right ss) : SplitsAt b lexeme (u.lexemes b ++ left) right (u :: ss) := by
  rcases h with ⟨ss₁, position, ss₂, rfl, rfl, rfl⟩ | ⟨rfl, ss₁, text, position, ss₂, n, rfl, hnegative, rfl, rfl⟩
  · exact .inl ⟨u :: ss₁, position, ss₂, rfl, List.flatMap_cons, rfl⟩
  · exact .inr ⟨rfl, u :: ss₁, text, position, ss₂, n, rfl, hnegative, List.flatMap_cons, rfl⟩

theorem splitsAt_of_flatMap {ss : List Symbol} (hb : b.CoversSymbols ss)
    {lexeme : Lexeme} (hl : ∀ n, lexeme ≠ .number n)
    {left right : List Lexeme} (h : ss.flatMap (Symbol.lexemes b) = left ++ lexeme :: right) :
    SplitsAt b lexeme left right ss := by
  induction ss generalizing left with
  | nil => simp at h
  | cons u ss ih =>
    have hss : b.CoversSymbols ss := hb.tail
    rw [List.flatMap_cons] at h
    rcases List.append_eq_append_iff.1 h with ⟨left', rfl, hrest⟩ | ⟨front, hu, hrest⟩
    · exact (ih hss hrest).cons u
    cases front with
    | nil =>
      obtain rfl : u.lexemes b = left := by simpa using hu
      have hsplits : SplitsAt b lexeme [] right ss := ih hss hrest.symm
      simpa using hsplits.cons u
    | cons l front =>
      obtain ⟨rfl, rfl⟩ : lexeme = l ∧ right = front ++ ss.flatMap (Symbol.lexemes b) := by simpa using hrest
      cases u with
      | token t =>
        obtain ⟨rfl, hlexeme, rfl⟩ : left = [] ∧ t.lexeme = lexeme ∧ front = [] := by
          rcases List.append_eq_singleton_iff.1 hu.symm with ⟨hleft, hone⟩ | ⟨-, hnone⟩
          · obtain ⟨hlexeme, hfront⟩ := List.cons.inj hone
            exact ⟨hleft, hlexeme.symm, hfront⟩
          · cases hnone
        exact .inl ⟨[], t.position, ss, by rw [← hlexeme]; rfl, rfl, rfl⟩
      | name text position =>
        obtain ⟨n, hn⟩ := exists_lexemes_name hb (List.mem_cons_self ..)
        rw [hu] at hn
        cases hnegative : (Symbol.name text position).isNegative b with
        | false =>
          rw [hnegative, if_neg Bool.false_ne_true, List.nil_append, List.append_eq_singleton_iff] at hn
          simp [hl n] at hn
        | true =>
          rw [hnegative, if_pos rfl, List.singleton_append] at hn
          obtain ⟨rfl, rfl, rfl⟩ : left = [] ∧ lexeme = .minus ∧ front = [.number n] := by
            cases left with
            | nil => simpa using hn
            | cons l left =>
              rw [List.cons_append, List.cons.injEq, List.append_eq_singleton_iff] at hn
              simp [hl n] at hn
          exact .inr ⟨rfl, [], text, position, ss, n, rfl, hnegative, rfl, rfl⟩

/-- A sign other than minus, or a bracket, is a symbol itself. -/
theorem exists_token_of_flatMap {ss : List Symbol} (hb : b.CoversSymbols ss) {lexeme : Lexeme}
    (hl : ∀ n, lexeme ≠ .number n) (hminus : lexeme ≠ .minus) {left right : List Lexeme}
    (h : ss.flatMap (Symbol.lexemes b) = left ++ lexeme :: right) :
    ∃ ss₁ position ss₂, ss = ss₁ ++ .token ⟨lexeme, position⟩ :: ss₂ ∧ ss₁.flatMap (Symbol.lexemes b) = left ∧
      ss₂.flatMap (Symbol.lexemes b) = right :=
  (splitsAt_of_flatMap hb hl h).resolve_right fun hname => hminus hname.1

end Names

theorem map_lexeme_mark (ts us : List Token) (lexeme : Lexeme) (position : Nat) :
    (ts ++ ⟨lexeme, position⟩ :: us).map (·.lexeme) = ts.map (·.lexeme) ++ lexeme :: us.map (·.lexeme) := by
  rw [List.map_append, List.map_cons]

/-! ## Derivations with the names -/

namespace Derivation

variable {c : Category} {b : Bindings}

/-- A derivation ends with an operand. -/
theorem exists_tokens_concat (d : Derivation Numeral c) :
    ∃ ts t, d.tokens = ts ++ [t] ∧ (Symbol.token t).endsOperand = true := by
  induction d with
  | atom n position => exact ⟨[], _, rfl, rfl⟩
  | negation position operand ih =>
    obtain ⟨ts, t, htokens, ht⟩ := ih
    refine ⟨⟨.minus, position⟩ :: ts, t, ?_, ht⟩
    show ⟨.minus, position⟩ :: operand.tokens = _
    rw [htokens, List.cons_append]
  | brackets opening inner closing ih =>
    exact ⟨⟨.openBracket, opening⟩ :: inner.tokens, ⟨.closeBracket, closing⟩, rfl, rfl⟩
  | factor only ih => exact ih
  | product left sign position right ihl ihr =>
    obtain ⟨ts, t, htokens, ht⟩ := ihr
    refine ⟨left.tokens ++ ⟨sign.lexeme, position⟩ :: ts, t, ?_, ht⟩
    show left.tokens ++ ⟨sign.lexeme, position⟩ :: right.tokens = _
    rw [htokens, List.append_assoc, List.cons_append]
  | term only ih => exact ih
  | sum left sign position right ihl ihr =>
    obtain ⟨ts, t, htokens, ht⟩ := ihr
    refine ⟨left.tokens ++ ⟨sign.lexeme, position⟩ :: ts, t, ?_, ht⟩
    show left.tokens ++ ⟨sign.lexeme, position⟩ :: right.tokens = _
    rw [htokens, List.append_assoc, List.cons_append]

/-- So do the symbols that have its lexemes. -/
theorem exists_concat_of_flatMap {d : Derivation Numeral c} {ss : List Symbol}
    (h : ss.flatMap (Symbol.lexemes b) = d.tokens.map (·.lexeme)) : ∃ us u, ss = us ++ [u] ∧ u.endsOperand = true := by
  obtain ⟨ts, t, htokens, ht⟩ := d.exists_tokens_concat
  rw [htokens, List.map_append, List.map_singleton] at h
  rcases List.eq_nil_or_concat' ss with rfl | ⟨us, u, rfl⟩
  · simp at h
  · refine ⟨us, u, rfl, ?_⟩
    cases u with
    | name text position => rfl
    | token t' =>
      have hlexeme : t'.lexeme = t.lexeme := by
        rw [List.flatMap_append, List.flatMap_singleton, Symbol.lexemes] at h
        exact (List.cons.inj (List.append_inj' h rfl).2).1
      obtain ⟨lexeme, position⟩ := t
      obtain ⟨lexeme', position'⟩ := t'
      obtain rfl : lexeme' = lexeme := hlexeme
      cases lexeme' <;> first | rfl | cases ht

/-- A factor that starts with a number is the number. -/
theorem flatMap_eq_nil_of_number {d : Derivation Numeral .factor} {n : Numeral} {ls : List Lexeme}
    (h : .number n :: ls = d.tokens.map (·.lexeme)) : ls = [] := by
  cases d with
  | atom m position => exact (List.cons.inj h).2
  | negation position operand => cases (List.cons.inj h).1
  | brackets opening inner closing => cases (List.cons.inj h).1

/-- If no negative value stands behind an operand, a derivation of the values is one of the names. -/
theorem exists_named (d : Derivation Numeral c) {ss : List Symbol} (hb : b.CoversSymbols ss)
    (hjoins : ss.IsChain fun u v => u.joins b v = false)
    (h : ss.flatMap (Symbol.lexemes b) = d.tokens.map (·.lexeme)) : ∃ d' : Derivation Atom c, d'.named = ss := by
  induction d generalizing ss with
  | atom n position =>
    obtain ⟨u, rfl, hu⟩ := exists_eq_singleton_of_flatMap hb h
    cases u with
    | token t =>
      obtain ⟨lexeme, position⟩ := t
      obtain rfl : lexeme = .number n := (List.cons.inj hu).1
      exact ⟨.atom (.number n) position, rfl⟩
    | name text position => exact ⟨.atom (.name text) position, rfl⟩
  | negation position operand ih =>
    have hsplits : SplitsAt b .minus [] (operand.tokens.map (·.lexeme)) ss := splitsAt_of_flatMap hb (by simp) h
    rcases hsplits with ⟨ss₁, p, ss₂, rfl, h₁, h₂⟩ | ⟨-, ss₁, text, p, ss₂, n, rfl, -, h₁, h₂⟩
    · obtain rfl := eq_nil_of_flatMap_lexemes hb.left h₁
      obtain ⟨d', rfl⟩ := ih hb.tail hjoins.tail h₂
      exact ⟨.negation p d', rfl⟩
    · -- the minus sign is that of a name, and the operand is its number
      obtain rfl := eq_nil_of_flatMap_lexemes hb.left h₁
      have hnone := flatMap_eq_nil_of_number h₂.symm
      obtain rfl := eq_nil_of_flatMap_lexemes hb.tail hnone
      exact ⟨.atom (.name text) p, rfl⟩
  | brackets opening inner closing ih =>
    have hopening := h.trans
        (map_lexeme_mark [] (inner.tokens ++ [Token.mk .closeBracket closing]) .openBracket opening)
    obtain ⟨ss₁, p, rest, rfl, h₁, hrest⟩ := exists_token_of_flatMap hb (by simp) (by simp) hopening
    obtain rfl := eq_nil_of_flatMap_lexemes hb.left h₁
    have hb' := hb.tail
    have hclosing := hrest.trans (map_lexeme_mark inner.tokens [] .closeBracket closing)
    obtain ⟨ss₂, q, ss₃, rfl, h₂, h₃⟩ := exists_token_of_flatMap hb' (by simp) (by simp) hclosing
    obtain rfl := eq_nil_of_flatMap_lexemes hb'.right h₃
    obtain ⟨d', rfl⟩ := ih hb'.left hjoins.tail.left_of_append h₂
    exact ⟨.brackets p d' q, rfl⟩
  | factor only ih =>
    obtain ⟨d', rfl⟩ := ih hb hjoins h
    exact ⟨.factor d', rfl⟩
  | product left sign position right ihl ihr =>
    have htokens : ss.flatMap (Symbol.lexemes b) =
        left.tokens.map (·.lexeme) ++ sign.lexeme :: right.tokens.map (·.lexeme) :=
      h.trans (map_lexeme_mark left.tokens right.tokens sign.lexeme position)
    obtain ⟨ss₁, p, ss₂, rfl, h₁, h₂⟩ := exists_token_of_flatMap hb
      (by cases sign <;> simp [Multiplicative.lexeme]) (by cases sign <;> simp [Multiplicative.lexeme]) htokens
    obtain ⟨l, rfl⟩ := ihl hb.left hjoins.left_of_append h₁
    obtain ⟨r, rfl⟩ := ihr hb.right hjoins.right_of_append.tail h₂
    exact ⟨.product l sign p r, rfl⟩
  | term only ih =>
    obtain ⟨d', rfl⟩ := ih hb hjoins h
    exact ⟨.term d', rfl⟩
  | sum left sign position right ihl ihr =>
    have htokens : ss.flatMap (Symbol.lexemes b) =
        left.tokens.map (·.lexeme) ++ sign.lexeme :: right.tokens.map (·.lexeme) :=
      h.trans (map_lexeme_mark left.tokens right.tokens sign.lexeme position)
    rcases splitsAt_of_flatMap hb (by cases sign <;> simp [Additive.lexeme]) htokens with
      ⟨ss₁, p, ss₂, rfl, h₁, h₂⟩ | ⟨-, ss₁, text, p, ss₂, n, rfl, hnegative, h₁, -⟩
    · obtain ⟨l, rfl⟩ := ihl hb.left hjoins.left_of_append h₁
      obtain ⟨r, rfl⟩ := ihr hb.right hjoins.right_of_append.tail h₂
      exact ⟨.sum l sign p r, rfl⟩
    · -- the sign would be that of a name behind the left operand
      obtain ⟨us, u, rfl, hu⟩ := exists_concat_of_flatMap h₁
      have hbetween := (List.isChain_append.1 hjoins).2.2 u (by simp) _ rfl
      simp [Symbol.joins, hu, hnegative] at hbetween

end Derivation

/-! ## Formulas that have a value -/

/-- A formula that has a value, all names being finite, is one of the grammar with names if and only if its names are
set apart: no name touches a digit or a point, and none with a negative value follows on an operand. -/
theorem derivable_iff_setsApart {limits : Limits} {b : Bindings} {formula : String} {x : Double}
    (hb : ∀ name ∈ names formula, ∃ y, b name = some y ∧ y.isFinite = true) (hx : evaluate limits b formula = .ok x) :
    (∃ d : Derivation Atom .expression, scanNames 0 formula.toList = .ok d.named) ↔ b.SetsApart formula.toList := by
  have hcovers : b.Covers formula.toList := fun text htext => hb _ (mem_names.2 ⟨text, htext, rfl⟩)
  constructor
  · rintro ⟨d, hd⟩
    have hjoins := d.isChain_parted.imp fun u v h => h.joins_eq_false b
    exact ⟨untouched_of_apart hd d.isChain_named, (isChain_joins_iff b hd).2 hjoins⟩
  · rintro ⟨huntouched, hjoins⟩
    unfold evaluate at hx
    rw [substitute_of_covers hcovers] at hx
    obtain ⟨e, he, -⟩ := except_bind_ok hx
    obtain ⟨ts, hts, hparse⟩ := parse_eq_ok_iff_parseTokens.1 he
    obtain ⟨d, rfl⟩ := derivation_of_parseTokens hparse
    have hscan := (tokens_eq_ok_iff.1 hts).2
    rw [String.toList_ofList] at hscan
    have hlexemes := lexemes?_spliced 0 huntouched hcovers 0
    rw [lexemes?, hscan] at hlexemes
    cases hss : scanNames 0 formula.toList with
    | error stray => rw [hss] at hlexemes; cases hlexemes
    | ok ss =>
      rw [hss] at hlexemes
      have hsymbols : b.CoversSymbols ss := fun text position h => hcovers text (mem_pieces_of_scanNames hss h)
      obtain ⟨d', rfl⟩ := d.exists_named hsymbols ((isChain_joins_iff b hss).1 hjoins) (Option.some.inj hlexemes).symm
      exact ⟨d', rfl⟩

/-- Behind a sign, a negative value is set apart. -/
theorem derivable_of_signs :
    let b : Bindings := fun name => if name = "x" then some (.ofInt (-2)) else none
    evaluate {} b "3 - x*2" = .ok (.ofInt 7) ∧
      ∃ d : Derivation Atom .expression, scanNames 0 "3 - x*2".toList = .ok d.named := by
  intro b
  have hvalue : evaluate {} b "3 - x*2" = .ok (.ofInt 7) := by decide +kernel
  have hb : ∀ name ∈ names "3 - x*2", ∃ y, b name = some y ∧ y.isFinite = true := by
    have hnames : names "3 - x*2" = ["x"] := by decide +kernel
    rw [hnames, List.forall_mem_singleton]
    exact ⟨_, rfl, by decide +kernel⟩
  have hapart : b.SetsApart "3 - x*2".toList := ⟨by unfold Untouched; decide +kernel, by decide +kernel⟩
  exact ⟨hvalue, (derivable_iff_setsApart hb hvalue).2 hapart⟩

/-- Two malformed formulas that have values: the digits of one value go on with a number, and the sign of another is
taken for a subtraction. -/
theorem evaluate_of_fused :
    let b : Bindings := fun name => some (if name = "a" then .ofInt 3 else .ofInt (-2))
    (∀ name, ∃ y, b name = some y ∧ y.isFinite = true) ∧
    (evaluate {} b "2a" = .ok (.ofInt 23) ∧
      ¬ ∃ d : Derivation Atom .expression, scanNames 0 "2a".toList = .ok d.named) ∧
    evaluate {} b "a b" = .ok (.ofInt 1) ∧
      ¬ ∃ d : Derivation Atom .expression, scanNames 0 "a b".toList = .ok d.named := by
  intro b
  refine ⟨fun name => ⟨_, rfl, ?_⟩, ⟨by decide +kernel, ?_⟩, by decide +kernel, ?_⟩
  · split <;> decide +kernel
  · rintro ⟨d, hd⟩
    have htouches : ¬ (pieces "2a".toList).IsChain fun p q => p.touches q = false := by decide +kernel
    exact htouches (untouched_of_apart hd d.isChain_named)
  · rintro ⟨d, hd⟩
    have hscan : scanNames 0 "a b".toList = .ok [.name ['a'] 0, .name ['b'] 2] := by decide +kernel
    have hparted := d.isChain_parted
    rw [← Except.ok.inj (hscan.symm.trans hd)] at hparted
    exact (List.isChain_cons_cons.1 hparted).1 rfl _ _ rfl

end Stylesheet.Formula
