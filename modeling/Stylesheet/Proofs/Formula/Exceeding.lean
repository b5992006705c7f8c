/-
Limits and values. A formula is checked against its limits with the texts of its values in the place of its names, so
the length of these texts counts, and a minus sign of a value nests one level deeper. Nothing else of the values does:
formulas that differ in their digits exceed the limit of nesting alike (`exceedsLimit_evaluate`).
-/
import Stylesheet.Proofs.Formula.Digits
import Stylesheet.Proofs.Formula.Nesting
import Stylesheet.Proofs.Formula.Splicing
import Stylesheet.Proofs.Formula.Viable

namespace Stylesheet.Formula

open Stylesheet.Text (Numeral)

/-! ## Exceeding a limit -/

/-- The computation fails because a limit is exceeded. -/
def ExceedsLimit {α : Type} (x : Except Error α) : Prop :=
  ∃ limit allowed actual, x = .error (.limitExceeded limit allowed actual)

/-- No number is too large to be filled up with zeros. -/
def NoOverflow {α : Type} (x : Except Error α) : Prop := ∀ cause, x ≠ .error (.overflow cause)

section Except

variable {α β : Type} {x : Except Error α} {e : Error}

theorem not_exceedsLimit_ok (a : α) : ¬ ExceedsLimit (.ok a : Except Error α) := by
  rintro ⟨limit, allowed, actual, h⟩
  cases h

theorem noOverflow_ok (a : α) : NoOverflow (.ok a : Except Error α) := by
  intro cause h
  cases h

theorem ExceedsLimit.noOverflow (h : ExceedsLimit x) : NoOverflow x := by
  obtain ⟨limit, allowed, actual, rfl⟩ := h
  intro cause h
  cases h

/-- What is refused for its place is not refused for a limit. -/
theorem not_exceedsLimit_of_position {position : Nat} (h : e.position? = some position) :
    ¬ ExceedsLimit (.error e : Except Error α) := by
  rintro ⟨limit, allowed, actual, he⟩
  cases he
  cases h

theorem noOverflow_of_position {position : Nat} (h : e.position? = some position) :
    NoOverflow (.error e : Except Error α) := by
  intro cause he
  cases he
  cases h

theorem exceedsLimit_map (f : α → β) : ExceedsLimit (x.map f) ↔ ExceedsLimit x := by
  cases x <;> simp [ExceedsLimit, Except.map]

theorem noOverflow_map (f : α → β) : NoOverflow (x.map f) ↔ NoOverflow x := by
  cases x <;> simp [NoOverflow, Except.map]

end Except

namespace Shape

variable {limits limits' : Limits} {formula formula' : String} {shape : Shape} {ts us : List Token}

theorem next?_bare (shape : Shape) (lexeme : Lexeme) : shape.next? lexeme.bare = shape.next? lexeme := by
  cases lexeme with
  | number n => cases shape <;> rfl
  | plus | minus | star | slash | openBracket | closeBracket => rfl

theorem check_bare (hdigits : 0 ≤ limits.digits) (shape : Shape) (lexeme : Lexeme) :
    shape.check limits lexeme.bare = shape.check limits lexeme := by
  cases lexeme with
  | number n => exact (if_pos (.inl hdigits)).trans (if_pos (.inl hdigits)).symm
  | plus | minus | star | slash | openBracket | closeBracket => rfl

/-- The limit of digits does not matter but for an overflow. -/
theorem check_of_nesting (hnesting : limits'.nesting = limits.nesting) (hdigits : 0 ≤ limits'.digits) (shape : Shape)
    (lexeme : Lexeme) :
    shape.check limits' lexeme = shape.check limits lexeme ∨ shape.check limits lexeme = .error (.overflow .count) := by
  have hroom (depth : Int) : limits'.checkNesting depth = limits.checkNesting depth := by
    rw [Limits.checkNesting, Limits.checkNesting, hnesting]
  cases lexeme with
  | number n =>
    have hfits : limits'.checkZeros n = .ok () := if_pos (.inl hdigits)
    show limits'.checkZeros n = limits.checkZeros n ∨ limits.checkZeros n = .error (.overflow .count)
    rw [hfits]
    unfold Limits.checkZeros
    split
    · exact .inl rfl
    · exact .inr rfl
  | minus =>
    cases shape with
    | operand minuses outer => exact .inl (hroom _)
    | operator outer => exact .inl rfl
  | openBracket => exact .inl (hroom _)
  | plus | star | slash | closeBracket => exact .inl rfl

theorem not_exceedsLimit_finish (shape : Shape) : ¬ ExceedsLimit (shape.finish formula) := by
  cases h : shape.finish formula with
  | ok _ => exact not_exceedsLimit_ok _
  | error e => exact not_exceedsLimit_of_position (refuses_of_finish h).1.position

theorem noOverflow_verdict (hdigits : 0 ≤ limits.digits) (shape : Shape) (ts : List Token) :
    NoOverflow (shape.verdict limits formula ts) := by
  induction ts generalizing shape with
  | nil =>
    show NoOverflow (shape.finish formula)
    cases h : shape.finish formula with
    | ok _ => exact noOverflow_ok _
    | error e => exact noOverflow_of_position (refuses_of_finish h).1.position
  | cons t ts ih =>
    rw [verdict_cons, step]
    cases shape.next? t.lexeme with
    | none => exact noOverflow_of_position (refuses_refusal formula shape t).position
    | some next =>
      dsimp only
      cases hcheck : shape.check limits t.lexeme with
      | ok _ => exact ih next
      | error e =>
        rcases check_eq_error hcheck with ⟨-, rfl⟩ | ⟨hnegative, -⟩
        · exact ExceedsLimit.noOverflow ⟨_, _, _, rfl⟩
        · exact absurd hdigits (not_le.2 hnegative)

/-- Tokens that differ in their digits exceed limits alike, whatever the limit of digits is, but for an overflow. -/
theorem exceedsLimit_verdict (hnesting : limits'.nesting = limits.nesting) (hdigits : 0 ≤ limits'.digits)
    (h : us.map (·.lexeme.bare) = ts.map (·.lexeme.bare)) (hno : NoOverflow (shape.verdict limits formula ts)) :
    ExceedsLimit (shape.verdict limits' formula' us) ↔ ExceedsLimit (shape.verdict limits formula ts) := by
  induction ts generalizing shape us with
  | nil =>
    obtain rfl := List.map_eq_nil_iff.1 h
    exact iff_of_false (not_exceedsLimit_finish shape) (not_exceedsLimit_finish shape)
  | cons t ts ih =>
    obtain ⟨u, us, rfl, hu, hus⟩ := List.map_eq_cons_iff.1 h
    change u.lexeme.bare = t.lexeme.bare at hu
    have hnext : shape.next? u.lexeme = shape.next? t.lexeme := by rw [← next?_bare, hu, next?_bare]
    have hcheck := check_of_nesting hnesting hdigits shape t.lexeme
    rw [← check_bare hdigits, ← hu, check_bare hdigits] at hcheck
    rw [verdict_cons, step] at hno
    rw [verdict_cons, verdict_cons, step, step, hnext]
    cases hn : shape.next? t.lexeme with
    | none =>
      exact iff_of_false (not_exceedsLimit_of_position (refuses_refusal formula' shape u).position)
        (not_exceedsLimit_of_position (refuses_refusal formula shape t).position)
    | some next =>
      rw [hn] at hno
      dsimp only at hno ⊢
      rcases hcheck with hsame | hover
      · rw [hsame]
        cases hc : shape.check limits t.lexeme with
        | error e => exact Iff.rfl
        | ok _ =>
          rw [hc] at hno
          exact ih hus hno
      · rw [hover] at hno
        exact absurd rfl (hno .count)

end Shape

/-- The text that is read is not too long. -/
def Fits (limits : Limits) (b : Bindings) (formula : String) : Prop :=
  ∀ text, substitute b formula = some text → limits.checkLength text.toList.length = .ok ()

section Parse

variable {limits : Limits} {text text' : String}

theorem map_parse (limits : Limits) (text : String) :
    (parse limits text).map (fun _ => ()) = (tokens limits text).bind (Shape.initial.verdict limits text) := by
  rw [parse]
  cases tokens limits text with
  | error e => rfl
  | ok ts => exact map_parseTokens ts

theorem exceedsLimit_of_checkLength (h : limits.checkLength text.toList.length ≠ .ok ()) :
    ExceedsLimit (parse limits text) := by
  unfold Limits.checkLength at h
  split at h
  · rename_i allowed hallowed
    split at h
    · rename_i hlong
      refine ⟨.length, allowed, text.toList.length, ?_⟩
      rw [parse, tokens, Limits.checkLength, hallowed]
      dsimp only
      rw [if_pos hlong]
      rfl
    · exact absurd rfl h
  · exact absurd rfl h

theorem tokens_of_checkLength (h : limits.checkLength text.toList.length = .ok ()) :
    tokens limits text = match scan 0 text.toList with
      | .ok ts => .ok ts
      | .error (c, position) => .error (.strayCharacter c position text) := by
  rw [tokens, h]
  rfl

/-- Texts that differ in their digits exceed limits alike if they fit the limit of length, also where all digits of a
number are dropped. -/
theorem exceedsLimit_parse (hlength' : limits.checkLength text'.toList.length = .ok ())
    (hlength : limits.checkLength text.toList.length = .ok ())
    (h : skeleton? .gap text'.toList = skeleton? .gap text.toList) (hno : NoOverflow (parse limits text)) :
    ExceedsLimit (parse { limits with digits := 0 } text') ↔ ExceedsLimit (parse limits text) := by
  have hzero : { limits with digits := 0 }.checkLength text'.toList.length = .ok () := hlength'
  rw [← noOverflow_map fun _ => (), map_parse] at hno
  rw [← exceedsLimit_map fun _ => (), ← exceedsLimit_map (x := parse limits text) fun _ => (), map_parse, map_parse]
  rw [tokens_of_checkLength hzero]
  rw [tokens_of_checkLength hlength] at hno ⊢
  rw [← map_bare_lexemes? 0, ← map_bare_lexemes? 0, lexemes?, lexemes?] at h
  cases hscan : scan 0 text.toList with
  | error stray =>
    cases hscan' : scan 0 text'.toList with
    | error stray' => exact iff_of_false (not_exceedsLimit_of_position rfl) (not_exceedsLimit_of_position rfl)
    | ok us =>
      rw [hscan, hscan'] at h
      cases h
  | ok ts =>
    cases hscan' : scan 0 text'.toList with
    | error stray' =>
      rw [hscan, hscan'] at h
      cases h
    | ok us =>
      rw [hscan, hscan'] at h
      rw [hscan] at hno
      have hbare : us.map (·.lexeme.bare) = ts.map (·.lexeme.bare) := by
        have hmaps := Option.some.inj h
        rwa [List.map_map, List.map_map] at hmaps
      exact Shape.exceedsLimit_verdict rfl le_rfl hbare hno

end Parse

/-! ## Formulas and their values -/

section Evaluate

variable {limits : Limits} {b b' : Bindings} {formula text : String}

/-- A formula has a value unless it is not read. -/
theorem evaluate_eq_error_iff (h : substitute b formula = some text) {e : Error} :
    evaluate limits b formula = .error e ↔ parse limits text = .error e := by
  unfold evaluate
  rw [h]
  dsimp only
  cases hparse : parse limits text with
  | error e' =>
    have hsame : (Except.error e' : Except Error Double) = .error e ↔ e' = e :=
      ⟨fun herror => Except.error.inj herror, congrArg _⟩
    exact hsame.trans ⟨congrArg _, fun herror => Except.error.inj herror⟩
  | ok tree =>
    obtain ⟨-, d, -, -, -, rfl⟩ := derivation_of_parse hparse
    obtain ⟨x, hx⟩ := d.exists_eval_tree limits.numberValue
    refine iff_of_false (fun herror => ?_) (fun herror => by cases herror)
    change (d.tree limits.numberValue).eval = .error e at herror
    rw [hx] at herror
    cases herror

theorem exceedsLimit_evaluate_iff (h : substitute b formula = some text) :
    ExceedsLimit (evaluate limits b formula) ↔ ExceedsLimit (parse limits text) := by
  unfold ExceedsLimit
  simp only [evaluate_eq_error_iff h]

theorem noOverflow_evaluate_iff (h : substitute b formula = some text) :
    NoOverflow (evaluate limits b formula) ↔ NoOverflow (parse limits text) := by
  unfold NoOverflow
  simp only [ne_eq, evaluate_eq_error_iff h]

theorem fits_iff (h : substitute b formula = some text) :
    Fits limits b formula ↔ limits.checkLength text.toList.length = .ok () := by
  unfold Fits
  rw [h]
  simp

/-- Nothing overflows unless the limit of digits is negative. -/
theorem noOverflow_evaluate (hdigits : 0 ≤ limits.digits) (b : Bindings) (formula : String) :
    NoOverflow (evaluate limits b formula) := by
  cases h : substitute b formula with
  | none =>
    unfold evaluate
    rw [h]
    exact noOverflow_ok _
  | some text =>
    rw [noOverflow_evaluate_iff h, ← noOverflow_map fun _ => (), map_parse]
    by_cases hlength : limits.checkLength text.toList.length = .ok ()
    · rw [tokens_of_checkLength hlength]
      cases scan 0 text.toList with
      | error stray => exact noOverflow_of_position rfl
      | ok ts => exact Shape.noOverflow_verdict hdigits .initial ts
    · rw [← map_parse]
      exact ((exceedsLimit_map _).2 (exceedsLimit_of_checkLength hlength)).noOverflow

/-- Where a name is not bound, its letters are stray, so that only the length can be too much. -/
theorem exceedsLimit_of_unbound {name : List Char} (hname : .name name ∈ pieces formula.toList)
    (hb : b (String.ofList name) = none) (htext : text.toList = (pieces formula.toList).flatMap (Piece.written b)) :
    ExceedsLimit (parse limits text) ↔ limits.checkLength text.toList.length ≠ .ok () := by
  refine ⟨fun h hlength => ?_, exceedsLimit_of_checkLength⟩
  obtain ⟨c, hc, hstart⟩ := exists_isNameStart hname
  have hletter : c ∈ text.toList := by
    rw [htext]
    refine List.mem_flatMap.2 ⟨_, hname, ?_⟩
    rwa [Piece.written, hb]
  obtain ⟨limit, allowed, actual, h⟩ := h
  rw [parse, tokens_of_checkLength hlength] at h
  cases hscan : scan 0 text.toList with
  | ok ts => exact not_isNameStart_of_scan hscan c hletter hstart
  | error stray =>
    rw [hscan] at h
    cases h

/-- Alike values are finite on both sides if all names are bound. -/
theorem Bindings.Alike.covers {s : List Char} (h : b.Alike b' s)
    (hbound : ∀ text, .name text ∈ pieces s → (b (String.ofList text)).isSome = true) : b.Covers s ∧ b'.Covers s := by
  constructor
  · intro text htext
    obtain ⟨x, hx⟩ := Option.isSome_iff_exists.1 (hbound text htext)
    exact ⟨x, hx, h.finite text htext x (.inl hx)⟩
  · intro text htext
    obtain ⟨x, hx⟩ := Option.isSome_iff_exists.1 ((h.bound text htext).symm.trans (hbound text htext))
    exact ⟨x, hx, h.finite text htext x (.inr hx)⟩

/-- Where all names are bound, both texts are compared with the first one under a limit that drops all digits. -/
theorem exceedsLimit_congr_of_covers (h : b.Alike b' formula.toList) (hcovers : b.Covers formula.toList)
    (hcovers' : b'.Covers formula.toList) (hlength : Fits limits b formula ↔ Fits limits b' formula)
    (hno : NoOverflow (evaluate limits b formula)) (hno' : NoOverflow (evaluate limits b' formula)) :
    ExceedsLimit (evaluate limits b formula) ↔ ExceedsLimit (evaluate limits b' formula) := by
  have hb := substitute_of_covers hcovers
  have hb' := substitute_of_covers hcovers'
  rw [fits_iff hb, fits_iff hb'] at hlength
  rw [exceedsLimit_evaluate_iff hb, exceedsLimit_evaluate_iff hb']
  rw [noOverflow_evaluate_iff hb] at hno
  rw [noOverflow_evaluate_iff hb'] at hno'
  by_cases hfits : limits.checkLength (String.ofList (spliced b formula.toList)).toList.length = .ok ()
  · have hskeleton : skeleton? .gap (String.ofList (spliced b formula.toList)).toList =
        skeleton? .gap (String.ofList (spliced b' formula.toList)).toList := by
      rw [String.toList_ofList, String.toList_ofList]
      exact skeleton?_spliced h hcovers fun hne => absurd rfl hne
    exact (exceedsLimit_parse hfits hfits rfl hno).symm.trans
      (exceedsLimit_parse hfits (hlength.1 hfits) hskeleton hno')
  · exact iff_of_true (exceedsLimit_of_checkLength hfits) (exceedsLimit_of_checkLength (mt hlength.2 hfits))

/-- Alike values exceed limits alike if their texts fit the limit of length alike. -/
theorem exceedsLimit_congr (h : b.Alike b' formula.toList) (hlength : Fits limits b formula ↔ Fits limits b' formula)
    (hno : NoOverflow (evaluate limits b formula)) (hno' : NoOverflow (evaluate limits b' formula)) :
    ExceedsLimit (evaluate limits b formula) ↔ ExceedsLimit (evaluate limits b' formula) := by
  by_cases hbound : ∀ text, .name text ∈ pieces formula.toList → (b (String.ofList text)).isSome = true
  · obtain ⟨hcovers, hcovers'⟩ := h.covers hbound
    exact exceedsLimit_congr_of_covers h hcovers hcovers' hlength hno hno'
  push Not at hbound
  obtain ⟨text, htext, hnone⟩ := hbound
  have hunbound : b (String.ofList text) = none := by simpa using hnone
  have hunbound' : b' (String.ofList text) = none := by
    have hsame := h.bound text htext
    rw [hunbound] at hsame
    simpa using hsame.symm
  have hb := substitute_of_not_isNaN fun text htext x hx => Double.isNaN_of_isFinite (h.finite text htext x (.inl hx))
  have hb' := substitute_of_not_isNaN fun text htext x hx => Double.isNaN_of_isFinite (h.finite text htext x (.inr hx))
  rw [fits_iff hb, fits_iff hb'] at hlength
  rw [exceedsLimit_evaluate_iff hb, exceedsLimit_evaluate_iff hb',
    exceedsLimit_of_unbound htext hunbound (String.toList_ofList ..),
    exceedsLimit_of_unbound htext hunbound' (String.toList_ofList ..)]
  exact not_congr hlength

end Evaluate

/-! ## Well-formed formulas -/

/-- The numeral that spells a value. -/
def valueNumeral (x : Double) : Numeral :=
  match (valueLexemes x).getLast? with
  | some (.number n) => n
  | _ => ⟨['0'], none⟩

/-- The minus sign in the text of a value. -/
def Atom.minuses (b : Bindings) : Atom → Nat
  | number _ => 0
  | name text => if ((b (String.ofList text)).getD .nan).isNegative then 1 else 0

/-- The lexemes in the place of an atom: minus signs and a number. -/
def Atom.spelled (b : Bindings) : Atom → List Lexeme
  | number n => [.number n]
  | name text => List.replicate (minuses b (.name text)) .minus ++
      [.number (valueNumeral ((b (String.ofList text)).getD .nan))]

def Symbol.spelled (b : Bindings) : Symbol → List Lexeme
  | token t => [t.lexeme]
  | name text _ => Atom.spelled b (.name text)

namespace Derivation

variable {limits : Limits} {b : Bindings} {formula : String} {c : Category}

/-- A value adds one level at most. -/
theorem nestingWith_bounds {α : Type} {minuses : α → Nat} (h : ∀ a, minuses a ≤ 1) (d : Derivation α c) :
    d.nesting ≤ d.nestingWith minuses ∧ d.nestingWith minuses ≤ d.nesting + 1 := by
  induction d with
  | atom a position => exact ⟨Nat.zero_le _, h a⟩
  | negation position operand ih => exact ⟨Nat.succ_le_succ ih.1, Nat.succ_le_succ ih.2⟩
  | brackets opening inner closing ih => exact ⟨Nat.succ_le_succ ih.1, Nat.succ_le_succ ih.2⟩
  | factor only ih => exact ih
  | product left sign position right ihl ihr =>
    simp only [nesting, nestingWith]
    omega
  | term only ih => exact ih
  | sum left sign position right ihl ihr =>
    simp only [nesting, nestingWith]
    omega

/-- With the values in the place of its names, a derivation has these lexemes. -/
theorem flatMap_lexemes_named {d : Derivation Atom c} (hb : b.CoversNames d) :
    d.named.flatMap (Symbol.lexemes b) = d.lexemes (Atom.spelled b) := by
  have hsymbols : d.named.flatMap (Symbol.lexemes b) = d.named.flatMap (Symbol.spelled b) := by
    refine List.flatMap_congr fun u hu => ?_
    cases u with
    | token t => rfl
    | name text position =>
      obtain ⟨x, hx, hfinite⟩ := hb text position hu
      obtain ⟨n, hn⟩ := exists_spells_isNegative hfinite
      have hlexemes := valueLexemes_of_spells hn
      have hnumeral : valueNumeral x = n := by
        rw [valueNumeral, hlexemes, List.getLast?_concat]
      rw [Symbol.lexemes, Symbol.spelled, Atom.spelled, Atom.minuses, hx, Option.getD_some, hlexemes, hnumeral]
      cases x.isNegative <;> rfl
  rw [hsymbols]
  refine d.flatMap_symbols (fun a position => ?_) fun lexeme position => rfl
  cases a <;> rfl

/-- What is read in the place of a derivation with names is derived, and nests as deep as the values make it. -/
theorem exists_tokens_nesting {d : Derivation Atom .expression} {ts : List Token} (hb : b.CoversNames d)
    (hts : ts.map (·.lexeme) = d.named.flatMap (Symbol.lexemes b)) :
    ∃ d' : Derivation Numeral .expression, d'.tokens = ts ∧ d'.nesting = d.nestingWith (Atom.minuses b) := by
  have hspell (a : Atom) : ∃ n, a.spelled b = List.replicate (a.minuses b) .minus ++ [.number n] := by
    cases a with
    | number n => exact ⟨n, rfl⟩
    | name text => exact ⟨_, rfl⟩
  have hleads : Shape.Leads .initial (d.lexemes (Atom.spelled b)) (.operator []) (0 + d.nestingWith (Atom.minuses b)) :=
    d.leads hspell 0 [] fun _ => rfl
  rw [← flatMap_lexemes_named hb, ← hts, Nat.zero_add] at hleads
  obtain ⟨d', rfl⟩ := wellFormed_iff.2 hleads.run
  exact ⟨d', rfl, d'.leads_tokens.peak.symm.trans hleads.peak⟩

end Derivation

/-- A formula that is derived is too deep if its derivation nests deeper than the limit. -/
theorem exceedsLimit_parse_of_derivation {limits : Limits} {text : String} {d : Derivation Numeral .expression}
    (hlength : limits.checkLength text.toList.length = .ok ()) (hdigits : 0 ≤ limits.digits)
    (hscan : scan 0 text.toList = .ok d.tokens) :
    ExceedsLimit (parse limits text) ↔ ¬ limits.Admits d.nesting := by
  by_cases hadmits : limits.Admits d.nesting
  · have hparse := parse_of_derivation hlength hscan (countable_of_digits hdigits _) hadmits
    rw [hparse]
    exact iff_of_false (not_exceedsLimit_ok _) (not_not_intro hadmits)
  · refine iff_of_true ?_ hadmits
    have hwide : parse { limits with nesting := d.nesting } text = .ok _ :=
      parse_of_derivation hlength hscan (countable_of_digits hdigits _) (.inr le_rfl)
    have hunbounded : Unbounded { limits with nesting := d.nesting } text := fun _ _ h => by cases hwide.symm.trans h
    have hcut := parse_eq_of_unbounded hunbounded
    split at hcut
    · -- the reading was not cut, so its derivation, which nests as deep, is admitted
      obtain ⟨-, d', hscan', -, hadmits', -⟩ := derivation_of_parse (hcut.trans hwide)
      have htokens : d.tokens = d'.tokens := Except.ok.inj (hscan.symm.trans hscan')
      rw [← nesting_eq_of_tokens_eq htokens] at hadmits'
      exact absurd hadmits' hadmits
    · exact ⟨_, _, _, hcut⟩

section Evaluate

variable {limits : Limits} {b b' : Bindings} {formula : String} {d : Derivation Atom .expression}

/-- A formula of the grammar exceeds a limit if it is too long with the values in the place of its names, or nests too
deep with a level more for a negative value. -/
theorem exceedsLimit_of_derivation (hd : scanNames 0 formula.toList = .ok d.named) (hb : b.Covers formula.toList)
    (hno : NoOverflow (evaluate limits b formula)) :
    ExceedsLimit (evaluate limits b formula) ↔
      ¬ Fits limits b formula ∨ ¬ limits.Admits (d.nestingWith (Atom.minuses b)) := by
  have hnames : b.CoversNames d := fun text position h => hb text (mem_pieces_of_scanNames hd h)
  obtain ⟨ts, hts, hlexemes⟩ := scans_spliced hd d.isChain_named hb 0
  obtain ⟨d', rfl, hnesting⟩ := Derivation.exists_tokens_nesting hnames hlexemes
  have hsubstitute := substitute_of_covers hb
  rw [noOverflow_evaluate_iff hsubstitute] at hno
  rw [exceedsLimit_evaluate_iff hsubstitute, fits_iff hsubstitute, ← hnesting]
  rw [← String.toList_ofList (l := spliced b formula.toList)] at hts
  by_cases hfits : limits.checkLength (String.ofList (spliced b formula.toList)).toList.length = .ok ()
  · rw [or_iff_right (not_not_intro hfits)]
    exact (exceedsLimit_parse hfits hfits rfl hno).symm.trans (exceedsLimit_parse_of_derivation hfits le_rfl hts)
  · exact iff_of_true (exceedsLimit_of_checkLength hfits) (.inl hfits)

/-- A formula that fits is not rejected if it nests less deep than the limit, or as deep at most without a negative
value. -/
theorem not_exceedsLimit_of_derivation (hd : scanNames 0 formula.toList = .ok d.named) (hb : b.Covers formula.toList)
    (hno : NoOverflow (evaluate limits b formula)) (hfits : Fits limits b formula)
    (hnesting : (d.nesting : Int) < limits.nesting ∨
      limits.Admits d.nesting ∧ ∀ name ∈ names formula, ∀ x, b name = some x → x.isNegative = false) :
    ¬ ExceedsLimit (evaluate limits b formula) := by
  rcases hnesting with hless | ⟨hadmits, hsigns⟩
  · rw [exceedsLimit_of_derivation hd hb hno, not_or, not_not, not_not]
    have hminuses (a : Atom) : a.minuses b ≤ 1 := by
      cases a with
      | number n => exact Nat.zero_le 1
      | name text =>
        rw [Atom.minuses]
        split <;> decide
    have hdeeper := (d.nestingWith_bounds hminuses).2
    exact ⟨hfits, .inr (by omega)⟩
  · -- the negative values of other names do not matter
    let b₀ : Bindings := fun name => (b name).filter fun x => !x.isNegative
    have hsame : ∀ name ∈ names formula, b₀ name = b name := by
      intro name hname
      have hsign := hsigns name hname
      show (b name).filter _ = b name
      cases hx : b name with
      | none => rfl
      | some x => simp [Option.filter, hsign x hx]
    have hb₀ : b₀.Covers formula.toList := fun text htext => by
      obtain ⟨x, hx, hfinite⟩ := hb text htext
      exact ⟨x, (hsame _ (mem_names.2 ⟨text, htext, rfl⟩)).trans hx, hfinite⟩
    have hminuses : Atom.minuses b₀ = fun _ => 0 := by
      funext a
      cases a with
      | number n => rfl
      | name text =>
        refine if_neg ?_
        cases hx : b₀ (String.ofList text) with
        | none => decide
        | some x => simpa using (Option.filter_eq_some_iff.1 hx).2
    rw [Fits, ← substitute_congr hsame] at hfits
    rw [← evaluate_congr hsame] at hno ⊢
    rw [exceedsLimit_of_derivation hd hb₀ hno, hminuses, d.nestingWith_zero, not_or, not_not, not_not]
    exact ⟨hfits, hadmits⟩

/-- Finite values of the same names and signs exceed limits alike, if their texts fit the limit of length alike and
agree in having a point where they touch a digit or a point. A formula of the grammar exceeds a limit if it is too long
with the values in the place of its names, or nests too deep with a level more for a negative value; so never, if it is
neither, and nests less deep than the limit or has no negative value. -/
theorem exceedsLimit_evaluate {limits : Limits} {b : Bindings} {formula : String}
    (hno : NoOverflow (evaluate limits b formula)) :
    (∀ b' : Bindings, b.Alike b' formula.toList → (Fits limits b formula ↔ Fits limits b' formula) →
      NoOverflow (evaluate limits b' formula) →
      (ExceedsLimit (evaluate limits b formula) ↔ ExceedsLimit (evaluate limits b' formula))) ∧
    ∀ d : Derivation Atom .expression, scanNames 0 formula.toList = .ok d.named → b.Covers formula.toList →
      (ExceedsLimit (evaluate limits b formula) ↔
        ¬ Fits limits b formula ∨ ¬ limits.Admits (d.nestingWith (Atom.minuses b))) ∧
      (Fits limits b formula →
        (d.nesting : Int) < limits.nesting ∨
          limits.Admits d.nesting ∧ (∀ name ∈ names formula, ∀ x, b name = some x → x.isNegative = false) →
        ¬ ExceedsLimit (evaluate limits b formula)) :=
  ⟨fun _ h hlength hno' => exceedsLimit_congr h hlength hno hno', fun _ hd hb =>
    ⟨exceedsLimit_of_derivation hd hb hno, fun hfits hnesting =>
      not_exceedsLimit_of_derivation hd hb hno hfits hnesting⟩⟩

end Evaluate

/-- A negative value behind a sign needs a level, whatever its digits. -/
theorem exceedsLimit_evaluate_difference :
    ExceedsLimit (evaluate { nesting := 0 } (fun _ => some (.ofInt (-5))) "3-x") ∧
      ExceedsLimit (evaluate { nesting := 0 } (fun _ => some (.ofRatio true 1 4)) "3-x") ∧
      ¬ ExceedsLimit (evaluate { nesting := 1 } (fun _ => some (.ofInt (-5))) "3-x") := by
  let d : Derivation Atom .expression :=
    .sum (.term (.factor (.atom (.number ⟨['3'], none⟩) 0))) .minus 1 (.factor (.atom (.name ['x']) 2))
  have hd : scanNames 0 "3-x".toList = .ok d.named := by decide +kernel
  have hpieces : pieces "3-x".toList = [.gap '3', .gap '-', .name ['x']] := by decide +kernel
  have hb : Bindings.Covers (fun _ => some (.ofInt (-5))) "3-x".toList := fun _ _ => ⟨_, rfl, by decide +kernel⟩
  have halike : Bindings.Alike (fun _ => some (.ofInt (-5))) (fun _ => some (.ofRatio true 1 4)) "3-x".toList := by
    refine ⟨fun _ _ => (Option.isSome_some).trans Option.isSome_some.symm,
      fun _ _ x hx => ?_, fun _ _ x y hx hy => ?_, ?_⟩
    · rcases hx with hx | hx <;> obtain rfl := Option.some.inj hx <;> decide +kernel
    · obtain rfl := Option.some.inj hx
      obtain rfl := Option.some.inj hy
      decide +kernel
    · rw [hpieces]
      decide +kernel
  have hfits (limits : Limits) (hlength : limits.length = none) (b : Bindings) : Fits limits b "3-x" := by
    intro text _
    rw [Limits.checkLength, hlength]
  have hno (limits : Limits) (hdigits : 0 ≤ limits.digits) (b : Bindings) : NoOverflow (evaluate limits b "3-x") :=
    noOverflow_evaluate hdigits b "3-x"
  obtain ⟨hsame, hderived⟩ := exceedsLimit_evaluate (hno { nesting := 0 } (by decide) fun _ => some (.ofInt (-5)))
  have hdeep : ExceedsLimit (evaluate { nesting := 0 } (fun _ => some (.ofInt (-5))) "3-x") :=
    (hderived d hd hb).1.2 (.inr (by unfold Limits.Admits; decide +kernel))
  refine ⟨hdeep, (hsame _ halike ?_ (hno _ (by decide) _)).1 hdeep, ?_⟩
  · exact iff_of_true (hfits _ rfl _) (hfits _ rfl _)
  · obtain ⟨-, hroom⟩ := exceedsLimit_evaluate (hno { nesting := 1 } (by decide) fun _ => some (.ofInt (-5)))
    exact (hroom d hd hb).2 (hfits _ rfl _) (.inl (by decide))

/-- Of two finite values of one name, one exceeds a limit and the other does not: for its sign, for the length of its
text, or for a point that goes on with the number of the one only. -/
theorem exceedsLimit_evaluate_values :
    let b (x : Double) : Bindings := fun name => if name = "x" then some x else none
    (∀ x ∈ [.ofInt 5, .ofInt (-5), .ofRatio false 1 4, .ofInt (10 ^ 16)], Double.isFinite x = true) ∧
    (evaluate { nesting := 0 } (b (.ofInt 5)) "x" = .ok (.ofInt 5) ∧
      evaluate { nesting := 0 } (b (.ofInt (-5))) "x" = .error (.limitExceeded .nesting 0 1)) ∧
    (evaluate { length := some 3 } (b (.ofInt 5)) "x" = .ok (.ofInt 5) ∧
      evaluate { length := some 3 } (b (.ofRatio false 1 4)) "x" = .error (.limitExceeded .length 3 4)) ∧
    evaluate { nesting := 0 } (b (.ofInt 5)) "x.5+-1" = .error (.strayCharacter '.' 3 "5.0.5+-1") ∧
      evaluate { nesting := 0 } (b (.ofInt (10 ^ 16))) "x.5+-1" = .error (.limitExceeded .nesting 0 1) := by
  decide +kernel

end Stylesheet.Formula
