/-
The shape of what is open. Which tokens can stand at a place, and how many brackets and minus signs are open there,
does not depend on the operands that have been read, so the parser's steps are steps of shapes
(`State.map_shape_step`). The lexemes of a derivation lead from an operand to the operator behind it, and on the way
as many brackets and minus signs are open as it nests deep (`Derivation.leads`). So the tokens that are derived are
those that lead to the end of a formula (`wellFormed_iff`), and every shape can be led there.
-/
import Mathlib.Tactic
import Stylesheet.Proofs.Formula.Parse

namespace Stylesheet.Formula

open Stylesheet.Text (Numeral)

/-! ## Shapes -/

/-- What is open between two tokens, by number: the minus signs before an operand that has to follow and, innermost
first, those in front of every open bracket. -/
inductive Shape
  | operand (minuses : Nat) (outer : List Nat)
  | operator (outer : List Nat)
deriving DecidableEq, Repr

namespace Shape

def initial : Shape := .operand 0 []

/-- Brackets and minus signs that are open. -/
def depth : Shape → Nat
  | operand minuses outer => minuses + (outer.map (· + 1)).sum
  | operator outer => (outer.map (· + 1)).sum

/-- The shape behind a lexeme, if it can stand here. -/
def next? : Shape → Lexeme → Option Shape
  | operand _ outer, .number _ => some (operator outer)
  | operand minuses outer, .minus => some (operand (minuses + 1) outer)
  | operand minuses outer, .openBracket => some (operand 0 (minuses :: outer))
  | operator outer, .plus => some (operand 0 outer)
  | operator outer, .minus => some (operand 0 outer)
  | operator outer, .star => some (operand 0 outer)
  | operator outer, .slash => some (operand 0 outer)
  | operator (_ :: outer), .closeBracket => some (operator outer)
  | _, _ => none

theorem depth_le_of_next? {shape next : Shape} {lexeme : Lexeme} (h : shape.next? lexeme = some next) :
    next.depth ≤ shape.depth + 1 := by
  unfold next? at h
  split at h <;> cases h <;> simp only [depth, List.map_cons, List.sum_cons] <;> omega

/-- What the limits say to a lexeme that can stand here: a bracket or minus sign in front of an operand is open with
the others, and a number is filled up with zeros. -/
def check (limits : Limits) (shape : Shape) : Lexeme → Except Error Unit
  | .number n => limits.checkZeros n
  | .minus => match shape with
    | operand .. => limits.checkNesting (shape.depth + 1)
    | operator _ => .ok ()
  | .openBracket => limits.checkNesting (shape.depth + 1)
  | _ => .ok ()

/-- Why a token cannot stand here. -/
def refusal (formula : String) : Shape → Token → Error
  | operator (_ :: _), t => .missingBracket t.position formula
  | _, t => .unexpectedToken (String.ofList t.lexeme.text) t.position formula

/-- The shape behind a token, unless a limit is exceeded. -/
def step (limits : Limits) (formula : String) (shape : Shape) (t : Token) : Except Error Shape :=
  match shape.next? t.lexeme with
  | none => .error (shape.refusal formula t)
  | some next => (shape.check limits t.lexeme).map fun _ => next

/-- The end of the formula. -/
def finish (formula : String) : Shape → Except Error Unit
  | operand .. => .error (.unexpectedEnd formula.toList.length formula)
  | operator [] => .ok ()
  | operator (_ :: _) => .error (.missingBracket formula.toList.length formula)

end Shape

/-! ## The steps of the parser -/

namespace State

variable {limits : Limits} {formula : String}

def shape : State → Shape
  | operand level outer => .operand level.minuses.length (outer.map (·.minuses.length))
  | operator _ _ outer => .operator (outer.map (·.minuses.length))

theorem depth_eq (level : Level) (outer : List Level) : depth level outer = (operand level outer).shape.depth := by
  have houter : outer.foldr (fun l n => l.minuses.length + 1 + n) 0 =
      ((outer.map (·.minuses.length)).map (· + 1)).sum := by
    induction outer with
    | nil => rfl
    | cons l outer ih => rw [List.foldr_cons, ih]; rfl
  rw [depth, houter]
  rfl

/-- The parser's steps are those of the shapes. -/
theorem map_shape_step (s : State) (t : Token) :
    (step limits formula s t).map shape = s.shape.step limits formula t := by
  obtain ⟨lexeme, position⟩ := t
  cases s with
  | operand level outer =>
    cases lexeme with
    | number n =>
      show Except.map shape ((limits.checkZeros n).bind _) = (limits.checkZeros n).map _
      cases limits.checkZeros n <;> rfl
    | minus =>
      show Except.map shape ((limits.checkNesting (depth level outer + 1)).bind _) =
        (limits.checkNesting _).map _
      rw [depth_eq]
      cases limits.checkNesting ((operand level outer).shape.depth + 1) <;> rfl
    | openBracket =>
      show Except.map shape ((limits.checkNesting (depth level outer + 1)).bind _) =
        (limits.checkNesting _).map _
      rw [depth_eq]
      cases limits.checkNesting ((operand level outer).shape.depth + 1) <;> rfl
    | plus | star | slash | closeBracket => rfl
  | operator sum term outer =>
    cases lexeme with
    | plus | minus | star | slash => rfl
    | closeBracket | number n | openBracket => cases outer <;> rfl

theorem map_finish (s : State) : (s.finish formula).map (fun _ => ()) = s.shape.finish formula := by
  cases s with
  | operand level outer => rfl
  | operator sum term outer => cases outer <;> rfl

end State

/-! ## Runs -/

namespace Shape

variable {limits : Limits} {formula : String} {shape next last : Shape} {lexeme : Lexeme} {ls ms : List Lexeme}

/-- The shape that lexemes lead to, if each of them can stand where it does. -/
def run (shape : Shape) (ls : List Lexeme) : Option Shape := ls.foldlM next? shape

theorem run_cons : shape.run (lexeme :: ls) = (shape.next? lexeme).bind fun next => next.run ls := List.foldlM_cons

theorem run_append : shape.run (ls ++ ms) = (shape.run ls).bind fun next => next.run ms := List.foldlM_append

/-- What the tokens of a formula come to. -/
def verdict (limits : Limits) (formula : String) (shape : Shape) (ts : List Token) : Except Error Unit :=
  (ts.foldlM (step limits formula) shape).bind (finish formula)

theorem verdict_cons (t : Token) (ts : List Token) :
    shape.verdict limits formula (t :: ts) =
      (shape.step limits formula t).bind fun next => next.verdict limits formula ts := by
  rw [verdict, List.foldlM_cons]
  cases shape.step limits formula t <;> rfl

/-- Every shape can be led to the end of a formula: a number ends the operand, and the brackets are closed. -/
theorem exists_run_end (shape : Shape) : ∃ ls, shape.run ls = some (operator []) := by
  have hclose (outer : List Nat) : (operator outer).run (outer.map fun _ => .closeBracket) = some (operator []) := by
    induction outer with
    | nil => rfl
    | cons minuses outer ih => exact ih
  cases shape with
  | operand minuses outer => exact ⟨.number ⟨['0'], none⟩ :: outer.map fun _ => .closeBracket, hclose outer⟩
  | operator outer => exact ⟨_, hclose outer⟩

/-- A lexeme that can stand here is refused if it opens a level beyond the limit, or has zeros beyond counting. -/
theorem check_eq_error {e : Error} (h : shape.check limits lexeme = .error e) :
    (limits.nesting < shape.depth + 1 ∧ e = .limitExceeded .nesting limits.nesting (shape.depth + 1)) ∨
      (limits.digits < 0 ∧ e = .overflow .count) := by
  have hlevel (h : limits.checkNesting (shape.depth + 1) = .error e) :
      limits.nesting < shape.depth + 1 ∧ e = .limitExceeded .nesting limits.nesting (shape.depth + 1) := by
    unfold Limits.checkNesting at h
    split at h
    · rename_i hdeep
      exact ⟨hdeep, (Except.error.inj h).symm⟩
    · cases h
  cases lexeme with
  | number n =>
    rw [check, Limits.checkZeros] at h
    split at h
    · cases h
    · rename_i hcount
      exact .inr ⟨by omega, (Except.error.inj h).symm⟩
  | minus =>
    cases shape with
    | operand minuses outer => exact .inl (hlevel h)
    | operator outer => cases h
  | openBracket => exact .inl (hlevel h)
  | plus | star | slash | closeBracket => cases h

/-- With room for as many levels as there are tokens, no limit is exceeded. -/
theorem verdict_of_run {ts : List Token} (hdigits : 0 ≤ limits.digits)
    (hnesting : ((shape.depth + ts.length : Nat) : Int) ≤ limits.nesting)
    (h : shape.run (ts.map (·.lexeme)) = some (operator [])) : shape.verdict limits formula ts = .ok () := by
  induction ts generalizing shape with
  | nil =>
    obtain rfl := Option.some.inj h
    rfl
  | cons t ts ih =>
    rw [List.map_cons, run_cons] at h
    obtain ⟨next, hnext, h⟩ := Option.bind_eq_some_iff.1 h
    have hdepth := depth_le_of_next? hnext
    rw [List.length_cons] at hnesting
    have hrest : next.verdict limits formula ts = .ok () := ih (by omega) h
    rw [verdict_cons, step, hnext]
    dsimp only
    cases hcheck : shape.check limits t.lexeme with
    | ok _ => exact hrest
    | error e => rcases check_eq_error hcheck with ⟨hdeep, -⟩ | ⟨hnegative, -⟩ <;> omega

end Shape

theorem map_parseTokens {limits : Limits} {formula : String} (ts : List Token) :
    (parseTokens limits formula ts).map (fun _ => ()) = Shape.initial.verdict limits formula ts := by
  have hrun : (ts.foldlM (State.step limits formula) State.initial).map State.shape =
      ts.foldlM (Shape.step limits formula) Shape.initial := map_foldlM State.map_shape_step ts State.initial
  rw [Shape.verdict, ← hrun, parseTokens]
  cases ts.foldlM (State.step limits formula) State.initial with
  | error e => rfl
  | ok s => exact s.map_finish

/-! ## The way of a derivation -/

namespace Shape

/-- The most that is open on the way through lexemes, or up to the first that cannot stand where it does. -/
def peak (shape : Shape) : List Lexeme → Nat
  | [] => shape.depth
  | lexeme :: ls =>
    match shape.next? lexeme with
    | some next => max shape.depth (next.peak ls)
    | none => shape.depth

/-- The lexemes lead from one shape to the other, with at most so much open on the way. -/
structure Leads (shape : Shape) (ls : List Lexeme) (last : Shape) (peak : Nat) : Prop where
  run : shape.run ls = some last
  peak : shape.peak ls = peak

variable {shape next last : Shape} {lexeme : Lexeme} {ls ms : List Lexeme} {m n : Nat}

theorem peak_cons (h : shape.next? lexeme = some next) :
    shape.peak (lexeme :: ls) = max shape.depth (next.peak ls) := by
  rw [peak, h]

theorem depth_le_peak (shape : Shape) (ls : List Lexeme) : shape.depth ≤ shape.peak ls := by
  cases ls with
  | nil => exact le_rfl
  | cons lexeme ls =>
    rw [peak]
    split
    · exact le_max_left ..
    · exact le_rfl

theorem leads_nil (shape : Shape) : Leads shape [] shape shape.depth := ⟨rfl, rfl⟩

theorem Leads.congr (h : Leads shape ls last m) (hpeak : m = n) : Leads shape ls last n := hpeak ▸ h

theorem Leads.cons (h : shape.next? lexeme = some next) (hl : Leads next ls last n) :
    Leads shape (lexeme :: ls) last (max shape.depth n) := by
  refine ⟨?_, ?_⟩
  · rw [run_cons, h]
    exact hl.run
  · rw [peak_cons h, hl.peak]

theorem Leads.append (hl : Leads shape ls next m) (hm : Leads next ms last n) :
    Leads shape (ls ++ ms) last (max m n) := by
  obtain ⟨hrun, rfl⟩ := hl
  refine ⟨by rw [run_append, hrun]; exact hm.run, ?_⟩
  induction ls generalizing shape with
  | nil =>
    obtain rfl := Option.some.inj hrun
    rw [List.nil_append, hm.peak, Shape.peak, max_eq_right]
    exact (depth_le_peak _ ms).trans_eq hm.peak
  | cons lexeme ls ih =>
    rw [run_cons] at hrun
    obtain ⟨middle, hmiddle, hrun⟩ := Option.bind_eq_some_iff.1 hrun
    rw [List.cons_append, peak_cons hmiddle, peak_cons hmiddle, ih hrun, max_assoc]

end Shape

namespace Derivation

variable {α : Type} {c : Category}

/-- The lexemes of a derivation whose atoms are spelled with these. -/
def lexemes (spell : α → List Lexeme) (d : Derivation α c) : List Lexeme :=
  (d.symbols (fun a _ => spell a) fun lexeme _ => [lexeme]).flatten

/-- Brackets and minus signs around the innermost atom, with those that the spelling of an atom adds. -/
def nestingWith (minuses : α → Nat) {c : Category} : Derivation α c → Nat
  | .atom a _ => minuses a
  | .negation _ operand => operand.nestingWith minuses + 1
  | .brackets _ inner _ => inner.nestingWith minuses + 1
  | .factor only => only.nestingWith minuses
  | .product left _ _ right => max (left.nestingWith minuses) (right.nestingWith minuses)
  | .term only => only.nestingWith minuses
  | .sum left _ _ right => max (left.nestingWith minuses) (right.nestingWith minuses)

theorem nestingWith_zero (d : Derivation α c) : d.nestingWith (fun _ => 0) = d.nesting := by
  induction d with
  | atom a position => rfl
  | negation position operand ih => rw [nestingWith, ih]; rfl
  | brackets opening inner closing ih => rw [nestingWith, ih]; rfl
  | factor only ih => exact ih
  | product left sign position right ihl ihr => rw [nestingWith, ihl, ihr]; rfl
  | term only ih => exact ih
  | sum left sign position right ihl ihr => rw [nestingWith, ihl, ihr]; rfl

/-- What is written symbol by symbol. -/
theorem flatMap_symbols {β : Type} {atom : α → Nat → β} {mark : Lexeme → Nat → β} {write : β → List Lexeme}
    {spell : α → List Lexeme} (hatom : ∀ a position, write (atom a position) = spell a)
    (hmark : ∀ lexeme position, write (mark lexeme position) = [lexeme]) (d : Derivation α c) :
    (d.symbols atom mark).flatMap write = d.lexemes spell := by
  rw [lexemes, List.flatMap_def]
  congr 1
  induction d with
  | atom a position => simp only [symbols, List.map_singleton, hatom]
  | negation position operand ih => simp only [symbols, List.map_cons, hmark, ih]
  | brackets opening inner closing ih =>
    simp only [symbols, List.map_cons, List.map_append, List.map_nil, hmark, ih]
  | factor only ih => exact ih
  | product left sign position right ihl ihr => simp only [symbols, List.map_cons, List.map_append, hmark, ihl, ihr]
  | term only ih => exact ih
  | sum left sign position right ihl ihr => simp only [symbols, List.map_cons, List.map_append, hmark, ihl, ihr]

theorem map_lexeme_tokens (d : Derivation Numeral c) : d.tokens.map (·.lexeme) = d.lexemes fun n => [.number n] := by
  have hwrite (lexeme : Lexeme) (position : Nat) : [(Token.mk lexeme position).lexeme] = [lexeme] := rfl
  rw [List.map_eq_flatMap]
  exact d.flatMap_symbols (fun n position => hwrite (.number n) position) hwrite

section Leads

variable {spell : α → List Lexeme} {minuses : α → Nat}

theorem lexemes_mark (left : List (List Lexeme)) (mark : Lexeme) (right : List (List Lexeme)) :
    (left ++ [mark] :: right).flatten = left.flatten ++ mark :: right.flatten := by
  rw [List.flatten_append, List.flatten_cons]
  rfl

/-- Minus signs in front of a number are an operand. -/
theorem leads_spelled (k m : Nat) (outer : List Nat) (n : Numeral) :
    Shape.Leads (.operand m outer) (List.replicate k .minus ++ [.number n]) (.operator outer)
      ((Shape.operand m outer).depth + k) := by
  induction k generalizing m with
  | zero =>
    have hnumber : Shape.Leads (.operand m outer) [.number n] (.operator outer) _ := .cons rfl (Shape.leads_nil _)
    refine hnumber.congr ?_
    simp only [Shape.depth]
    omega
  | succ k ih =>
    have hminus : Shape.Leads (.operand m outer) (.minus :: (List.replicate k .minus ++ [.number n])) _ _ :=
      .cons rfl (ih (m + 1))
    refine hminus.congr ?_
    simp only [Shape.depth]
    omega

/-- From an operand to the operator behind it, as much is open as the derivation nests deep. A term or expression
stands where no minus sign waits. -/
theorem leads (hspell : ∀ a, ∃ n, spell a = List.replicate (minuses a) .minus ++ [.number n]) {c : Category}
    (d : Derivation α c) (m : Nat) (outer : List Nat) (hm : c ≠ .factor → m = 0) :
    Shape.Leads (.operand m outer) (d.lexemes spell) (.operator outer)
      ((Shape.operand m outer).depth + d.nestingWith minuses) := by
  induction d generalizing m outer with
  | atom a position =>
    obtain ⟨n, hn⟩ := hspell a
    show Shape.Leads _ (spell a ++ []) _ _
    rw [List.append_nil, hn]
    exact leads_spelled (minuses a) m outer n
  | negation position operand ih =>
    have hoperand := ih (m + 1) outer fun h => absurd rfl h
    have hminus : Shape.Leads (.operand m outer) (.minus :: operand.lexemes spell) _ _ := .cons rfl hoperand
    refine hminus.congr ?_
    simp only [Shape.depth, nestingWith]
    omega
  | brackets opening inner closing ih =>
    have hinner := ih 0 (m :: outer) fun _ => rfl
    have hclose : Shape.Leads (.operator (m :: outer)) [.closeBracket] (.operator outer) _ :=
      .cons rfl (Shape.leads_nil _)
    have hopen : Shape.Leads (.operand m outer) (.openBracket :: (inner.lexemes spell ++ [.closeBracket])) _ _ :=
      .cons rfl (hinner.append hclose)
    have hlexemes : (brackets opening inner closing).lexemes spell = .openBracket ::
        (inner.lexemes spell ++ [.closeBracket]) :=
      congrArg (Lexeme.openBracket :: ·) (lexemes_mark _ _ [])
    rw [hlexemes]
    refine hopen.congr ?_
    simp only [Shape.depth, nestingWith, List.map_cons, List.sum_cons]
    omega
  | factor only ih =>
    obtain rfl := hm (by simp)
    exact ih 0 outer fun h => absurd rfl h
  | product left sign position right ihl ihr =>
    obtain rfl := hm (by simp)
    have hsign : (Shape.operator outer).next? sign.lexeme = some (.operand 0 outer) := by cases sign <;> rfl
    have hright : Shape.Leads (.operator outer) (sign.lexeme :: right.lexemes spell) _ _ :=
      .cons hsign (ihr 0 outer fun h => absurd rfl h)
    have hlexemes : (product left sign position right).lexemes spell =
        left.lexemes spell ++ sign.lexeme :: right.lexemes spell := lexemes_mark _ _ _
    rw [hlexemes]
    refine ((ihl 0 outer fun _ => rfl).append hright).congr ?_
    simp only [Shape.depth, nestingWith]
    omega
  | term only ih =>
    obtain rfl := hm (by simp)
    exact ih 0 outer fun _ => rfl
  | sum left sign position right ihl ihr =>
    obtain rfl := hm (by simp)
    have hsign : (Shape.operator outer).next? sign.lexeme = some (.operand 0 outer) := by cases sign <;> rfl
    have hright : Shape.Leads (.operator outer) (sign.lexeme :: right.lexemes spell) _ _ :=
      .cons hsign (ihr 0 outer fun _ => rfl)
    have hlexemes : (sum left sign position right).lexemes spell =
        left.lexemes spell ++ sign.lexeme :: right.lexemes spell := lexemes_mark _ _ _
    rw [hlexemes]
    refine ((ihl 0 outer fun _ => rfl).append hright).congr ?_
    simp only [Shape.depth, nestingWith]
    omega

/-- The tokens of a derivation lead through a whole formula, as deep as it nests. -/
theorem leads_tokens (d : Derivation Numeral .expression) :
    Shape.Leads .initial (d.tokens.map (·.lexeme)) (.operator []) d.nesting := by
  have hspell (n : Numeral) : ∃ m, [Lexeme.number n] = List.replicate ((fun _ => 0) n) .minus ++ [.number m] := ⟨n, rfl⟩
  have hleads : Shape.Leads .initial (d.lexemes fun n => [.number n]) (.operator []) (0 + d.nestingWith fun _ => 0) :=
    d.leads hspell 0 [] fun _ => rfl
  rwa [← map_lexeme_tokens, nestingWith_zero, Nat.zero_add] at hleads

end Leads

end Derivation

/-- The tokens are those of a formula, whatever the limits say to it. -/
def WellFormed (ts : List Token) : Prop := ∃ d : Derivation Numeral .expression, d.tokens = ts

/-- The tokens of formulas are those that lead to the end of one. -/
theorem wellFormed_iff {ts : List Token} :
    WellFormed ts ↔ Shape.initial.run (ts.map (·.lexeme)) = some (.operator []) := by
  constructor
  · rintro ⟨d, rfl⟩
    exact d.leads_tokens.run
  · intro h
    -- a parser with room enough reads them
    let limits : Limits := { nesting := (Shape.initial.depth + ts.length : Nat) }
    have hverdict : Shape.initial.verdict limits "" ts = .ok () :=
      Shape.verdict_of_run (show (0 : Int) ≤ 38 by decide) le_rfl h
    rw [← map_parseTokens] at hverdict
    obtain ⟨e, he, -⟩ := except_map_ok hverdict
    exact derivation_of_parseTokens he

end Stylesheet.Formula
