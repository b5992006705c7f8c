/-
The parser reads the grammar. A derivation drives it from the operand it starts with to the operand it
ends with, as far as the nesting is admitted (`runs_iff`); and whatever the parser has read is at any
time a sequence of derivations that wait for a right operand (`State.Reads`). So the formulas that have a
tree are the ones with a derivation, and the tree is that of the derivation.
-/
import Mathlib.Tactic
import Stylesheet.Proofs.Formula.Grammar
import Stylesheet.Proofs.Formula.Substitution

namespace Stylesheet.Formula

open Stylesheet.Text (Numeral)

variable {limits : Limits} {formula : String}

/-! ## Runs -/

/-- The tokens lead from one state to the other. -/
def Runs (limits : Limits) (formula : String) (s : State) (ts : List Token) (s' : State) : Prop :=
  ts.foldlM (State.step limits formula) s = .ok s'

theorem runs_nil {s s' : State} : Runs limits formula s [] s' ↔ s' = s := by
  constructor
  · intro h
    cases h
    rfl
  · rintro rfl
    rfl

theorem runs_cons {s s' : State} {t : Token} {ts : List Token} :
    Runs limits formula s (t :: ts) s' ↔
      ∃ s₁, State.step limits formula s t = .ok s₁ ∧ Runs limits formula s₁ ts s' := by
  unfold Runs
  rw [List.foldlM_cons]
  constructor
  · exact except_bind_ok
  · rintro ⟨s₁, hs, h⟩
    rw [hs]
    exact h

theorem runs_append {s s' : State} {ts us : List Token} :
    Runs limits formula s (ts ++ us) s' ↔ ∃ s₁, Runs limits formula s ts s₁ ∧ Runs limits formula s₁ us s' := by
  induction ts generalizing s with
  | nil => simp [runs_nil]
  | cons t ts ih =>
    rw [List.cons_append, runs_cons]
    constructor
    · rintro ⟨s₁, hs, h⟩
      obtain ⟨s₂, h₁, h₂⟩ := ih.1 h
      exact ⟨s₂, runs_cons.2 ⟨s₁, hs, h₁⟩, h₂⟩
    · rintro ⟨s₂, h₁, h₂⟩
      obtain ⟨s₁, hs, h₁⟩ := runs_cons.1 h₁
      exact ⟨s₁, hs, ih.2 ⟨s₂, h₁, h₂⟩⟩

namespace State

variable {level : Level} {outer : List Level} {s : State}

theorem step_number_iff {n : Numeral} {position : Nat} :
    step limits formula (.operand level outer) ⟨.number n, position⟩ = .ok s ↔
      limits.checkZeros n = .ok () ∧
        s = .operator level.sum (level.term (.number position (limits.numberValue n))) outer := by
  unfold step stepOperand
  dsimp only
  cases limits.checkZeros n with
  | error e => simp [bind, Except.bind]
  | ok _ => simp [bind, Except.bind, eq_comm]

theorem step_minus_iff {position : Nat} :
    step limits formula (.operand level outer) ⟨.minus, position⟩ = .ok s ↔
      ((depth level outer + 1 : Nat) : Int) ≤ limits.nesting ∧
        s = .operand { level with minuses := position :: level.minuses } outer := by
  unfold step stepOperand Limits.checkNesting
  dsimp only
  split <;> simp [bind, Except.bind, eq_comm] <;> omega

theorem step_openBracket_iff {position : Nat} :
    step limits formula (.operand level outer) ⟨.openBracket, position⟩ = .ok s ↔
      ((depth level outer + 1 : Nat) : Int) ≤ limits.nesting ∧ s = .operand {} (level :: outer) := by
  unfold step stepOperand Limits.checkNesting
  dsimp only
  split <;> simp [bind, Except.bind, eq_comm] <;> omega

theorem step_additive {sum : Option Pending} {term : Expr} (sign : Additive) (position : Nat) :
    step limits formula (.operator sum term outer) ⟨sign.lexeme, position⟩ =
      .ok (.operand { sum := some ⟨Pending.complete sum term, sign.operator, position⟩ } outer) := by
  cases sign <;> rfl

theorem step_multiplicative {sum : Option Pending} {term : Expr} (sign : Multiplicative) (position : Nat) :
    step limits formula (.operator sum term outer) ⟨sign.lexeme, position⟩ =
      .ok (.operand { sum, product := some ⟨term, sign.operator, position⟩ } outer) := by
  cases sign <;> rfl

theorem step_closeBracket {sum : Option Pending} {term : Expr} (position : Nat) :
    step limits formula (.operator sum term (level :: outer)) ⟨.closeBracket, position⟩ =
      .ok (.operator level.sum (level.term (Pending.complete sum term)) outer) := rfl

end State

/-! ## What a derivation does -/

theorem countable_append {ts us : List Token} :
    limits.Countable (ts ++ us) ↔ limits.Countable ts ∧ limits.Countable us := List.forall_mem_append

theorem countable_number {n : Numeral} {position : Nat} :
    limits.Countable [⟨.number n, position⟩] ↔ limits.checkZeros n = .ok () := by
  simp [Limits.Countable]

theorem countable_cons {t : Token} {ts : List Token} (h : ∀ n, t.lexeme ≠ .number n) :
    limits.Countable (t :: ts) ↔ limits.Countable ts := by
  simp [Limits.Countable, h]

/-- Nesting fits under what is open already. -/
def Limits.AdmitsAt (limits : Limits) (depth nesting : Nat) : Prop :=
  nesting = 0 ∨ ((depth + nesting : Nat) : Int) ≤ limits.nesting

theorem admitsAt_max {depth m n : Nat} :
    limits.AdmitsAt depth (max m n) ↔ limits.AdmitsAt depth m ∧ limits.AdmitsAt depth n := by
  unfold Limits.AdmitsAt
  omega

theorem admitsAt_succ {depth n : Nat} :
    limits.AdmitsAt depth (n + 1) ↔ ((depth + 1 : Nat) : Int) ≤ limits.nesting ∧ limits.AdmitsAt (depth + 1) n := by
  unfold Limits.AdmitsAt
  omega

namespace Derivation

/-- What waits for the last term of an expression. -/
def pending (value : Numeral → Double) : Derivation Numeral .expression → Option Pending
  | .term _ => none
  | .sum left sign position _ => some ⟨left.tree value, sign.operator, position⟩

def lastTerm (value : Numeral → Double) : Derivation Numeral .expression → Expr
  | .term only => only.tree value
  | .sum _ _ _ right => right.tree value

theorem complete_pending (value : Numeral → Double) (d : Derivation Numeral .expression) :
    Pending.complete (d.pending value) (d.lastTerm value) = d.tree value := by
  cases d <;> rfl

/-- Where the tokens of a derivation lead from an operand: a factor fits wherever one has to follow, a term
where no product is open, and an expression where nothing is. -/
def Lands (limits : Limits) (formula : String) : {c : Category} → Derivation Numeral c → Prop
  | .factor, d => ∀ level outer s, Runs limits formula (.operand level outer) d.tokens s ↔
      limits.Countable d.tokens ∧ limits.AdmitsAt (State.depth level outer) d.nesting ∧
        s = .operator level.sum (level.term (d.tree limits.numberValue)) outer
  | .term, d => ∀ sum outer s, Runs limits formula (.operand { sum } outer) d.tokens s ↔
      limits.Countable d.tokens ∧ limits.AdmitsAt (State.depth {} outer) d.nesting ∧
        s = .operator sum (d.tree limits.numberValue) outer
  | .expression, d => ∀ outer s, Runs limits formula (.operand {} outer) d.tokens s ↔
      limits.Countable d.tokens ∧ limits.AdmitsAt (State.depth {} outer) d.nesting ∧
        s = .operator (d.pending limits.numberValue) (d.lastTerm limits.numberValue) outer

theorem lands_atom (n : Numeral) (position : Nat) : (atom n position).Lands limits formula := by
  intro level outer s
  have htokens : (atom n position).tokens = [⟨.number n, position⟩] := rfl
  simp only [htokens, runs_cons, runs_nil, State.step_number_iff, countable_number]
  constructor
  · rintro ⟨s₁, ⟨hn, rfl⟩, rfl⟩
    exact ⟨hn, Or.inl rfl, rfl⟩
  · rintro ⟨hn, -, rfl⟩
    exact ⟨_, ⟨hn, rfl⟩, rfl⟩

theorem lands_negation {operand : Derivation Numeral .factor} (ih : operand.Lands limits formula) (position : Nat) :
    (negation position operand).Lands limits formula := by
  intro level outer s
  have htokens : (negation position operand).tokens = ⟨.minus, position⟩ :: operand.tokens := rfl
  have hdepth : State.depth { level with minuses := position :: level.minuses } outer =
      State.depth level outer + 1 := by
    simp only [State.depth, List.length_cons]
    omega
  rw [htokens, runs_cons, countable_cons (by simp), nesting, admitsAt_succ]
  constructor
  · rintro ⟨s₁, hs, h⟩
    obtain ⟨hfits, rfl⟩ := State.step_minus_iff.1 hs
    obtain ⟨hcount, hadmits, rfl⟩ := (ih _ _ _).1 h
    rw [hdepth] at hadmits
    exact ⟨hcount, ⟨hfits, hadmits⟩, rfl⟩
  · rintro ⟨hcount, ⟨hfits, hadmits⟩, rfl⟩
    refine ⟨_, State.step_minus_iff.2 ⟨hfits, rfl⟩, (ih _ _ _).2 ⟨hcount, ?_, rfl⟩⟩
    rwa [hdepth]

theorem lands_brackets {inner : Derivation Numeral .expression} (ih : inner.Lands limits formula)
    (opening closing : Nat) : (brackets opening inner closing).Lands limits formula := by
  intro level outer s
  have htokens : (brackets opening inner closing).tokens =
      ⟨.openBracket, opening⟩ :: (inner.tokens ++ [⟨.closeBracket, closing⟩]) := rfl
  have hdepth : State.depth {} (level :: outer) = State.depth level outer + 1 := by
    simp only [State.depth, List.length_nil, List.foldr_cons]
    omega
  have hclose : limits.Countable [⟨.closeBracket, closing⟩] := by simp [Limits.Countable]
  rw [htokens, runs_cons, countable_cons (by simp), countable_append, nesting, admitsAt_succ]
  constructor
  · rintro ⟨s₁, hs, h⟩
    obtain ⟨hfits, rfl⟩ := State.step_openBracket_iff.1 hs
    obtain ⟨s₂, hinner, h⟩ := runs_append.1 h
    obtain ⟨hcount, hadmits, rfl⟩ := (ih _ _).1 hinner
    obtain ⟨s₃, hs, h⟩ := runs_cons.1 h
    rw [State.step_closeBracket, complete_pending] at hs
    obtain rfl := Except.ok.inj hs
    rw [hdepth] at hadmits
    exact ⟨⟨hcount, hclose⟩, ⟨hfits, hadmits⟩, runs_nil.1 h⟩
  · rintro ⟨⟨hcount, -⟩, ⟨hfits, hadmits⟩, rfl⟩
    rw [← hdepth] at hadmits
    refine ⟨_, State.step_openBracket_iff.2 ⟨hfits, rfl⟩, runs_append.2 ⟨_, (ih _ _).2 ⟨hcount, hadmits, rfl⟩, ?_⟩⟩
    refine runs_cons.2 ⟨_, State.step_closeBracket closing, runs_nil.2 ?_⟩
    rw [complete_pending]
    rfl

theorem lands_product {left : Derivation Numeral .term} {right : Derivation Numeral .factor}
    (ihl : left.Lands limits formula) (ihr : right.Lands limits formula) (sign : Multiplicative) (position : Nat) :
    (product left sign position right).Lands limits formula := by
  intro sum outer s
  have htokens : (product left sign position right).tokens = left.tokens ++ ⟨sign.lexeme, position⟩ :: right.tokens :=
    rfl
  rw [htokens, runs_append, countable_append, countable_cons (by cases sign <;> simp [Multiplicative.lexeme]), nesting,
    admitsAt_max]
  constructor
  · rintro ⟨s₁, hleft, h⟩
    obtain ⟨hcl, hal, rfl⟩ := (ihl _ _ _).1 hleft
    obtain ⟨s₂, hs, h⟩ := runs_cons.1 h
    rw [State.step_multiplicative] at hs
    obtain rfl := Except.ok.inj hs
    obtain ⟨hcr, har, rfl⟩ := (ihr _ _ _).1 h
    exact ⟨⟨hcl, hcr⟩, ⟨hal, har⟩, rfl⟩
  · rintro ⟨⟨hcl, hcr⟩, ⟨hal, har⟩, rfl⟩
    refine ⟨_, (ihl _ _ _).2 ⟨hcl, hal, rfl⟩, runs_cons.2 ⟨_, State.step_multiplicative sign position, ?_⟩⟩
    exact (ihr _ _ _).2 ⟨hcr, har, rfl⟩

theorem lands_sum {left : Derivation Numeral .expression} {right : Derivation Numeral .term}
    (ihl : left.Lands limits formula) (ihr : right.Lands limits formula) (sign : Additive) (position : Nat) :
    (sum left sign position right).Lands limits formula := by
  intro outer s
  have htokens : (sum left sign position right).tokens = left.tokens ++ ⟨sign.lexeme, position⟩ :: right.tokens := rfl
  rw [htokens, runs_append, countable_append, countable_cons (by cases sign <;> simp [Additive.lexeme]), nesting,
    admitsAt_max]
  constructor
  · rintro ⟨s₁, hleft, h⟩
    obtain ⟨hcl, hal, rfl⟩ := (ihl _ _).1 hleft
    obtain ⟨s₂, hs, h⟩ := runs_cons.1 h
    rw [State.step_additive, complete_pending] at hs
    obtain rfl := Except.ok.inj hs
    obtain ⟨hcr, har, rfl⟩ := (ihr _ _ _).1 h
    exact ⟨⟨hcl, hcr⟩, ⟨hal, har⟩, rfl⟩
  · rintro ⟨⟨hcl, hcr⟩, ⟨hal, har⟩, rfl⟩
    refine ⟨_, (ihl _ _).2 ⟨hcl, hal, rfl⟩, runs_cons.2 ⟨_, State.step_additive sign position, ?_⟩⟩
    rw [complete_pending]
    exact (ihr _ _ _).2 ⟨hcr, har, rfl⟩

theorem lands {c : Category} (d : Derivation Numeral c) : d.Lands limits formula := by
  induction d with
  | atom n position => exact lands_atom n position
  | negation position operand ih => exact lands_negation ih position
  | brackets opening inner closing ih => exact lands_brackets ih opening closing
  | factor only ih => exact fun sum outer s => ih { sum } outer s
  | product left sign position right ihl ihr => exact lands_product ihl ihr sign position
  | term only ih => exact fun outer s => ih none outer s
  | sum left sign position right ihl ihr => exact lands_sum ihl ihr sign position

/-- The tokens of a derivation are read if the nesting is admitted, and as its tree. -/
theorem parseTokens_iff (d : Derivation Numeral .expression) {e : Expr} :
    parseTokens limits formula d.tokens = .ok e ↔
      limits.Countable d.tokens ∧ limits.Admits d.nesting ∧ d.tree limits.numberValue = e := by
  have hlands : ∀ s, Runs limits formula State.initial d.tokens s ↔ _ := d.lands []
  have hadmits : limits.AdmitsAt (State.depth {} []) d.nesting ↔ limits.Admits d.nesting := by
    unfold Limits.AdmitsAt Limits.Admits
    rw [show State.depth {} [] = 0 from rfl, Nat.zero_add]
  rw [hadmits] at hlands
  unfold parseTokens
  constructor
  · intro h
    obtain ⟨s, hs, hfinish⟩ := except_bind_ok h
    obtain ⟨hcount, hfits, rfl⟩ := (hlands s).1 hs
    refine ⟨hcount, hfits, ?_⟩
    rw [← complete_pending]
    exact Except.ok.inj hfinish
  · rintro ⟨hcount, hfits, rfl⟩
    have hs : d.tokens.foldlM (State.step limits formula) State.initial = _ := (hlands _).2 ⟨hcount, hfits, rfl⟩
    rw [hs, ← complete_pending]
    rfl

end Derivation

/-! ## What has been read -/

section Reads

variable (value : Numeral → Double)

/-- The tokens of a sum that waits for a term, if one does. -/
inductive ReadsSum : Option Pending → List Token → Prop
  | none : ReadsSum none []
  | some (left : Derivation Numeral .expression) (sign : Additive) (position : Nat) :
    ReadsSum (some ⟨left.tree value, sign.operator, position⟩) (left.tokens ++ [⟨sign.lexeme, position⟩])

/-- The tokens of a product that waits for a factor, if one does. -/
inductive ReadsProduct : Option Pending → List Token → Prop
  | none : ReadsProduct none []
  | some (left : Derivation Numeral .term) (sign : Multiplicative) (position : Nat) :
    ReadsProduct (some ⟨left.tree value, sign.operator, position⟩) (left.tokens ++ [⟨sign.lexeme, position⟩])

/-- The tokens between two brackets, before an operand. -/
inductive ReadsLevel : Level → List Token → Prop
  | mk {sum product : Option Pending} {ts us : List Token} (minuses : List Nat) (hs : ReadsSum value sum ts)
    (hp : ReadsProduct value product us) :
    ReadsLevel ⟨sum, product, minuses⟩ (ts ++ us ++ minuses.reverse.map (⟨.minus, ·⟩))

/-- The tokens up to the bracket that was opened last. -/
inductive ReadsOuter : List Level → List Token → Prop
  | nil : ReadsOuter [] []
  | cons {level : Level} {outer : List Level} {ts us : List Token} (position : Nat) (ho : ReadsOuter outer ts)
    (hl : ReadsLevel value level us) : ReadsOuter (level :: outer) (ts ++ us ++ [⟨.openBracket, position⟩])

/-- The tokens that lead to a state are those of derivations: of one that ends there, and of others that
wait for their right operand. -/
inductive Reads : State → List Token → Prop
  | operand {level : Level} {outer : List Level} {ts us : List Token} (ho : ReadsOuter value outer ts)
    (hl : ReadsLevel value level us) : Reads (.operand level outer) (ts ++ us)
  | operator {sum : Option Pending} {outer : List Level} {ts us : List Token} (ho : ReadsOuter value outer ts)
    (hs : ReadsSum value sum us) (last : Derivation Numeral .term) :
    Reads (.operator sum (last.tree value) outer) (ts ++ us ++ last.tokens)

variable {value}

theorem readsLevel_empty : ReadsLevel value {} [] := .mk [] .none .none

/-- A sum and its last term are an expression. -/
theorem ReadsSum.complete {sum : Option Pending} {ts : List Token} (h : ReadsSum value sum ts)
    (last : Derivation Numeral .term) : ∃ d : Derivation Numeral .expression,
      d.tree value = Pending.complete sum (last.tree value) ∧ d.tokens = ts ++ last.tokens := by
  cases h with
  | none => exact ⟨.term last, rfl, rfl⟩
  | some left sign position =>
    refine ⟨.sum left sign position last, rfl, ?_⟩
    rw [List.append_assoc]
    rfl

theorem ReadsProduct.complete {product : Option Pending} {ts : List Token} (h : ReadsProduct value product ts)
    (last : Derivation Numeral .factor) : ∃ d : Derivation Numeral .term,
      d.tree value = Pending.complete product (last.tree value) ∧ d.tokens = ts ++ last.tokens := by
  cases h with
  | none => exact ⟨.factor last, rfl, rfl⟩
  | some left sign position =>
    refine ⟨.product left sign position last, rfl, ?_⟩
    rw [List.append_assoc]
    rfl

/-- Minus signs in front of a factor leave a factor. -/
theorem exists_negations (value : Numeral → Double) (minuses : List Nat) (d : Derivation Numeral .factor) :
    ∃ d' : Derivation Numeral .factor,
    d'.tree value = minuses.foldl (fun operand position => .negate position operand) (d.tree value) ∧
      d'.tokens = minuses.reverse.map (⟨.minus, ·⟩) ++ d.tokens := by
  induction minuses generalizing d with
  | nil => exact ⟨d, rfl, rfl⟩
  | cons position minuses ih =>
    obtain ⟨d', htree, htokens⟩ := ih (.negation position d)
    refine ⟨d', htree, ?_⟩
    rw [htokens, List.reverse_cons, List.map_append, List.append_assoc]
    rfl

/-- A factor ends the term that waits for it. -/
theorem ReadsLevel.term {level : Level} {ts : List Token} (h : ReadsLevel value level ts)
    (factor : Derivation Numeral .factor) : ∃ (us : List Token) (d : Derivation Numeral .term),
      ReadsSum value level.sum us ∧ d.tree value = level.term (factor.tree value) ∧
      us ++ d.tokens = ts ++ factor.tokens := by
  obtain ⟨minuses, hs, hp⟩ := h
  obtain ⟨d, htree, htokens⟩ := exists_negations value minuses factor
  obtain ⟨d', htree', htokens'⟩ := hp.complete d
  refine ⟨_, d', hs, ?_, ?_⟩
  · rw [htree', htree]
    rfl
  · rw [htokens', htokens]
    simp only [List.append_assoc]

end Reads

theorem reads_initial {value : Numeral → Double} : Reads value State.initial [] := .operand .nil readsLevel_empty

/-- An operand that is read is the last one of its term. -/
theorem Reads.operand_factor {value : Numeral → Double} {level : Level} {outer : List Level} {ts us : List Token}
    (ho : ReadsOuter value outer ts) (hl : ReadsLevel value level us) (factor : Derivation Numeral .factor) :
    Reads value (.operator level.sum (level.term (factor.tree value)) outer) (ts ++ us ++ factor.tokens) := by
  obtain ⟨vs, d, hs, htree, htokens⟩ := hl.term factor
  rw [← htree, List.append_assoc, ← htokens, ← List.append_assoc]
  exact .operator ho hs d

theorem Reads.additive {value : Numeral → Double} {sum : Option Pending} {outer : List Level} {ts us : List Token}
    (ho : ReadsOuter value outer ts) (hs : ReadsSum value sum us) (last : Derivation Numeral .term) (sign : Additive)
    (position : Nat) :
    Reads value (.operand { sum := some ⟨Pending.complete sum (last.tree value), sign.operator, position⟩ } outer)
      (ts ++ us ++ last.tokens ++ [⟨sign.lexeme, position⟩]) := by
  obtain ⟨d, htree, htokens⟩ := hs.complete last
  rw [← htree, List.append_assoc ts, ← htokens, List.append_assoc ts]
  have hl : ReadsLevel value _ (d.tokens ++ [⟨sign.lexeme, position⟩] ++ [] ++ [].reverse.map (⟨.minus, ·⟩)) :=
    .mk [] (.some d sign position) .none
  simpa using Reads.operand ho hl

theorem Reads.multiplicative {value : Numeral → Double} {sum : Option Pending} {outer : List Level} {ts us : List Token}
    (ho : ReadsOuter value outer ts) (hs : ReadsSum value sum us) (last : Derivation Numeral .term)
    (sign : Multiplicative)
    (position : Nat) :
    Reads value (.operand { sum, product := some ⟨last.tree value, sign.operator, position⟩ } outer)
      (ts ++ us ++ last.tokens ++ [⟨sign.lexeme, position⟩]) := by
  have hl : ReadsLevel value _ (us ++ (last.tokens ++ [⟨sign.lexeme, position⟩]) ++ [].reverse.map (⟨.minus, ·⟩)) :=
    .mk [] hs (.some last sign position)
  simpa using Reads.operand ho hl

theorem Reads.closeBracket {value : Numeral → Double} {sum : Option Pending} {level : Level} {outer : List Level}
    {ts us : List Token} (ho : ReadsOuter value (level :: outer) ts) (hs : ReadsSum value sum us)
    (last : Derivation Numeral .term) (position : Nat) :
    Reads value (.operator level.sum (level.term (Pending.complete sum (last.tree value))) outer)
      (ts ++ us ++ last.tokens ++ [⟨.closeBracket, position⟩]) := by
  obtain ⟨d, htree, htokens⟩ := hs.complete last
  rw [← htree, List.append_assoc ts, ← htokens]
  cases ho with
  | cons opening ho hl =>
    have hfactor := Reads.operand_factor ho hl (.brackets opening d position)
    have htree' : (Derivation.brackets opening d position).tree value = d.tree value := rfl
    have htokens' : (Derivation.brackets opening d position).tokens =
        ⟨.openBracket, opening⟩ :: (d.tokens ++ [⟨.closeBracket, position⟩]) := rfl
    rw [htree', htokens'] at hfactor
    simpa using hfactor

/-- Every token that is accepted goes on with a derivation. -/
theorem Reads.step {s s' : State} {ts : List Token} {t : Token} (h : Reads limits.numberValue s ts)
    (hs : State.step limits formula s t = .ok s') : Reads limits.numberValue s' (ts ++ [t]) := by
  obtain ⟨lexeme, position⟩ := t
  cases h with
  | operand ho hl =>
    cases lexeme with
    | number n =>
      obtain ⟨-, rfl⟩ := State.step_number_iff.1 hs
      exact .operand_factor ho hl (.atom n position)
    | minus =>
      obtain ⟨-, rfl⟩ := State.step_minus_iff.1 hs
      obtain ⟨minuses, hsum, hproduct⟩ := hl
      simpa using Reads.operand ho (.mk (position :: minuses) hsum hproduct)
    | openBracket =>
      obtain ⟨-, rfl⟩ := State.step_openBracket_iff.1 hs
      simpa using Reads.operand (.cons position ho hl) readsLevel_empty
    | plus | star | slash | closeBracket => cases hs
  | @operator sum outer _ _ ho hsum last =>
    cases lexeme with
    | plus =>
      obtain rfl := Except.ok.inj ((State.step_additive .plus position).symm.trans hs)
      exact .additive ho hsum last .plus position
    | minus =>
      obtain rfl := Except.ok.inj ((State.step_additive .minus position).symm.trans hs)
      exact .additive ho hsum last .minus position
    | star =>
      obtain rfl := Except.ok.inj ((State.step_multiplicative .star position).symm.trans hs)
      exact .multiplicative ho hsum last .star position
    | slash =>
      obtain rfl := Except.ok.inj ((State.step_multiplicative .slash position).symm.trans hs)
      exact .multiplicative ho hsum last .slash position
    | closeBracket =>
      cases outer with
      | nil => cases hs
      | cons level outer =>
        obtain rfl := Except.ok.inj ((State.step_closeBracket position).symm.trans hs)
        exact .closeBracket ho hsum last position
    | number n | openBracket => cases outer <;> cases hs

theorem Reads.runs {s s' : State} {ts us : List Token} (h : Reads limits.numberValue s ts)
    (hr : Runs limits formula s us s') : Reads limits.numberValue s' (ts ++ us) := by
  induction us generalizing s ts with
  | nil =>
    obtain rfl := runs_nil.1 hr
    rwa [List.append_nil]
  | cons u us ih =>
    obtain ⟨s₁, hs, hr⟩ := runs_cons.1 hr
    simpa using ih (h.step hs) hr

/-- What is read to its end is derived. -/
theorem derivation_of_parseTokens {ts : List Token} {e : Expr} (h : parseTokens limits formula ts = .ok e) :
    ∃ d : Derivation Numeral .expression, d.tokens = ts := by
  unfold parseTokens at h
  obtain ⟨s, hs, hfinish⟩ := except_bind_ok h
  have hreads : Reads limits.numberValue s ([] ++ ts) := reads_initial.runs hs
  rw [List.nil_append] at hreads
  cases hreads with
  | operand ho hl => cases hfinish
  | operator ho hsum last =>
    cases ho with
    | nil =>
      obtain ⟨d, -, htokens⟩ := hsum.complete last
      exact ⟨d, htokens⟩
    | cons => cases hfinish

/-! ## Formulas -/

theorem tokens_eq_ok_iff {ts : List Token} :
    tokens limits formula = .ok ts ↔
      limits.checkLength formula.toList.length = .ok () ∧ scan 0 formula.toList = .ok ts := by
  unfold tokens
  constructor
  · intro h
    obtain ⟨u, hlength, h⟩ := except_bind_ok h
    split at h
    · rename_i hscan
      cases h
      exact ⟨hlength, hscan⟩
    · cases h
  · rintro ⟨hlength, hscan⟩
    rw [hlength, hscan]
    rfl

theorem parse_eq_ok_iff_parseTokens {e : Expr} :
    parse limits formula = .ok e ↔ ∃ ts, tokens limits formula = .ok ts ∧ parseTokens limits formula ts = .ok e := by
  unfold parse
  constructor
  · exact except_bind_ok
  · rintro ⟨ts, hts, h⟩
    rw [hts]
    exact h

theorem countable_of_digits (h : 0 ≤ limits.digits) (ts : List Token) : limits.Countable ts := by
  intro t _ n _
  unfold Limits.checkZeros
  rw [if_pos (Or.inl h)]

/-- With the nesting of one derivation admitted, the tokens are read, so that of the other is admitted. -/
theorem nesting_le_of_tokens_eq {d d' : Derivation Numeral .expression} (h : d.tokens = d'.tokens) :
    d'.nesting ≤ d.nesting := by
  let limits : Limits := { nesting := d.nesting }
  have hcount : limits.Countable d.tokens := countable_of_digits (show (0 : Int) ≤ 38 by decide) _
  have hread : parseTokens limits "" d.tokens = .ok (d.tree limits.numberValue) :=
    d.parseTokens_iff.2 ⟨hcount, Or.inr le_rfl, rfl⟩
  rw [h] at hread
  obtain ⟨-, hadmits, -⟩ := d'.parseTokens_iff.1 hread
  rcases hadmits with hzero | hle
  · omega
  · exact Int.ofNat_le.1 hle

theorem parse_of_derivation {d : Derivation Numeral .expression}
    (hlength : limits.checkLength formula.toList.length = .ok ())
    (hscan : scan 0 formula.toList = .ok d.tokens) (hcount : limits.Countable d.tokens)
    (hadmits : limits.Admits d.nesting) :
    parse limits formula = .ok (d.tree limits.numberValue) :=
  parse_eq_ok_iff_parseTokens.2
    ⟨d.tokens, tokens_eq_ok_iff.2 ⟨hlength, hscan⟩, d.parseTokens_iff.2 ⟨hcount, hadmits, rfl⟩⟩

theorem nesting_eq_of_tokens_eq {d d' : Derivation Numeral .expression} (h : d.tokens = d'.tokens) :
    d.nesting = d'.nesting :=
  le_antisymm (nesting_le_of_tokens_eq h.symm) (nesting_le_of_tokens_eq h)

/-- What is read is derived, and within the limits. -/
theorem derivation_of_parse {e : Expr} (h : parse limits formula = .ok e) :
    limits.checkLength formula.toList.length = .ok () ∧
      ∃ d : Derivation Numeral .expression, scan 0 formula.toList = .ok d.tokens ∧ limits.Countable d.tokens ∧
        limits.Admits d.nesting ∧ d.tree limits.numberValue = e := by
  obtain ⟨ts, hts, h⟩ := parse_eq_ok_iff_parseTokens.1 h
  obtain ⟨hlength, hscan⟩ := tokens_eq_ok_iff.1 hts
  obtain ⟨d, rfl⟩ := derivation_of_parseTokens h
  exact ⟨hlength, d, hscan, d.parseTokens_iff.1 h⟩

/-- A formula that is not too long has a tree if its tokens are derived, with the nesting admitted and
every number in reach of its zeros; the tree is that of the derivation. How deep a derivation nests, its
tokens tell. -/
theorem parse_iff (limits : Limits) (formula : String) :
    (∀ e, parse limits formula = .ok e ↔ limits.checkLength formula.toList.length = .ok () ∧
      ∃ d : Derivation Numeral .expression, scan 0 formula.toList = .ok d.tokens ∧ limits.Countable d.tokens ∧
        limits.Admits d.nesting ∧ d.tree limits.numberValue = e) ∧
    ∀ d d' : Derivation Numeral .expression, d.tokens = d'.tokens → d.nesting = d'.nesting := by
  refine ⟨fun e => ⟨derivation_of_parse, ?_⟩, fun d d' h => nesting_eq_of_tokens_eq h⟩
  rintro ⟨hlength, d, hscan, hcount, hadmits, rfl⟩
  exact parse_of_derivation hlength hscan hcount hadmits

/-- A limit so far below zero that its zeros are beyond counting keeps a derived formula from being read. -/
theorem parse_zero_overflow :
    parse { digits := -2 ^ 63 } "0" = .error (.overflow .count) ∧
      ∃ d : Derivation Numeral .expression, scan 0 "0".toList = .ok d.tokens ∧ d.nesting = 0 := by
  exact ⟨by decide +kernel, .term (.factor (.atom ⟨['0'], none⟩ 0)), by decide +kernel, rfl⟩

end Stylesheet.Formula
