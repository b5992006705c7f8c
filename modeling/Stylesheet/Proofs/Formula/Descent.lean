/-
The parser against recursive descent. What descent reads at a place is what the automaton takes there for an
operand, if as many levels are open in it as the cursor counts; and the automaton goes on behind it (`Follows`).
So both give the same tree, or refuse a formula for the same cause (`parse_eq_descend`).
-/
import Stylesheet.Formula.Descent
import Stylesheet.Proofs.Formula.Nesting
import Stylesheet.Proofs.Formula.Tiling

namespace Stylesheet.Formula

open Stylesheet.Text (Numeral)

/-- No operator of such a chain follows. -/
def Cursor.Ends (c : Cursor) (kind : Chain) : Prop := ∀ token ∈ c.rest.head?, kind.operator? token.lexeme = none

namespace Descent

variable {limits : Limits} {formula : String} {stop : Nat}

/-! ## What is read, and what follows -/

section AndThen

variable {α : Type} {p q : Cursor → Prop} {read : Except Error (Expr × Subtype p)}

/-- Goes on with what was read and the place behind it. -/
def andThen (read : Except Error (Expr × Subtype p)) (k : Expr → Cursor → Except Error α) : Except Error α :=
  read.bind fun x => k x.1 x.2.1

theorem andThen_congr {k k' : Expr → Cursor → Except Error α} (h : ∀ e d, read = .ok (e, d) → k e d.1 = k' e d.1) :
    andThen read k = andThen read k' := by
  cases read with
  | error e => rfl
  | ok x => exact h x.1 x.2 rfl

/-- Of a step in between only the tree and the place count that it makes of what was read. -/
theorem andThen_bind {f : Expr × Subtype p → Except Error (Expr × Subtype q)} {k k' : Expr → Cursor → Except Error α}
    (h : ∀ e d, andThen (f (e, d)) k = k' e d.1) : andThen (read >>= f) k = andThen read k' := by
  cases read with
  | error e => rfl
  | ok x => exact h x.1 x.2

theorem andThen_check {check : Except Error Unit} {f : Unit → Except Error (Expr × Subtype p)}
    {k : Expr → Cursor → Except Error α} {next : Except Error α} (h : andThen (f ()) k = next) :
    andThen (check >>= f) k = check.bind fun _ => next := by
  cases check with
  | error e => rfl
  | ok _ => exact h

end AndThen

/-! ## Equations -/

section Equations

variable {α : Type} (k : Expr → Cursor → Except Error α) (kind : Chain) (left : Expr) (c : Cursor) (token : Token)
  (rest : List Token) (n position : Nat)

theorem chain_andThen : andThen (chain limits formula stop kind c) k =
    andThen (operand limits formula stop kind c) fun e d => andThen (chainFrom limits formula stop kind e d) k := by
  rw [chain]
  refine andThen_bind fun e d => ?_
  exact andThen_bind fun node e => rfl

theorem chainFrom_cons_andThen : andThen (chainFrom limits formula stop kind left ⟨token :: rest, n⟩) k =
    match kind.operator? token.lexeme with
    | some operator => andThen (operand limits formula stop kind ⟨rest, n⟩) fun right d =>
      andThen (chainFrom limits formula stop kind (.binary token.position operator left right) d) k
    | none => k left ⟨token :: rest, n⟩ := by
  rw [chainFrom]
  dsimp only
  cases kind.operator? token.lexeme with
  | none => rfl
  | some operator =>
    refine andThen_bind fun right d => ?_
    exact andThen_bind fun node e => rfl

theorem chainFrom_nil_andThen : andThen (chainFrom limits formula stop kind left ⟨[], n⟩) k = k left ⟨[], n⟩ := by
  rw [chainFrom]
  rfl

theorem operand_sum : operand limits formula stop .sum c = chain limits formula stop .term c := by rw [operand]

theorem operand_term : operand limits formula stop .term c = factor limits formula stop c := by rw [operand]

theorem factor_minus_andThen : andThen (factor limits formula stop ⟨⟨.minus, position⟩ :: rest, n⟩) k =
    (limits.checkNesting (n + 1 : Nat)).bind fun _ => andThen (factor limits formula stop ⟨rest, n + 1⟩) fun e d =>
      k (.negate position e) ⟨d.rest, d.nesting - 1⟩ := by
  rw [factor]
  refine andThen_check ?_
  exact andThen_bind fun e d => rfl

theorem factor_openBracket_andThen : andThen (factor limits formula stop ⟨⟨.openBracket, position⟩ :: rest, n⟩) k =
    (limits.checkNesting (n + 1 : Nat)).bind fun _ => andThen (chain limits formula stop .sum ⟨rest, n + 1⟩) fun e d =>
      match d.rest with
      | ⟨.closeBracket, _⟩ :: after => k e ⟨after, d.nesting - 1⟩
      | after => .error (.missingBracket (nextPosition stop after) formula) := by
  rw [factor]
  refine andThen_check ?_
  refine andThen_bind fun e d => ?_
  obtain ⟨⟨after, m⟩, hd⟩ := d
  match after with
  | [] => rfl
  | ⟨lexeme, position⟩ :: after => cases lexeme <;> rfl

theorem factor_number_andThen (numeral : Numeral) :
    andThen (factor limits formula stop ⟨⟨.number numeral, position⟩ :: rest, n⟩) k =
      (limits.checkZeros numeral).bind fun _ => k (.number position (limits.numberValue numeral)) ⟨rest, n⟩ := by
  rw [factor]
  exact andThen_check rfl

/-- What neither opens a level nor is a number is refused. -/
theorem factor_other_andThen {lexeme : Lexeme} (hopens : ¬ State.Opens .initial lexeme)
    (hnumber : ∀ n, lexeme ≠ .number n) :
    andThen (factor limits formula stop ⟨⟨lexeme, position⟩ :: rest, n⟩) k =
      .error (.unexpectedToken (String.ofList lexeme.text) position formula) := by
  rw [factor]
  cases lexeme with
  | number numeral => exact absurd rfl (hnumber numeral)
  | minus => exact absurd trivial hopens
  | openBracket => exact absurd trivial hopens
  | plus | star | slash | closeBracket => rfl

theorem factor_nil_andThen :
    andThen (factor limits formula stop ⟨[], n⟩) k = .error (.unexpectedEnd stop formula) := by
  rw [factor]
  rfl

end Equations

/-! ## Where chains end -/

variable {kind : Chain} {left e : Expr} {c : Cursor}

/-- A chain goes on with a further operand, or ends where no operator of it follows. -/
theorem chainFrom_ok {d : c.Onward} (h : chainFrom limits formula stop kind left c = .ok (e, d)) :
    (d.1 = c ∧ c.Ends kind) ∨ ∃ (b : Cursor) (right : Expr) (m : b.Beyond) (node : Expr) (d' : m.1.Onward),
      b.rest.length < c.rest.length ∧ operand limits formula stop kind b = .ok (right, m) ∧
        chainFrom limits formula stop kind node m.1 = .ok (e, d') ∧ d'.1 = d.1 := by
  obtain ⟨rest, n⟩ := c
  rw [chainFrom] at h
  match rest with
  | [] =>
    cases h
    exact .inl ⟨rfl, by simp [Cursor.Ends]⟩
  | token :: rest =>
    dsimp only at h
    cases hoperator : kind.operator? token.lexeme with
    | none =>
      rw [hoperator] at h
      cases h
      exact .inl ⟨rfl, by simpa [Cursor.Ends] using hoperator⟩
    | some operator =>
      rw [hoperator] at h
      obtain ⟨⟨right, m⟩, hright, h⟩ := except_bind_ok h
      obtain ⟨⟨node, d'⟩, hnode, h⟩ := except_bind_ok h
      cases h
      exact .inr ⟨⟨rest, n⟩, right, m, _, d', Nat.lt_succ_self _, hright, hnode, rfl⟩

theorem chainFrom_ends {d : c.Onward} (h : chainFrom limits formula stop kind left c = .ok (e, d)) : d.1.Ends kind := by
  obtain ⟨n, hn⟩ : ∃ n, c.rest.length = n := ⟨_, rfl⟩
  induction n using Nat.strongRecOn generalizing c left with
  | ind n ih =>
    rcases chainFrom_ok h with ⟨hd, hends⟩ | ⟨b, right, m, node, d', hlt, -, hnode, hd⟩
    · rw [hd]
      exact hends
    · rw [← hd]
      exact ih _ (hn ▸ m.2.1.trans hlt) hnode rfl

/-- What holds behind each operand holds at the end. -/
theorem chainFrom_keeps {P : Cursor → Prop}
    (hoperand : ∀ b right (m : b.Beyond), operand limits formula stop kind b = .ok (right, m) → P m.1) (hc : P c)
    {d : c.Onward} (h : chainFrom limits formula stop kind left c = .ok (e, d)) : P d.1 := by
  obtain ⟨n, hn⟩ : ∃ n, c.rest.length = n := ⟨_, rfl⟩
  induction n using Nat.strongRecOn generalizing c left with
  | ind n ih =>
    rcases chainFrom_ok h with ⟨hd, -⟩ | ⟨b, right, m, node, d', hlt, hright, hnode, hd⟩
    · rw [hd]
      exact hc
    · rw [← hd]
      exact ih _ (hn ▸ m.2.1.trans hlt) (hoperand b right m hright) hnode rfl

theorem chain_ok {d : c.Beyond} (h : chain limits formula stop kind c = .ok (e, d)) :
    ∃ (left : Expr) (m : c.Beyond) (d' : m.1.Onward), operand limits formula stop kind c = .ok (left, m) ∧
      chainFrom limits formula stop kind left m.1 = .ok (e, d') ∧ d'.1 = d.1 := by
  rw [chain] at h
  obtain ⟨⟨left, m⟩, hleft, h⟩ := except_bind_ok h
  obtain ⟨⟨node, d'⟩, hnode, h⟩ := except_bind_ok h
  cases h
  exact ⟨left, m, d', hleft, hnode, rfl⟩

theorem chain_ends {d : c.Beyond} (h : chain limits formula stop kind c = .ok (e, d)) : d.1.Ends kind := by
  obtain ⟨left, m, d', -, hnode, hd⟩ := chain_ok h
  rw [← hd]
  exact chainFrom_ends hnode

/-- Behind a sum there is no operator at all: none of the sum, and none of its last term. -/
theorem sum_ends {d : c.Beyond} (h : chain limits formula stop .sum c = .ok (e, d)) :
    d.1.Ends .sum ∧ d.1.Ends .term := by
  refine ⟨chain_ends h, ?_⟩
  have hoperand : ∀ b right (m : b.Beyond), operand limits formula stop .sum b = .ok (right, m) → m.1.Ends .term := by
    intro b right m hm
    rw [operand_sum] at hm
    exact chain_ends hm
  obtain ⟨left, m, d', hleft, hnode, hd⟩ := chain_ok h
  rw [← hd]
  exact chainFrom_keeps (P := fun b => b.Ends .term) hoperand (hoperand c left m hleft) hnode

/-- Where no operator follows, there is the end, or what no chain goes on with. -/
theorem rest_of_ends (hsum : c.Ends .sum) (hterm : c.Ends .term) : c.rest = [] ∨
    ∃ lexeme position rest, c.rest = ⟨lexeme, position⟩ :: rest ∧
      ((∃ n, lexeme = .number n) ∨ lexeme = .openBracket ∨ lexeme = .closeBracket) := by
  obtain ⟨rest, n⟩ := c
  match rest with
  | [] => exact .inl rfl
  | ⟨lexeme, position⟩ :: rest =>
    refine .inr ⟨lexeme, position, rest, rfl, ?_⟩
    have hs := hsum _ rfl
    have ht := hterm _ rfl
    cases lexeme with
    | number n => exact .inl ⟨n, rfl⟩
    | plus | minus => cases hs
    | star | slash => cases ht
    | openBracket => exact .inr (.inl rfl)
    | closeBracket => exact .inr (.inr rfl)

/-! ## The automaton -/

open State (depth)

variable {sum : Option Pending} {outer : List Level}

/-- Where no operator follows, what waits for its right operand has it. -/
theorem read_of_ends (hsum : c.Ends .sum) (hterm : c.Ends .term) (left : Expr) :
    (State.operator sum left outer).read limits formula c.rest =
      (State.operator none (Pending.complete sum left) outer).read limits formula c.rest := by
  rcases rest_of_ends hsum hterm with h | ⟨lexeme, position, rest, h, ⟨n, rfl⟩ | rfl | rfl⟩ <;> rw [h] <;>
    cases outer <;> rfl

/-- A token that is checked leads to a state, from which the rest is read. -/
theorem bind_check {check : Except Error Unit} {s : State} {f : State → Except Error Expr} {next : Except Error Expr}
    (h : f s = next) : ((check.bind fun _ => .ok s).bind f) = check.bind fun _ => next := by
  cases check with
  | error e => rfl
  | ok _ => exact h

/-- What descent reads at a place is an operand of the automaton, with the same tree, and the automaton goes on
behind it. -/
structure Follows (limits : Limits) (formula : String) (c : Cursor) : Prop where
  factor : ∀ level outer, depth level outer = c.nesting →
    (State.operand level outer).read limits formula c.rest =
      andThen (factor limits formula formula.toList.length c) fun e d =>
        (State.operator level.sum (level.term e) outer).read limits formula d.rest
  term : ∀ sum outer, depth {} outer = c.nesting →
    (State.operand { sum } outer).read limits formula c.rest =
      andThen (chain limits formula formula.toList.length .term c) fun e d =>
        (State.operator sum e outer).read limits formula d.rest
  termFrom : ∀ left sum outer, depth {} outer = c.nesting →
    (State.operator sum left outer).read limits formula c.rest =
      andThen (chainFrom limits formula formula.toList.length .term left c) fun e d =>
        (State.operator sum e outer).read limits formula d.rest
  sum : ∀ outer, depth {} outer = c.nesting →
    (State.operand {} outer).read limits formula c.rest =
      andThen (chain limits formula formula.toList.length .sum c) fun e d =>
        (State.operator none e outer).read limits formula d.rest
  sumFrom : ∀ left sum outer, depth {} outer = c.nesting → c.Ends .term →
    (State.operator sum left outer).read limits formula c.rest =
      andThen (chainFrom limits formula formula.toList.length .sum (Pending.complete sum left) c) fun e d =>
        (State.operator none e outer).read limits formula d.rest

section Places

variable (ih : ∀ d : Cursor, d.rest.length < c.rest.length → Follows limits formula d)

include ih

theorem factor_follows (level : Level) (outer : List Level) (hdepth : depth level outer = c.nesting) :
    (State.operand level outer).read limits formula c.rest =
      andThen (factor limits formula formula.toList.length c) fun e d =>
        (State.operator level.sum (level.term e) outer).read limits formula d.rest := by
  obtain ⟨rest, n⟩ := c
  obtain rfl : depth level outer = n := hdepth
  match rest with
  | [] =>
    rw [factor_nil_andThen]
    rfl
  | ⟨lexeme, position⟩ :: rest =>
    have hrest := ih ⟨rest, depth level outer + 1⟩ (Nat.lt_succ_self _)
    rw [State.read_cons]
    cases lexeme with
    | number numeral =>
      rw [factor_number_andThen]
      exact bind_check rfl
    | minus =>
      have hinner : depth { level with minuses := position :: level.minuses } outer = depth level outer + 1 := by
        show (position :: level.minuses).length + _ = level.minuses.length + _ + 1
        rw [List.length_cons, Nat.add_right_comm]
      rw [factor_minus_andThen]
      exact bind_check (hrest.factor _ outer hinner)
    | openBracket =>
      have hinner : depth {} (level :: outer) = depth level outer + 1 := by
        show 0 + (level.minuses.length + 1 + _) = level.minuses.length + _ + 1
        rw [Nat.zero_add, Nat.add_right_comm]
      rw [factor_openBracket_andThen]
      refine bind_check ((hrest.sum (level :: outer) hinner).trans (andThen_congr fun e d hd => ?_))
      -- the bracket is open until it closes, for no operator follows a sum
      obtain ⟨hsum, hterm⟩ := sum_ends hd
      rcases rest_of_ends hsum hterm with h | ⟨lexeme, position, rest, h, ⟨n, rfl⟩ | rfl | rfl⟩ <;> rw [h] <;> rfl
    | plus | star | slash | closeBracket =>
      exact (factor_other_andThen _ rest _ position id (by rintro n ⟨⟩)).symm

theorem termFrom_follows (left : Expr) (sum : Option Pending) (outer : List Level)
    (hdepth : depth {} outer = c.nesting) :
    (State.operator sum left outer).read limits formula c.rest =
      andThen (chainFrom limits formula formula.toList.length .term left c) fun e d =>
        (State.operator sum e outer).read limits formula d.rest := by
  obtain ⟨rest, n⟩ := c
  match rest with
  | [] => rw [chainFrom_nil_andThen]
  | ⟨lexeme, position⟩ :: rest =>
    -- the state in front of the right operand of an operator
    have hright (operator : Operator) :
        (State.operand { sum, product := some ⟨left, operator, position⟩ } outer).read limits formula rest =
          andThen (operand limits formula formula.toList.length .term ⟨rest, n⟩) fun right d =>
            andThen (chainFrom limits formula formula.toList.length .term
              (.binary position operator left right) d) fun e d =>
                (State.operator sum e outer).read limits formula d.rest := by
      rw [operand_term]
      refine ((ih ⟨rest, n⟩ (Nat.lt_succ_self _)).factor { sum, product := some ⟨left, operator, position⟩ } outer
        hdepth).trans (andThen_congr fun right d _ => ?_)
      exact (ih d.1 (d.2.1.trans (Nat.lt_succ_self _))).termFrom _ sum outer (hdepth.trans d.2.2.symm)
    rw [chainFrom_cons_andThen]
    cases lexeme with
    | star => exact hright .mul
    | slash => exact hright .div
    | number _ | plus | minus | openBracket | closeBracket => rfl

theorem sumFrom_follows (left : Expr) (sum : Option Pending) (outer : List Level) (hdepth : depth {} outer = c.nesting)
    (hterm : c.Ends .term) :
    (State.operator sum left outer).read limits formula c.rest =
      andThen (chainFrom limits formula formula.toList.length .sum (Pending.complete sum left) c) fun e d =>
        (State.operator none e outer).read limits formula d.rest := by
  obtain ⟨rest, n⟩ := c
  match rest with
  | [] =>
    rw [chainFrom_nil_andThen]
    exact read_of_ends (c := ⟨[], n⟩) (by simp [Cursor.Ends]) hterm left
  | ⟨lexeme, position⟩ :: rest =>
    have hright (operator : Operator) :
        (State.operand { sum := some ⟨Pending.complete sum left, operator, position⟩ } outer).read limits formula rest =
          andThen (operand limits formula formula.toList.length .sum ⟨rest, n⟩) fun right d =>
            andThen (chainFrom limits formula formula.toList.length .sum
              (.binary position operator (Pending.complete sum left) right) d) fun e d =>
                (State.operator none e outer).read limits formula d.rest := by
      rw [operand_sum]
      refine ((ih ⟨rest, n⟩ (Nat.lt_succ_self _)).term _ outer hdepth).trans (andThen_congr fun right d hd => ?_)
      exact (ih d.1 (d.2.1.trans (Nat.lt_succ_self _))).sumFrom _ _ outer (hdepth.trans d.2.2.symm) (chain_ends hd)
    rw [chainFrom_cons_andThen]
    have ht := hterm _ rfl
    cases lexeme with
    | plus => exact hright .add
    | minus => exact hright .sub
    | star | slash => cases ht
    | number _ | openBracket | closeBracket =>
      exact read_of_ends (c := ⟨_ :: rest, n⟩) (by simp [Cursor.Ends, Chain.operator?]) hterm left

end Places

theorem follows (c : Cursor) : Follows limits formula c := by
  obtain ⟨n, hn⟩ : ∃ n, c.rest.length = n := ⟨_, rfl⟩
  induction n using Nat.strongRecOn generalizing c with
  | ind n ih =>
    have ih (d : Cursor) (hd : d.rest.length < c.rest.length) : Follows limits formula d := ih _ (hn ▸ hd) d rfl
    have hfactor := factor_follows ih
    have hterm (sum : Option Pending) (outer : List Level) (hdepth : depth {} outer = c.nesting) :
        (State.operand { sum } outer).read limits formula c.rest =
          andThen (chain limits formula formula.toList.length .term c) fun e d =>
            (State.operator sum e outer).read limits formula d.rest := by
      rw [chain_andThen, operand_term]
      refine (hfactor { sum } outer hdepth).trans (andThen_congr fun e d _ => ?_)
      exact (ih d.1 d.2.1).termFrom e sum outer (hdepth.trans d.2.2.symm)
    constructor
    case factor => exact hfactor
    case term => exact hterm
    case termFrom => exact termFrom_follows ih
    case sum =>
      intro outer hdepth
      rw [chain_andThen, operand_sum]
      refine (hterm none outer hdepth).trans (andThen_congr fun e d hd => ?_)
      exact (ih d.1 d.2.1).sumFrom e none outer (hdepth.trans d.2.2.symm) (chain_ends hd)
    case sumFrom => exact sumFrom_follows ih

end Descent

/-- Reading the tokens with what is open kept by level is recursive descent, with the same tree, and the same error
where there is none. -/
theorem parse_eq_descend (limits : Limits) (formula : String) : parse limits formula = descend limits formula := by
  unfold descend
  rw [tokenize_eq]
  cases htokens : tokens limits formula with
  | error e =>
    rw [parse, htokens]
    rfl
  | ok ts =>
    rw [parse_of_tokens htokens]
    refine ((Descent.follows ⟨ts, 0⟩).sum [] rfl).trans ?_
    show _ = Descent.andThen (Descent.chain limits formula formula.toList.length .sum ⟨ts, 0⟩) fun node d =>
      Descent.whole formula node d.rest
    refine Descent.andThen_congr fun node d hd => ?_
    obtain ⟨hsum, hterm⟩ := Descent.sum_ends hd
    rcases Descent.rest_of_ends hsum hterm with h | ⟨lexeme, position, rest, h, ⟨n, rfl⟩ | rfl | rfl⟩ <;> rw [h] <;> rfl

end Stylesheet.Formula
