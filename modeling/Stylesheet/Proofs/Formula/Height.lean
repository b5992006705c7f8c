/-
How deep evaluation recurses. The evaluator calls itself for the operand of a minus sign, and for the foot and the right
operands of a left spine, along which it goes in a loop. So as many calls are open at once as the tree is high
(`Expr.evalWithin_of_height_le`), and a chain of operators is one call higher than the highest of its operands. A
bracket adds two calls at most, one for the terms in it and one for the factors of a term. So it is the nesting of a
formula that bounds the calls, not its length (`Expr.height_le_of_parse`).
-/
import Stylesheet.Formula.Eval
import Stylesheet.Proofs.Formula.Nesting

namespace Stylesheet.Formula

open Stylesheet.Text (Numeral)

namespace Expr

/-! ## Spines -/

/-- The leaf at the bottom of the left spine. -/
def foot : Expr → Expr
  | binary _ _ left _ => left.foot
  | e => e

/-- The operators of the left spine with their right operands, from the foot upwards. -/
def links : Expr → List Link
  | binary _ operator left right => left.links ++ [⟨operator, right⟩]
  | _ => []

mutual

/-- The calls of the evaluator that are open at once. -/
def height : Expr → Nat
  | number .. => 1
  | negate _ operand => 1 + operand.height
  | binary _ _ left right => 1 + max left.spineHeight right.height

/-- The greatest of the heights of the leaf at the bottom of the left spine and of the right operands along it. -/
def spineHeight : Expr → Nat
  | number .. => 1
  | negate _ operand => 1 + operand.height
  | binary _ _ left right => max left.spineHeight right.height

end

theorem spineHeight_eq (e : Expr) : e.spineHeight = (e.links.map (·.right.height)).foldl max e.foot.height := by
  induction e with
  | number position value => rfl
  | negate position operand => rfl
  | binary position operator left right ihl ihr =>
    rw [spineHeight, links, foot, List.map_append, List.foldl_append, ← ihl]
    rfl

/-- An operator takes one call more than the leaf at the bottom of its left spine and the right operands along it. -/
theorem height_binary (position : Nat) (operator : Operator) (left right : Expr) :
    let e := binary position operator left right
    e.height = 1 + (e.links.map (·.right.height)).foldl max e.foot.height := by
  intro e
  rw [← spineHeight_eq, height, spineHeight]

/-! ## Calls -/

section Calls

variable {α : Type} (arith : Arithmetic α)

/-- An operator on a spine, applied to the value below it and that of its right operand. -/
def evalLink (evaluate : Expr → Except (Option Error) α) (value : α) (link : Link) : Except (Option Error) α := do
  let other ← evaluate link.right
  (arith.apply value other link.operator).mapError some

/-- The value of an expression with so many calls open at once at most. One call too many ends the evaluation, without
an error of the formula. -/
def evalWithin : Nat → Expr → Except (Option Error) α
  | 0, _ => .error none
  | _ + 1, number _ value => .ok (arith.ofDouble value)
  | calls + 1, negate _ operand => (evalWithin calls operand).map arith.neg
  | calls + 1, binary position operator left right => do
    let value ← evalWithin calls (binary position operator left right).foot
    (binary position operator left right).links.foldlM (evalLink arith (evalWithin calls)) value

variable {arith}

theorem height_pos (e : Expr) : 0 < e.height := by
  cases e <;> simp only [height] <;> omega

/-- The loop along a spine gives its value, given that of every operand on it. -/
theorem foldlM_links {calls : Nat}
    (hcalls : ∀ {e : Expr}, e.height ≤ calls → evalWithin arith calls e = (e.evalWith arith).mapError some)
    (e : Expr) (h : e.spineHeight ≤ calls) :
    (evalWithin arith calls e.foot >>= e.links.foldlM (evalLink arith (evalWithin arith calls))) =
      (e.evalWith arith).mapError some := by
  induction e with
  | number position value => exact (bind_pure _).trans (hcalls h)
  | negate position operand => exact (bind_pure _).trans (hcalls h)
  | binary position operator left right ihl ihr =>
    rw [spineHeight] at h
    have hleft := ihl (by omega)
    have hright := hcalls (e := right) (by omega)
    simp only [foot, links, List.foldlM_append, List.foldlM_cons, List.foldlM_nil, bind_pure, ← bind_assoc, hleft]
    rw [evalWith_binary]
    cases left.evalWith arith with
    | error e => rfl
    | ok l =>
      show evalLink arith _ l ⟨operator, right⟩ = _
      rw [evalLink, hright]
      cases right.evalWith arith <;> rfl

/-- As many calls as an expression is high are enough for its value. -/
theorem evalWithin_of_height_le {e : Expr} {calls : Nat} (h : e.height ≤ calls) :
    evalWithin arith calls e = (e.evalWith arith).mapError some := by
  induction calls generalizing e with
  | zero => exact absurd e.height_pos (Nat.not_lt.2 h)
  | succ calls ih =>
    cases e with
    | number position value =>
      rw [evalWith_number]
      rfl
    | negate position operand =>
      rw [height] at h
      rw [evalWithin, ih (by omega), evalWith_negate]
      cases operand.evalWith arith <;> rfl
    | binary position operator left right =>
      rw [height_binary, ← spineHeight_eq] at h
      exact foldlM_links ih _ (by omega)

end Calls

end Expr

/-! ## Nesting -/

namespace Category

/-- By how much a tree of the category may be higher than its brackets and minus signs make it. -/
def room : Category → Nat
  | factor => 1
  | term => 2
  | expression => 3

def spineRoom : Category → Nat
  | factor => 1
  | term => 1
  | expression => 2

end Category

/-- A bracket or minus sign adds two calls at most. The factors of a term follow one another on one spine, and so do the
terms of an expression, so it does not matter how many of them there are. -/
theorem Derivation.height_tree_le {α : Type} (value : α → Double) {c : Category} (d : Derivation α c) :
    (d.tree value).height ≤ 2 * d.nesting + c.room ∧ (d.tree value).spineHeight ≤ 2 * d.nesting + c.spineRoom := by
  induction d with
  | atom a position => exact ⟨le_rfl, le_rfl⟩
  | negation position operand ih =>
    simp only [tree, Expr.height, Expr.spineHeight, nesting, Category.room, Category.spineRoom] at ih ⊢
    omega
  | brackets opening inner closing ih =>
    simp only [tree, nesting, Category.room, Category.spineRoom] at ih ⊢
    omega
  | factor only ih =>
    simp only [tree, nesting, Category.room, Category.spineRoom] at ih ⊢
    omega
  | product left sign position right ihl ihr =>
    simp only [tree, Expr.height, Expr.spineHeight, nesting, Category.room, Category.spineRoom] at ihl ihr ⊢
    omega
  | term only ih =>
    simp only [tree, nesting, Category.room, Category.spineRoom] at ih ⊢
    omega
  | sum left sign position right ihl ihr =>
    simp only [tree, Expr.height, Expr.spineHeight, nesting, Category.room, Category.spineRoom] at ihl ihr ⊢
    omega

/-- What is read is derived with no more nesting than is open at once. -/
theorem exists_derivation_deepest {limits : Limits} {formula : String} {e : Expr} (h : parse limits formula = .ok e) :
    ∃ d : Derivation Numeral .expression, d.tree limits.numberValue = e ∧ d.nesting ≤ deepest limits formula := by
  have hwide : Unbounded limits formula := by
    intro allowed actual hdeep
    rw [h] at hdeep
    cases hdeep
  -- the limit may be as low as that
  let lowest : Limits := { limits with nesting := deepest limits formula }
  have hparse : parse lowest formula = .ok e := by
    have hcut := @parse_eq_of_unbounded lowest formula limits.nesting hwide
    rw [hcut, if_pos (le_max_left ..)]
    exact h
  obtain ⟨-, d, -, -, hadmits, htree⟩ := derivation_of_parse hparse
  refine ⟨d, htree, ?_⟩
  rcases hadmits with hzero | hle
  · omega
  · exact Int.ofNat_le.1 hle

namespace Expr

/-- Nesting bounds the calls of the evaluator: with at most `n` brackets and minus signs open at once, no more than
`2 * n + 3` calls are, so as many are enough for the value over any arithmetic. -/
theorem height_le_of_parse {limits : Limits} {formula : String} {e : Expr} {n : Nat} (h : parse limits formula = .ok e)
    (hn : deepest limits formula ≤ n) :
    e.height ≤ 2 * n + 3 ∧
      ∀ {α : Type} (arith : Arithmetic α), evalWithin arith (2 * n + 3) e = (e.evalWith arith).mapError some := by
  obtain ⟨d, rfl, hnesting⟩ := exists_derivation_deepest h
  have hheight : (d.tree limits.numberValue).height ≤ 2 * n + 3 := by
    have hroom := (d.height_tree_le limits.numberValue).1
    simp only [Category.room] at hroom
    omega
  exact ⟨hheight, fun arith => evalWithin_of_height_le hheight⟩

/-- With one bracket, five calls may be needed: for the sum, the product in it, the sum and product in the bracket, and
a number. -/
theorem height_le_of_parse_attained : ∃ e, parse {} "1+2*(3+4*5)" = .ok e ∧
    deepest {} "1+2*(3+4*5)" = 1 ∧ e.height = 5 ∧
    evalWithin Arithmetic.double 5 e = .ok (Double.ofInt 47) ∧ evalWithin Arithmetic.double 4 e = .error none := by
  let e : Expr := .binary 1 .add (.number 0 (.ofInt 1)) (.binary 3 .mul (.number 2 (.ofInt 2))
    (.binary 6 .add (.number 5 (.ofInt 3)) (.binary 8 .mul (.number 7 (.ofInt 4)) (.number 9 (.ofInt 5)))))
  have hparse : parse {} "1+2*(3+4*5)" = .ok e := by decide +kernel
  have hdeepest : deepest {} "1+2*(3+4*5)" = 1 := by decide +kernel
  obtain ⟨-, hcalls⟩ := height_le_of_parse hparse hdeepest.le
  refine ⟨e, hparse, hdeepest, rfl, (hcalls Arithmetic.double).trans ?_, ?_⟩ <;> decide +kernel

end Expr

end Stylesheet.Formula
