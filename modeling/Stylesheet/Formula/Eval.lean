/-
The value of an expression, over any arithmetic. Chains of operators lean left, so the left spine
is walked down first and the operators are then applied from its foot upwards: only brackets and
minus signs nest.
-/
import Stylesheet.Double.Arithmetic
import Stylesheet.Formula.Expr
import Stylesheet.Formula.Error

namespace Stylesheet.Formula

/-- The operations that an expression is evaluated with. -/
structure Arithmetic (α : Type) where
  ofDouble : Double → α
  neg : α → α
  add : α → α → α
  sub : α → α → α
  mul : α → α → α
  div : α → α → α

/-- The arithmetic of doubles. -/
def Arithmetic.double : Arithmetic Double :=
  { ofDouble := id, neg := Double.neg, add := Double.add, sub := Double.sub, mul := Double.mul,
    div := Double.div }

def Arithmetic.apply {α : Type} (arith : Arithmetic α) (left right : α) :
    Operator → Except Error α
  | .add => .ok (arith.add left right)
  | .sub => .ok (arith.sub left right)
  | .mul => .ok (arith.mul left right)
  | .div => .ok (arith.div left right)
  | .other mark => .error (.unknownOperator mark)

/-- An operator on a left spine, with its right operand. -/
structure Link where
  operator : Operator
  right : Expr

namespace Expr

/-- Nodes, with two for an operator: one is spent on the way down the spine, one on the way up. -/
def weight : Expr → Nat
  | number .. => 1
  | negate _ operand => 1 + operand.weight
  | binary _ _ left right => 2 + left.weight + right.weight

def linksWeight (links : List Link) : Nat := links.foldr (fun l n => 1 + l.right.weight + n) 0

mutual

/-- The value of an expression at the foot of a spine whose operators, from the foot upwards, are
`links`. -/
def evalSpine {α : Type} (arith : Arithmetic α) (e : Expr) (links : List Link) : Except Error α :=
  match e with
  | number _ value => climb arith (arith.ofDouble value) links
  | negate _ operand =>
    match evalSpine arith operand [] with
    | .ok value => climb arith (arith.neg value) links
    | .error error => .error error
  | binary _ operator left right => evalSpine arith left (⟨operator, right⟩ :: links)
termination_by e.weight + linksWeight links
decreasing_by
  all_goals simp only [weight, linksWeight, List.foldr_cons, List.foldr_nil]
  all_goals omega

/-- Applies the operators of a spine to the value at its foot. -/
def climb {α : Type} (arith : Arithmetic α) (value : α) (links : List Link) : Except Error α :=
  match links with
  | [] => .ok value
  | link :: links =>
    match evalSpine arith link.right [] with
    | .ok right =>
      match arith.apply value right link.operator with
      | .ok value => climb arith value links
      | .error error => .error error
    | .error error => .error error
termination_by linksWeight links
decreasing_by
  all_goals simp only [linksWeight, List.foldr_cons, List.foldr_nil]
  all_goals omega

end

/-- The value of an expression; operands come before their operator, the left one first. -/
def evalWith {α : Type} (arith : Arithmetic α) (e : Expr) : Except Error α := evalSpine arith e []

/-- What an expression at the foot of a spine is worth depends on its own value alone. -/
theorem evalSpine_eq {α : Type} (arith : Arithmetic α) (e : Expr) (links : List Link) :
    evalSpine arith e links = (evalWith arith e).bind fun value => climb arith value links := by
  induction e generalizing links with
  | number position value => simp [evalWith, evalSpine, climb, Except.bind]
  | negate position operand ih =>
    simp only [evalWith, evalSpine, climb]
    cases evalSpine arith operand [] <;> simp [Except.bind]
  | binary position operator left right ihl ihr =>
    simp only [evalWith, evalSpine]
    rw [ihl, ihl [⟨operator, right⟩]]
    cases evalWith arith left with
    | error e => rfl
    | ok value =>
      simp only [Except.bind, climb]
      cases evalSpine arith right [] with
      | error e => rfl
      | ok other =>
        dsimp only
        cases arith.apply value other operator <;> rfl

theorem evalWith_number {α : Type} (arith : Arithmetic α) (position : Nat) (value : Double) :
    evalWith arith (.number position value) = .ok (arith.ofDouble value) := by
  simp [evalWith, evalSpine, climb]

theorem evalWith_negate {α : Type} (arith : Arithmetic α) (position : Nat) (operand : Expr) :
    evalWith arith (.negate position operand) = (evalWith arith operand).map arith.neg := by
  simp only [evalWith, evalSpine, climb]
  cases evalSpine arith operand [] <;> rfl

/-- The operands come first, the left one before the right one. -/
theorem evalWith_binary {α : Type} (arith : Arithmetic α) (position : Nat) (operator : Operator)
    (left right : Expr) :
    evalWith arith (.binary position operator left right) =
      (evalWith arith left).bind fun l =>
        (evalWith arith right).bind fun r => arith.apply l r operator := by
  rw [evalWith, evalSpine, evalSpine_eq]
  congr 1
  funext l
  rw [climb, evalWith]
  cases evalSpine arith right [] with
  | error e => rfl
  | ok r => simp only [Except.bind]; cases arith.apply l r operator <;> simp [climb]

def eval (e : Expr) : Except Error Double := e.evalWith Arithmetic.double

end Expr

end Stylesheet.Formula
