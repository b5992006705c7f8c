/-
Expression trees. Brackets leave no trace; every node knows the position of the token that made
it. A tree made by hand may hold an operator mark that has no meaning.
-/
import Stylesheet.Double.Basic

namespace Stylesheet.Formula

inductive Operator
  | add
  | sub
  | mul
  | div
  | other (mark : String)
deriving DecidableEq, Repr

namespace Operator

def mark : Operator → String
  | add => "+"
  | sub => "-"
  | mul => "*"
  | div => "/"
  | other mark => mark

def ofMark (mark : String) : Operator :=
  if mark = "+" then add
  else if mark = "-" then sub
  else if mark = "*" then mul
  else if mark = "/" then div
  else other mark

theorem mark_ofMark (s : String) : (ofMark s).mark = s := by
  unfold ofMark
  repeat' split
  all_goals simp_all [mark]

end Operator

inductive Expr
  | number (position : Nat) (value : Double)
  | negate (position : Nat) (operand : Expr)
  | binary (position : Nat) (operator : Operator) (left right : Expr)
deriving DecidableEq, Inhabited

namespace Expr

def position : Expr → Nat
  | number position _ => position
  | negate position _ => position
  | binary position .. => position

end Expr

end Stylesheet.Formula
