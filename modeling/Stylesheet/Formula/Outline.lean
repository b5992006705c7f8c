/-
Outlines of expression trees: one line for each node, a node above its operands and less indented
than they.
-/
import Stylesheet.Decimal.Layout
import Stylesheet.Formula.Error
import Stylesheet.Formula.Expr

namespace Stylesheet.Formula.Expr

/-- A level is indented by this many spaces. -/
def indentWidth : Nat := 2

/-- Nothing is indented below level zero. -/
def indentation (level : Int) : String :=
  String.ofList (List.replicate (indentWidth * level.toNat) ' ')

/-- The lines of a tree whose root stands at `level`. -/
def outlineLines (level : Int) : Expr → List String
  | number _ value => [indentation level ++ "Number: " ++ value.numeral]
  | negate _ operand => (indentation level ++ "UnaryMinus") :: outlineLines (level + 1) operand
  | binary _ operator left right =>
    (indentation level ++ "BinaryOp: " ++ operator.mark) ::
      (outlineLines (level + 1) left ++ outlineLines (level + 1) right)

def outline (level : Int) (e : Expr) : String := "\n".intercalate (e.outlineLines level)

/-- The outline, if its indentation fits into a text. -/
def outlineAt (level : Int) (e : Expr) : Except Error String :=
  match Overflow.checkCopies indentWidth level with
  | .ok () => .ok (e.outline level)
  | .error cause => .error (.overflow cause)

end Stylesheet.Formula.Expr
