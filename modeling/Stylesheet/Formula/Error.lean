/-
Why a formula has no value, and where: each cause carries what its message tells.
-/
import Stylesheet.Formula.Limits
import Stylesheet.Overflow

namespace Stylesheet.Formula

inductive Error
  /-- A character that starts no token. -/
  | strayCharacter (char : Char) (position : Nat) (formula : String)
  /-- A token that cannot stand where it does. -/
  | unexpectedToken (text : String) (position : Nat) (formula : String)
  /-- Something else stands where a bracket has to close. -/
  | missingBracket (position : Nat) (formula : String)
  | unexpectedEnd (position : Nat) (formula : String)
  | limitExceeded (limit : Limit) (allowed actual : Int)
  /-- An operator mark without meaning, in a tree that no formula gives. -/
  | unknownOperator (mark : String)
  /-- The value is not a number. -/
  | undefinedValue (formula : String)
  | overflow (cause : Overflow)
deriving DecidableEq, Repr

namespace Error

def message : Error → String
  | strayCharacter c position _ =>
    "Unexpected character: '" ++ c.toString ++ "' at position " ++ toString position
  | unexpectedToken text position _ =>
    "Unexpected character: '" ++ text ++ "' at position " ++ toString position
  | missingBracket .. => "Missing ')' bracket"
  | unexpectedEnd .. => "Unexpected end of expression"
  | limitExceeded limit allowed actual =>
    "Limit exceeded: " ++ limit.name ++ " (limit: " ++ toString allowed ++ ", actual: " ++
      toString actual ++ ")"
  | unknownOperator mark => "Unknown operator: " ++ mark
  | undefinedValue formula => "Formula evaluates to NaN: " ++ formula
  | overflow cause => cause.message

/-- The overflow that ended the evaluation, if that was why. -/
def overflow? : Error → Option Overflow
  | overflow cause => some cause
  | _ => none

def position? : Error → Option Nat
  | strayCharacter _ position _ => some position
  | unexpectedToken _ position _ => some position
  | missingBracket position _ => some position
  | unexpectedEnd position _ => some position
  | _ => none

def formula? : Error → Option String
  | strayCharacter _ _ formula => some formula
  | unexpectedToken _ _ formula => some formula
  | missingBracket _ formula => some formula
  | unexpectedEnd _ formula => some formula
  | undefinedValue formula => some formula
  | _ => none

/-- The message, with the formula and a pointer below the place where the position is known. -/
def context (e : Error) : String :=
  match e.formula?, e.position? with
  | some formula, some position =>
    e.message ++ "\n  " ++ formula ++ "\n  " ++ String.ofList (List.replicate position ' ') ++ "^"
  | _, _ => e.message

end Error

/-! ## Checks -/

def Limits.checkLength (limits : Limits) (length : Nat) : Except Error Unit :=
  match limits.length with
  | some allowed =>
    if (length : Int) > allowed then .error (.limitExceeded .length allowed length) else .ok ()
  | none => .ok ()

def Limits.checkNesting (limits : Limits) (depth : Int) : Except Error Unit :=
  if depth > limits.nesting then .error (.limitExceeded .nesting limits.nesting depth) else .ok ()

end Stylesheet.Formula
