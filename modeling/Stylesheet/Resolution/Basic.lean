/-
What is known of each constant while references are resolved. A constant waits for others, has its
value, or has none although all it refers to have theirs.
-/
import Stylesheet.Constant.Table
import Stylesheet.Formula.Variables

namespace Stylesheet

open Formula (Bindings)

/-- What a resolved constant stands for: its text, and its number and unit if it is one. -/
structure Settled where
  text : String
  number : Option Double
  unit : Option String
deriving DecidableEq

inductive Resolution
  | pending (rawValue : String)
  | resolved (value : Settled)
  /-- The formula is not a number although every constant in it is resolved. -/
  | failed (rawValue formula : String)
deriving DecidableEq

namespace Resolution

/-- The texts of what is not resolved are the raw values. -/
def text : Resolution → String
  | pending rawValue => rawValue
  | resolved value => value.text
  | failed rawValue _ => rawValue

def number? : Resolution → Option Double
  | resolved value => value.number
  | _ => none

def unit? : Resolution → Option String
  | resolved value => value.unit
  | _ => none

def error? : Resolution → Option String
  | failed _ formula => some (Formula.Error.undefinedValue formula).message
  | _ => none

def isResolved : Resolution → Bool
  | resolved _ => true
  | _ => false

/-- How far a constant is from its value. -/
def distance : Resolution → Nat
  | pending _ => 2
  | failed .. => 1
  | resolved _ => 0

theorem distance_pos_of_not_isResolved {r : Resolution} (h : r.isResolved = false) :
    0 < r.distance := by
  cases r <;> simp_all [isResolved, distance]

end Resolution

/-- The resolutions of all constants of a table, in its order. -/
abbrev States := NameMap Resolution

namespace States

/-- Before any reference is followed: quantities and texts are resolved, references and lists
that hold some are not. -/
def initialOf (c : Constant) : Resolution :=
  match c.quantity? with
  | some q => .resolved ⟨c.rawValue, some q.number, q.unit⟩
  | none =>
    if if c.isComposite then !c.references.isEmpty else c.isReference then .pending c.rawValue
    else .resolved ⟨c.rawValue, none, none⟩

def initial (table : Table) : States := table.constants.map initialOf

/-- The numbers of resolved constants. -/
def numbers (states : States) : Bindings := fun name => (states.find? name).bind (·.number?)

/-- The numbers of resolved constants; what is not resolved is not a number yet. -/
def knownNumbers (states : States) : Bindings := fun name =>
  match states.find? name with
  | some (.resolved value) => value.number
  | some _ => some .nan
  | none => none

/-- The names in a formula whose constants are not resolved. -/
def waitingFor (states : States) (formula : String) : List String :=
  (Formula.names formula).filter fun name =>
    match states.find? name with
    | some r => !r.isResolved
    | none => false

/-- The unit of the first constant in a formula that has one. -/
def inferUnit (states : States) (formula : String) : Option String :=
  (Formula.names formula).findSome? fun name =>
    ((states.find? name).bind (·.unit?)).filter (!Text.allBlank ·)

/-- The literal text of a reference without its mark. The name of a constant without number
stands for its text; anything else is evaluated and written with the unit of its constants. -/
def literal (states : States) (limits : Formula.Limits) (formula : String) :
    Except Formula.Error String :=
  match states.find? formula with
  | some (.resolved ⟨text, none, _⟩) => .ok text
  | _ =>
    match Formula.evaluate limits states.numbers formula with
    | .ok value =>
      if value.isNaN then .error (.undefinedValue formula)
      else .ok (Quantity.write ⟨value, states.inferUnit formula⟩)
    | .error error => .error error

end States

end Stylesheet
