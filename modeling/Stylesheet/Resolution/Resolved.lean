/-
Resolving a table: aliases, formulas and lists in turn, then the aliases of lists. The result
answers what each constant stands for and replaces references in property values.
-/
import Stylesheet.Resolution.Steps
import Stylesheet.Constant.Extent

namespace Stylesheet

structure Resolved where
  settings : Settings
  states : States
  /-- How often the constants were gone through. -/
  passes : Nat

namespace Resolved

/-- The names of constants without value, in the order of the table. -/
def unresolvedNames (states : States) : List String :=
  (states.entries.filter fun entry => !entry.2.isResolved).map Prod.fst

/-- The states after all stages, and the passes made. -/
def runStages (limits : Formula.Limits) (cs : List Constant) (states : States) :
    Except ResolutionError (States × Nat) := do
  let (states, first) ← Stage.aliases.untilStable cs states
  let (states, second) ← (Stage.formulas limits).untilStable cs states
  let (states, third) ← (Stage.lists limits).untilStable cs states
  let (states, fourth) ← Stage.aliases.untilStable cs states
  .ok (states, first + second + third + fourth)

/-- The result of some passes; strict settings demand a value of every constant. -/
def conclude (settings : Settings) (states : States) (passes : Nat) : Except ResolutionError Resolved :=
  match unresolvedNames states, settings.strict with
  | first :: others, true => .error (.unresolved first others)
  | _, _ => .ok { settings, states, passes }

/-- Resolves a table. -/
def ofTable (table : Table) (settings : Settings) : Except ResolutionError Resolved := do
  let (states, passes) ←
    runStages settings.limits table.constants.values (States.initial table)
  conclude settings states passes

/-! ## Answers -/

def find? (r : Resolved) (name : String) : Option Resolution := r.states.find? name

def value? (r : Resolved) (name : String) : Option String := (r.find? name).map (·.text)

/-- The resolved numbers, in the order of the table. -/
def numbers (r : Resolved) : List (String × Double) :=
  r.states.entries.filterMap fun entry => entry.2.number?.map (entry.1, ·)

def unresolved (r : Resolved) : List String := unresolvedNames r.states

/-- The literal text of a reference in a property value; blanks around it do not count. -/
def literal (r : Resolved) (reference : List Char) : Except ResolutionError String :=
  match r.states.literal r.settings.limits (String.ofList (Text.trim reference).tail) with
  | .ok text => .ok text
  | .error cause => .error (.ofFormula (.reference (String.ofList reference.tail)) cause)

/-- Replaces the references of a property value: of a list type those among its words, joined by
single spaces; of any other the value itself. A value without references stays as it is. -/
def substitute (r : Resolved) (value : String) (type : Option String) :
    Except ResolutionError String :=
  if r.settings.isListType type then
    let words := Text.words value.toList
    if words.any isReference then
      (" ".intercalate ·) <$> words.mapM fun word =>
        if isReference word then r.literal word else .ok (String.ofList word)
    else .ok value
  else if isReference value.toList then r.literal value.toList
  else .ok value

/-- The extent that a resolved constant is, if its number is finite and its unit a known one. -/
def extentOf? : Resolution → Option Extent
  | .resolved ⟨_, some number, some unit⟩ => do
    let value ← number.truncate?
    let unit ← ExtentUnit.ofText? unit
    some ⟨value, unit⟩
  | _ => none

/-- The extents among the constants of a table, by name. A constant of the type that was not there
when the table was resolved is refused. -/
def extents (r : Resolved) (table : Table) : Except String (List (String × Extent)) := do
  let found ← (table.constants.values.filter (·.type == some Extent.typeName)).mapM fun c =>
    match r.find? c.name with
    | some state => .ok ((extentOf? state).map (c.name, ·))
    | none => .error c.name
  .ok (found.filterMap id)

end Resolved

end Stylesheet
