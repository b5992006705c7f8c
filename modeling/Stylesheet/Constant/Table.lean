/-
The constants of one style sheet, in the order of their first definition, and the numbers among
them, in the order of their last. A definition that is refused changes nothing.
-/
import Stylesheet.Constant.Basic
import Stylesheet.Constant.Entry
import Stylesheet.NameMap
import Stylesheet.Procedure

namespace Stylesheet

open Document (Data)

/-- Why an entry defines no constant. -/
inductive DefinitionError
  | blankName (name value : Option String)
  | blankValue (name : String) (value : Option String)
deriving DecidableEq, Repr

namespace DefinitionError

/-- How a field is shown in a message. -/
def shown : Option String → String
  | some text => text
  | none => "None"

def message : DefinitionError → String
  | blankName name value => "constant with no name " ++ shown name ++ " = " ++ shown value
  | blankValue name value => "constant with no value " ++ name ++ " = " ++ shown value

def name? : DefinitionError → Option String
  | blankName name _ => name
  | blankValue name _ => some name

end DefinitionError

structure Table where
  settings : Settings
  constants : NameMap Constant
  numbers : NameMap Double
  /-- Every constant stands under its own name. -/
  named : ∀ entry ∈ constants.entries, entry.2.name = entry.1

namespace Table

/-- A constant is found under its name, and only there. -/
theorem find?_constants_iff (table : Table) (name : String) (c : Constant) :
    table.constants.find? name = some c ↔ c ∈ table.constants.values ∧ c.name = name := by
  rw [NameMap.find?_eq_some_iff, NameMap.values, List.mem_map]
  constructor
  · intro h
    exact ⟨⟨_, h, rfl⟩, table.named _ h⟩
  · rintro ⟨⟨entry, h, rfl⟩, rfl⟩
    rw [table.named _ h]
    exact h

def empty (settings : Settings) : Table := ⟨settings, .empty, .empty, by simp [NameMap.empty]⟩

instance : Inhabited Table := ⟨empty {}⟩

/-- The table wherever its constants were declared. -/
def bare (table : Table) : Table :=
  { table with
    constants := table.constants.map Constant.bare
    named := by
      intro entry h
      obtain ⟨entry', h', rfl⟩ := List.mem_map.1 h
      exact table.named entry' h' }

/-- A field that is there and holds more than blanks. -/
def filled? : Option String → Option String
  | some text => if Text.allBlank text then none else some text
  | none => none

/-- The constant that an entry declares; an empty type is none. -/
def constantOf (settings : Settings) (entry : Entry) (source : Data) :
    Except DefinitionError Constant :=
  match filled? entry.name, filled? entry.value with
  | none, _ => .error (.blankName entry.name entry.value)
  | some name, none => .error (.blankValue name entry.value)
  | some name, some value =>
    .ok (.define settings name value (entry.type.filter (· != "")) source)

/-! ## Updates -/

/-- Forgets the number of a name. -/
def dropNumber (table : Table) (name : String) : Table := { table with numbers := table.numbers.erase name }

/-- Puts a constant under its name, in the place of the one that is there. -/
def setConstant (table : Table) (c : Constant) : Table :=
  { table with
    constants := table.constants.insert c.name c
    named := fun _ h => by
      rcases NameMap.eq_or_mem_of_mem_insertEntry h with rfl | h
      · rfl
      · exact table.named _ h }

/-- Puts a number under a name. -/
def setNumber (table : Table) (name : String) (x : Double) : Table :=
  { table with numbers := table.numbers.insert name x }

/-- Adds a constant, or redefines the one of its name, whose number is forgotten first. -/
def add (table : Table) (c : Constant) : Table :=
  { table.setConstant c with
    numbers :=
      let others := if table.constants.contains c.name then table.numbers.erase c.name else table.numbers
      match c.quantity? with
      | some q => others.insert c.name q.number
      | none => others }

@[simp] theorem settings_add (table : Table) (c : Constant) : (table.add c).settings = table.settings := rfl

@[simp] theorem constants_add (table : Table) (c : Constant) :
    (table.add c).constants = table.constants.insert c.name c := rfl

/-- The changes that the definition of a constant makes, in turn. -/
def enter (c : Constant) : Procedure Table DefinitionError Unit := do
  if (← get).constants.contains c.name then modify (·.dropNumber c.name)
  modify (·.setConstant c)
  if let some q := c.quantity? then modify (·.setNumber c.name q.number)

theorem on_enter (c : Constant) (table : Table) : (enter c).on table = (.ok (), table.add c) := by
  unfold enter add
  rw [Procedure.on_bind, Procedure.on_get]
  dsimp only
  cases table.constants.contains c.name <;> cases c.quantity? <;> rfl

/-- A constant and the table with it added, or why there is none and the same table. -/
def taking {ε : Type} (table : Table) : Except ε Constant → Except ε Constant × Table
  | .ok c => (.ok c, table.add c)
  | .error e => (.error e, table)

/-- Defines the constant of an entry. -/
def put (entry : Entry) (source : Data) : Procedure Table DefinitionError Constant := do
  let some name := filled? entry.name | throw (.blankName entry.name entry.value)
  let some value := filled? entry.value | throw (.blankValue name entry.value)
  let c := Constant.define (← get).settings name value (entry.type.filter (· != "")) source
  enter c
  return c

/-- A definition adds the constant of the entry. One that is refused is so before its first change. -/
theorem on_put (entry : Entry) (source : Data) (table : Table) :
    (put entry source).on table = table.taking (constantOf table.settings entry source) := by
  unfold constantOf put
  cases filled? entry.name with
  | none => exact Procedure.on_throw _ table
  | some name =>
    cases filled? entry.value with
    | none => exact Procedure.on_throw _ table
    | some value =>
      let c := Constant.define table.settings name value (entry.type.filter (· != "")) source
      show Procedure.on (enter c >>= fun _ => pure c) table = (.ok c, table.add c)
      rw [Procedure.on_bind, on_enter]
      exact Procedure.on_pure c (table.add c)

end Table

end Stylesheet
