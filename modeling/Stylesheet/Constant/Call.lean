/-
Calls that fill a table. An entry that is given as data is read before anything else; a call that is
refused leaves the table to the next one as it then is.
-/
import Stylesheet.Constant.Table

namespace Stylesheet

open Document (Data FieldError)

/-- A call that defines a constant: by an entry, by data that is read as one, or by its fields. -/
inductive Call
  | put (entry : Entry) (source : Data)
  | putData (data source : Data)
  | define (name value : String) (type : Option String) (source : Data)

/-- Why a call is refused. -/
inductive CallError
  | invalid (faults : List FieldError)
  | definition (cause : DefinitionError)
deriving DecidableEq

namespace Call

def entry : Call → Except (List FieldError) Entry
  | put entry _ => .ok entry
  | putData data _ => Entry.read data
  | define name value type _ => .ok ⟨some name, type, some value⟩

def source : Call → Data
  | put _ source => source
  | putData _ source => source
  | define _ _ _ source => source

/-- The constant that a call defines. -/
def make (call : Call) : Procedure Table CallError Constant :=
  match call.entry with
  | .ok entry => (Table.put entry call.source).mapError .definition
  | .error faults => throw (.invalid faults)

/-- Makes some calls in turn, up to the first that is refused. -/
def makeEach (calls : List Call) : Procedure Table CallError Unit := calls.forM fun call => discard call.make

end Call

namespace Table

/-- The table that a call leaves, whether it is refused or not. -/
def next (table : Table) (call : Call) : Table := (call.make.on table).2

/-- The table that some calls leave. -/
def after (table : Table) (calls : List Call) : Table := calls.foldl next table

end Table

end Stylesheet
