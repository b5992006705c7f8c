/-
Reading JSON text. The tokens are taken one by one; what is open around the next one is kept as
frames, innermost first.
-/
import Stylesheet.Document.Format
import Stylesheet.Document.Json.Token

namespace Stylesheet.Document.Json

/-- A list or mapping that is still open. -/
inductive Frame
  /-- The items so far, the last first. -/
  | list (items : List Data)
  /-- The entries so far, and the key whose value comes next. -/
  | mapping (entries : Data.Entries) (key : Scalar)

inductive State
  | value (frames : List Frame)
  /-- Right after an opening bracket: a value, or the end of the list. -/
  | firstItem (frames : List Frame)
  /-- Right after an opening brace: a key, or the end of the mapping. -/
  | firstKey (frames : List Frame)
  | key (entries : Data.Entries) (frames : List Frame)
  | colon (entries : Data.Entries) (key : Scalar) (frames : List Frame)
  /-- A value is complete. -/
  | complete (value : Data) (frames : List Frame)

namespace State

/-- A value starts with this token. -/
def startValue (frames : List Frame) : Token → Option State
  | .scalar s => some (complete (.scalar s) frames)
  | .openList => some (firstItem frames)
  | .openMapping => some (firstKey frames)
  | _ => none

/-- A key in a mapping with these entries. -/
def takeKey (entries : Data.Entries) (frames : List Frame) : Token → Option State
  | .scalar (.text name) => some (colon entries (.text name) frames)
  | _ => none

/-- What may follow a complete value. -/
def afterValue (v : Data) : List Frame → Token → Option State
  | .list items :: frames, .comma => some (State.value (.list (v :: items) :: frames))
  | .list items :: frames, .closeList => some (complete (.list (v :: items).reverse) frames)
  | .mapping entries k :: frames, .comma => some (key (Data.insert k v entries) frames)
  | .mapping entries k :: frames, .closeMapping =>
    some (complete (.mapping (Data.insert k v entries)) frames)
  | _, _ => none

def step : State → Token → Option State
  | value frames, token => startValue frames token
  | firstItem frames, .closeList => some (complete (.list []) frames)
  | firstItem frames, token => startValue (.list [] :: frames) token
  | firstKey frames, .closeMapping => some (complete (.mapping []) frames)
  | firstKey frames, token => takeKey [] frames token
  | key entries frames, token => takeKey entries frames token
  | colon entries k frames, .colon => some (value (.mapping entries k :: frames))
  | colon .., _ => none
  | complete v frames, token => afterValue v frames token

/-- The value read, if nothing is open. -/
def finish : State → Option Data
  | complete v [] => some v
  | _ => none

end State

/-- The data that JSON text holds. -/
def read? (s : List Char) : Option Data := do
  let tokens ← tokens? s
  let state ← tokens.foldlM State.step (State.value [])
  state.finish

/-- Reads JSON documents, and no others. -/
def reader : Reader
  | .json, text => Reading.ofOption (read? text)
  | .yaml, _ => malformed

end Stylesheet.Document.Json
