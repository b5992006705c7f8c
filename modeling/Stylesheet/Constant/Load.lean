/-
Style sheets as documents: a list of entries, or a mapping that holds one under `constants`. The
text is read by whatever reader is given. All entries are read before any constant is defined.
-/
import Stylesheet.Constant.Table
import Stylesheet.Document.Format

namespace Stylesheet

open Document (Data Scalar Format FieldError Reader)

/-- Why a document gives no constants. -/
inductive LoadError
  | unreadable (format : Format)
  | overflow (cause : Overflow)
  /-- The first entry with faults. -/
  | invalidEntry (format : Format) (faults : List FieldError)
  /-- A mapping without the list of constants, and the keys that it has instead. -/
  | noConstants (keys : List String)
  | notAList
  | definition (cause : DefinitionError)
deriving DecidableEq, Repr

namespace LoadError

def message : LoadError → String
  | unreadable format => "Failed to parse constant document (" ++ format.name ++ ")"
  | overflow cause => cause.message
  | invalidEntry format _ => "Failed to parse constant document (" ++ format.name ++ ")"
  | noConstants keys =>
    "Constant document object has no 'constants' key: " ++ ", ".intercalate keys
  | notAList => "Constant document must be a list or an object with a 'constants' list"
  | definition cause => cause.message

end LoadError

namespace Table

/-- Sorts by code points. -/
def sortNames (names : List String) : List String := names.mergeSort fun a b => !decide (b < a)

/-- The entries of a list; data that is missing has none. -/
def listedEntries : Data → Except LoadError (List Data)
  | .scalar .null => .ok []
  | .list items => .ok items
  | _ => .error .notAList

/-- The entries of a document, as data. -/
def documentEntries : Data → Except LoadError (List Data)
  | .mapping entries =>
    match Data.field? "constants" entries with
    | some data => listedEntries data
    | none => .error (.noConstants (sortNames (entries.map (·.1.label))))
  | data => listedEntries data

section

variable (reader : Reader)

/-- The data of a document text. -/
def readDocument (format : Format) (text : String) : Except LoadError Data :=
  match reader format text.toList with
  | .ok data => .ok data
  | .error .malformed => .error (.unreadable format)
  | .error (.overflow cause) => .error (.overflow cause)

/-- The entries of a document text; the format is detected if it is not given. -/
def readEntries (text : String) (format : Option Format) : Except LoadError (List Entry) := do
  let format := format.getD (Format.detect text.toList)
  let data ← readDocument reader format text
  let entries ← documentEntries data
  entries.mapM fun entry =>
    match Entry.read entry with
    | .ok entry => .ok entry
    | .error faults => .error (.invalidEntry format faults)

/-- Defines entries in turn, the source of each being its index. -/
def putEach (entries : List Entry) : Procedure Table DefinitionError Unit :=
  entries.zipIdx.forM fun (entry, i) => discard (put entry (.scalar (.int i)))

/-- The table of a document text. -/
def load (settings : Settings) (text : String) (format : Option Format) :
    Except LoadError Table := do
  let entries ← readEntries reader text format
  match (putEach entries).on (empty settings) with
  | (.ok (), table) => .ok table
  | (.error cause, _) => .error (.definition cause)

end

end Table

end Stylesheet
