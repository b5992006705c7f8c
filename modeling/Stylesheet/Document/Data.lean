/-
What a document holds: scalars, lists and mappings. Keys of a mapping are scalars; two that are
equal as numbers or as instants are one key, and the last value given to a key is its value.
-/
import Stylesheet.Decimal.Layout
import Stylesheet.Document.ReadError
import Stylesheet.Document.Stamp

namespace Stylesheet.Document

inductive Scalar
  | null
  | bool (value : Bool)
  | int (value : Int)
  | float (value : Double)
  | text (value : String)
  | stamp (value : Stamp)
deriving DecidableEq

namespace Scalar

/-- The whole number that a scalar equals as a key, if any: truth values are one and zero. -/
def whole? : Scalar → Option Int
  | bool value => some (if value then 1 else 0)
  | int value => some value
  | float value =>
    match value.truncate? with
    | some n => if Double.ofInt n = value ∨ value.isZero then some n else none
    | none => none
  | _ => none

/-- Two scalars are the same key. -/
def sameKey : Scalar → Scalar → Bool
  | stamp s, stamp t => s.same t
  | a, b =>
    match a.whole?, b.whole? with
    | some m, some n => m == n
    | none, none => a == b
    | _, _ => false

/-- How a scalar is named in a message. -/
def label : Scalar → String
  | null => "None"
  | bool true => "True"
  | bool false => "False"
  | int value => toString value
  | float value => value.numeral
  | text value => value
  | stamp value => value.text

end Scalar

inductive Data
  | scalar (value : Scalar)
  | list (items : List Data)
  | mapping (entries : List (Scalar × Data))

namespace Data

abbrev Entries := List (Scalar × Data)

def null : Data := .scalar .null

instance : Inhabited Data := ⟨null⟩

/-- The text that the data is. -/
def text? : Data → Option String
  | .scalar (.text value) => some value
  | _ => none

/-- The value of a key. -/
def lookup? (key : Scalar) (entries : Entries) : Option Data :=
  (entries.find? fun entry => entry.1.sameKey key).map (·.2)

/-- Gives a key its value; a key that is there keeps its place and its form. -/
def insert (key : Scalar) (value : Data) : Entries → Entries
  | [] => [(key, value)]
  | (k, v) :: entries =>
    if k.sameKey key then (k, value) :: entries else (k, v) :: insert key value entries

/-- The value under a text key. -/
def field? (name : String) (entries : Entries) : Option Data := lookup? (.text name) entries

end Data

end Stylesheet.Document
