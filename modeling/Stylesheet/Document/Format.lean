/-
The formats of documents. A text that starts like a JSON collection is taken for JSON, any other
for YAML. What reads the texts is not said here: whoever loads a document brings a reader.
-/
import Stylesheet.Document.Data
import Stylesheet.Text.Blank

namespace Stylesheet.Document

inductive Format
  | json
  | yaml
deriving DecidableEq, Repr

namespace Format

def all : List Format := [json, yaml]

def name : Format → String
  | json => "json"
  | yaml => "yaml"

def ofName? (name : String) : Option Format := all.find? (·.name == name)

/-- The format that the first character other than blanks tells. -/
def detect (text : List Char) : Format :=
  match (text.dropWhile Text.isBlank).head? with
  | some '\x7b' => json
  | some '[' => json
  | _ => yaml

end Format

/-- A reader of documents: the data of a text in a format, or why it holds none. -/
abbrev Reader := Format → List Char → Reading Data

end Stylesheet.Document
