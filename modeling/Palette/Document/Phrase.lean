import Palette.Document.Basic
import Palette.Number.Decimal
import Palette.Text.Quoted

/-!
# Documents in messages

* `phrase` a value as messages show it inside quotes or brackets: texts quoted, floats by their
           fewest digits, lists in square and maps in curly brackets;
* `shown`  the same, but a text by itself stands without quotes;
* `kind`   the word for the kind of a value.

Values of any depth and whole numbers of any length have phrases here. The limits of interpreters,
of recursion and of the digits that are written, are left out; they are part of reading texts only
(`Fault.tooDeep`, `Numeral.digitLimit`).
-/

namespace Palette.Document

def openBrace : String := "\x7b"

def closeBrace : String := "\x7d"

end Palette.Document

namespace Palette.Atom

/-- a key as messages show it, a text in quotes -/
def phrase : Atom → String
  | .null => "None"
  | .bool b => if b then "True" else "False"
  | .int n => toString n
  | .float x => Decimal.shortest x
  | .text s => Text.phrase s

/-- a key as messages show it, a text as it is -/
def shown : Atom → String
  | .text s => s
  | a => phrase a

end Palette.Atom

namespace Palette.Document

mutual

/-- a value as messages show it, texts in quotes -/
def phrase : Document → String
  | .null => Atom.phrase .null
  | .bool b => Atom.phrase (.bool b)
  | .int n => Atom.phrase (.int n)
  | .float x => Atom.phrase (.float x)
  | .text s => Atom.phrase (.text s)
  | .list items => "[" ++ ", ".intercalate (phraseItems items) ++ "]"
  | .map members => openBrace ++ ", ".intercalate (phraseMembers members) ++ closeBrace

def phraseItems : List Document → List String
  | [] => []
  | d :: ds => phrase d :: phraseItems ds

/-- the members of a map: name, colon, value -/
def phraseMembers : List (Atom × Document) → List String
  | [] => []
  | (k, d) :: ds => (k.phrase ++ ": " ++ phrase d) :: phraseMembers ds

end

/-- a value as messages show it, a text as it is -/
def shown : Document → String
  | .text s => s
  | d => phrase d

theorem shown_text (s : String) : shown (.text s) = s := rfl

/-- the word for the kind of a value -/
def kind : Document → String
  | .null => "NoneType"
  | .bool _ => "bool"
  | .int _ => "int"
  | .float _ => "float"
  | .text _ => "str"
  | .list _ => "list"
  | .map _ => "dict"

end Palette.Document
