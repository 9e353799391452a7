import Palette.Document.Phrase

/-!
# Writing documents

* `compact`  a value on one line without blanks;
* `indented` a value with two blanks of indentation a level; empty lists and maps stay on one
             line;
* `Atom.name` the name of the member that a key is;
* `named`    the value that is read from what is written: its keys are names.

Both write plain ASCII, and floats by their fewest digits.
-/

namespace Palette.Document

def floatText (x : Float) : String :=
  if x.isNaN then "NaN"
  else if x.isInf then (if x < 0.0 then "-Infinity" else "Infinity")
  else Decimal.shortest x

def textText (s : String) : String := String.ofList (Text.plain s.toList)

end Palette.Document

namespace Palette.Atom

def name : Atom → String
  | .null => "null"
  | .bool b => if b then "true" else "false"
  | .int n => toString n
  | .float x => Document.floatText x
  | .text s => s

end Palette.Atom

namespace Palette.Document

mutual

def compact : Document → String
  | .null => Atom.name .null
  | .bool b => Atom.name (.bool b)
  | .int n => Atom.name (.int n)
  | .float x => Atom.name (.float x)
  | .text s => textText s
  | .list items => "[" ++ ",".intercalate (compactItems items) ++ "]"
  | .map members => openBrace ++ ",".intercalate (compactMembers members) ++ closeBrace

def compactItems : List Document → List String
  | [] => []
  | d :: ds => compact d :: compactItems ds

def compactMembers : List (Atom × Document) → List String
  | [] => []
  | (k, d) :: ds => (textText k.name ++ ":" ++ compact d) :: compactMembers ds

end

/-- a new line and its indentation -/
def newline (depth : Nat) : String := "\n" ++ "".pushn ' ' (2 * depth)

/-- parts between brackets, each on a line of its own one level deeper -/
def bracketed (before after : String) (depth : Nat) (parts : List String) : String :=
  before ++ newline (depth + 1) ++ ("," ++ newline (depth + 1)).intercalate parts ++
    newline depth ++ after

mutual

/-- a value whose first line stands at a depth -/
def indentedAt (depth : Nat) : Document → String
  | .list [] => "[]"
  | .map [] => openBrace ++ closeBrace
  | .list (d :: ds) =>
    bracketed "[" "]" depth (indentedAt (depth + 1) d :: indentedItems (depth + 1) ds)
  | .map ((k, d) :: ds) =>
    bracketed openBrace closeBrace depth
      ((textText k.name ++ ": " ++ indentedAt (depth + 1) d) :: indentedMembers (depth + 1) ds)
  | .null => Atom.name .null
  | .bool b => Atom.name (.bool b)
  | .int n => Atom.name (.int n)
  | .float x => Atom.name (.float x)
  | .text s => textText s

def indentedItems (depth : Nat) : List Document → List String
  | [] => []
  | d :: ds => indentedAt depth d :: indentedItems depth ds

def indentedMembers (depth : Nat) : List (Atom × Document) → List String
  | [] => []
  | (k, d) :: ds => (textText k.name ++ ": " ++ indentedAt depth d) :: indentedMembers depth ds

end

def indented (d : Document) : String := indentedAt 0 d

mutual

/-- the value with names for keys; of keys with one name the first has the place and the last the
value -/
def named : Document → Document
  | .list items => .list (namedItems items)
  | .map members => .map (Entries.ofList (namedMembers members))
  | d => d

def namedItems : List Document → List Document
  | [] => []
  | d :: ds => named d :: namedItems ds

def namedMembers : List (Atom × Document) → List (Atom × Document)
  | [] => []
  | (k, d) :: ds => (.text k.name, named d) :: namedMembers ds

end

end Palette.Document
