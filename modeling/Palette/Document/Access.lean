import Palette.Fault
import Palette.Number.Numeral

/-!
# Reading documents

Reading a part of a value of unknown kind. Each reader says what is wrong when the value is of
another kind.

* `get`      a member that may be missing, of a map;
* `need`     a member that must be there;
* `entries`  all members of a map;
* `elements` the elements of a list, the letters of a text, the keys of a map;
* `mentions` is a name among them?
* `pair`     the elements of a value that has two;
* `dictionary`  the entries of a map or of a row of pairs;
* `number`   a float, from a number or from a text that writes one;
* `numeric`  a float, from a number alone, and `unbounded` the same beyond the range of floats;
* `whole`    a whole number, likewise.
-/

namespace Palette.Document

def get (d : Document) (name : String) : Except Fault (Option Document) :=
  match d with
  | .map members => .ok (members.lookup (.text name))
  | _ => .error .notMap

def need (d : Document) (name : String) : Except Fault Document :=
  match d with
  | .map members =>
    match members.lookup (.text name) with
    | some v => .ok v
    | none => .error (.noMember name)
  | d => .error (.wrongKind (.members d))

def entries : Document → Except Fault (Entries Atom Document)
  | .map members => .ok members
  | _ => .error .notMap

/-- the members of a map that may be missing, null or another empty value -/
def entriesOf (d : Option Document) : Except Fault (Entries Atom Document) :=
  match d with
  | some v => if v.truthy then v.entries else .ok []
  | none => .ok []

/-- the elements of a list, the letters of a text, or the keys of a map -/
def elements : Document → Except Fault (List Document)
  | .list items => .ok items
  | .text s => .ok ((Text.letters s).map .text)
  | .map members => .ok (members.map fun m => m.1.document)
  | d => .error (.wrongKind (.elements d))

/-- the elements of a value that may be missing, null or another empty value -/
def elementsOf (d : Option Document) : Except Fault (List Document) :=
  match d with
  | some v => if v.truthy then v.elements else .ok []
  | none => .ok []

/-- a whole number as a float, if it is in the range of floats -/
def floatOfInt (n : Int) : Except Fault Float :=
  let x := Dyadic.toFloat n
  if x.isInf then .error .overflow else .ok x

/-- a number, a boolean, or a text that writes a number, as a float -/
def number : Document → Except Fault Float
  | .int n => floatOfInt n
  | .float x => .ok x
  | .bool b => .ok (if b then 1.0 else 0.0)
  | .text s =>
    match Numeral.float? s with
    | some x => .ok x
    | none => .error (.unreadable (.float s))
  | d => .error (.wrongKind (.number d))

/-- a number or a boolean as a float -/
def numeric : Document → Except Fault Float
  | .int n => floatOfInt n
  | .float x => .ok x
  | .bool b => .ok (if b then 1.0 else 0.0)
  | _ => .error .wrongKind

/-- a number or a boolean as a float, infinite where it is too large for one -/
def unbounded (d : Document) : Except Fault Float :=
  match d with
  | .int n =>
    match floatOfInt n with
    | .ok x => .ok x
    | .error _ => .ok (if 0 ≤ n then Numeral.infinity else -Numeral.infinity)
  | d => d.numeric

/-- a number without its fraction, a boolean, or a text that writes a whole number -/
def whole : Document → Except Fault Int
  | .int n => .ok n
  | .bool b => .ok (if b then 1 else 0)
  | .float x =>
    match Dyadic.ofFloat? x with
    | some d => .ok d.truncated
    | none => if x.isNaN then .error (.unreadable .nan) else .error .overflow
  | .text s =>
    match Numeral.int? s with
    | some n => .ok n
    | none => .error (.unreadable (.whole s))
  | _ => .error .wrongKind

def asKey (d : Document) : Except Fault Atom :=
  match d.atom? with
  | some a => .ok a
  | none => .error (.wrongKind (.key d))

/-- does a list or a map have an element or a member with this name, or does a text contain it? -/
def mentions (d : Document) (name : String) : Except Fault Bool :=
  match d with
  | .map members => .ok (members.lookup (.text name)).isSome
  | .list items => .ok (items.any fun i => i.same (.text name))
  | .text s => .ok (1 < (s.splitOn name).length)
  | _ => .error .wrongKind

def pair (d : Document) : Except Fault (Document × Document) :=
  match d.elements with
  | .ok [a, b] => .ok (a, b)
  | .ok parts => .error (.unreadable (.pair parts.length))
  | .error _ => .error (.wrongKind (.pair d))

/-- the two parts of the entry at a position in a row of entries -/
def entryAt (position : Nat) (d : Document) : Except Fault (Atom × Document) :=
  match d.elements with
  | .ok [k, v] => do return (← k.asKey, v)
  | .ok parts => .error (.unreadable (.entry position parts.length))
  | .error _ => .error (.wrongKind (.entry position))

/-- the entries of a map, or those that a row of pairs gives -/
def dictionary : Document → Except Fault (Entries Atom Document)
  | .map members => .ok members
  | d => do
    let rows ← d.elements
    return Entries.ofList (← rows.zipIdx.mapM fun r => entryAt r.2 r.1)

end Palette.Document
