import Palette.Entries
import Palette.Number.Dyadic

/-!
# Documents

The values of specification and registry files: what a JSON text holds, with whole numbers and
floats told apart and the members of a map in order. The keys of a map are texts where it was read
from a file, but a value that was put together elsewhere may have others.

* `Document`      the values; `record` a map whose keys are texts;
* `truthy`        empty and zero values count as absent where an option is optional;
* `Atom`, `atom?` the values that may serve as keys and names; `Atom.key` is their normal form, in
                  which `1`, `1.0` and `true` are one key;
* `same`          equality of values, numbers compared by value and maps without order;
* `differs`       its opposite, of values and of keys, but what is no number differs even from
                  itself.
-/

namespace Palette

/-- the normal form of a key -/
inductive Key where
  | null
  | int (value : Int)
  | float (bits : UInt64)
  | text (value : String)
  deriving DecidableEq, Hashable, Repr

/-- a value that may serve as a key -/
inductive Atom where
  | null
  | bool (value : Bool)
  | int (value : Int)
  | float (value : Float)
  | text (value : String)
  deriving Inhabited

inductive Document where
  | null
  | bool (value : Bool)
  | int (value : Int)
  | float (value : Float)
  | text (value : String)
  | list (items : List Document)
  | map (members : List (Atom × Document))
  deriving Inhabited

namespace Document

/-- does the value count as present? Null, false, zeros and empty values do not. -/
def truthy : Document → Bool
  | .null => false
  | .bool b => b
  | .int n => n != 0
  | .float x => x != 0.0
  | .text s => s != ""
  | .list items => !items.isEmpty
  | .map members => !members.isEmpty

/-- the value as a key; lists and maps are none -/
def atom? : Document → Option Atom
  | .null => some .null
  | .bool b => some (.bool b)
  | .int n => some (.int n)
  | .float x => some (.float x)
  | .text s => some (.text s)
  | .list _ => none
  | .map _ => none

/-- the map with texts for keys -/
def record (members : List (String × Document)) : Document :=
  .map (members.map fun m => (.text m.1, m.2))

def text? : Document → Option String
  | .text s => some s
  | _ => none

/-- the value as a whole number; a boolean is one or zero -/
def int? : Document → Option Int
  | .int n => some n
  | .bool b => some (if b then 1 else 0)
  | _ => none

def isNull : Document → Bool
  | .null => true
  | _ => false

def isMap : Document → Bool
  | .map _ => true
  | _ => false

def isText : Document → Bool
  | .text _ => true
  | _ => false

end Document

namespace Atom

/-- the whole number that a float equals, if there is one -/
def wholeOf? (x : Float) : Option Int :=
  let bits : Nat := x.toBits.toNat
  let e : Nat := bits / pow2 52 % pow2 11
  let f := bits % pow2 52
  let sign : Int := if bits / pow2 63 == 1 then -1 else 1
  if e == 0 then if f == 0 then some 0 else none
  else if e == 2047 then none
  else
    let m := f + pow2 52
    if 1075 ≤ e then some (sign * ((m * pow2 (e - 1075) : Nat) : Int))
    else if m % pow2 (1075 - e) == 0 then some (sign * ((m / pow2 (1075 - e) : Nat) : Int))
    else none

/-- the normal form: numbers by value -/
def key : Atom → Key
  | .null => .null
  | .bool b => .int (if b then 1 else 0)
  | .int n => .int n
  | .float x =>
    match wholeOf? x with
    | some n => .int n
    | none => .float x.toBits
  | .text s => .text s

instance : BEq Atom := ⟨fun a b => a.key == b.key⟩

instance : Hashable Atom := ⟨fun a => hash a.key⟩

theorem beq_iff (a b : Atom) : (a == b) = true ↔ a.key = b.key := by
  show (a.key == b.key) = true ↔ _
  simp

instance : EquivBEq Atom where
  rfl := (beq_iff _ _).2 rfl
  symm h := (beq_iff _ _).2 ((beq_iff _ _).1 h).symm
  trans h h' := (beq_iff _ _).2 (((beq_iff _ _).1 h).trans ((beq_iff _ _).1 h'))

instance : LawfulHashable Atom where
  hash_eq a b h := by
    show hash a.key = hash b.key
    rw [(beq_iff a b).1 h]

def text? : Atom → Option String
  | .text s => some s
  | _ => none

/-- Do two keys differ? What is no number is one key, but differs even from itself. -/
def differs (a b : Atom) : Bool :=
  match a with
  | .float x => x.isNaN || a != b
  | _ => a != b

def isText (a : Atom) : Bool := a.text?.isSome

def document : Atom → Document
  | .null => .null
  | .bool b => .bool b
  | .int n => .int n
  | .float x => .float x
  | .text s => .text s

theorem atom?_document (a : Atom) : a.document.atom? = some a := by
  cases a <;> rfl

theorem text_beq (s t : String) : (Atom.text s == Atom.text t) = (s == t) := by
  rw [Bool.eq_iff_iff, beq_iff]
  simp [key]

theorem text_differs (s t : String) : (Atom.text s).differs (Atom.text t) = (s != t) := by
  show (Atom.text s != Atom.text t) = _
  rw [bne, bne, text_beq]

end Atom

namespace Document

theorem atom?_text (s : String) : (Document.text s).atom? = some (.text s) := rfl

mutual

def same : Document → Document → Bool
  | .list as, d => match d with
    | .list bs => sameItems as bs
    | _ => false
  | .map as, d => match d with
    | .map bs => as.length == bs.length && sameMembers as bs
    | _ => false
  | a, b => match a.atom?, b.atom? with
    | some x, some y => x == y
    | _, _ => false

def sameItems : List Document → List Document → Bool
  | [], bs => bs.isEmpty
  | _ :: _, [] => false
  | a :: as, b :: bs => same a b && sameItems as bs

/-- is each member of the first map in the second with the same value? -/
def sameMembers : List (Atom × Document) → List (Atom × Document) → Bool
  | [], _ => true
  | (k, a) :: as, bs =>
    (match bs.lookup k with
      | some b => same a b
      | none => false) && sameMembers as bs

end

/-- do two values differ? A float that is no number differs from every value. -/
def differs (a b : Document) : Bool :=
  match a with
  | .float x => x.isNaN || !a.same b
  | _ => !a.same b

end Document
end Palette
