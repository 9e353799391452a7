import Palette.Document.Access

/-!
# Editing documents

A path leads into a value through keys of maps and positions in lists; positions below zero count
from the end.

* `part`                     what stands at a key, one step into a value;
* `withPart`, `withoutPart`  the value with another part at a key, or with none there;
* `set`, `delete`            the same at the end of a path;
* `part_withPart`            what has been written at a key can be read there.
-/

namespace Palette.Document

/-- the position that a number counts to, from the end below zero -/
def position? (length : Nat) (i : Int) : Option Nat :=
  if 0 ≤ i then (if i < length then some i.toNat else none)
  else if 0 ≤ i + length then some (i + length).toNat else none

/-- the position in a row that a key counts to -/
def positionOf (length : Nat) (key : Document) : Except Fault Nat :=
  match key.int? with
  | some i =>
    match position? length i with
    | some n => .ok n
    | none => .error .outOfRange
  | none => .error .wrongKind

/-- what stands at a key -/
def part (d key : Document) : Except Fault Document :=
  match d with
  | .map members => do
    let k ← key.asKey
    match members.lookup k with
    | some v => return v
    | none => throw (.noMember key.shown)
  | .list items => do return items.getD (← positionOf items.length key) .null
  | .text s => do
    let letters := Text.letters s
    return .text (letters.getD (← positionOf letters.length key) "")
  | d => .error (.wrongKind (.members d))

/-- the value with another part at a key; a new key goes to the end -/
def withPart (d key v : Document) : Except Fault Document :=
  match d with
  | .map members => do return .map (Entries.put (← key.asKey) v members)
  | .list items => do return .list (items.set (← positionOf items.length key) v)
  | _ => .error .wrongKind

/-- the value without the part at a key, which has to be there -/
def withoutPart (d key : Document) : Except Fault Document :=
  match d with
  | .map members => do
    let _ ← d.part key
    return .map (Entries.erase (← key.asKey) members)
  | .list items => do return .list (items.eraseIdx (← positionOf items.length key))
  | _ => .error .wrongKind

/-- the value with a change made at the end of a path -/
def edit (change : Document → Document → Except Fault Document) :
    List Document → Document → Except Fault Document
  | [], _ => .error .outOfRange
  | [key], d => change d key
  | key :: rest, d => do d.withPart key (← edit change rest (← d.part key))

/-- the value with another part at the end of a path -/
def set (d : Document) (path : List Document) (v : Document) : Except Fault Document :=
  edit (fun d key => d.withPart key v) path d

/-- the value without the part at the end of a path -/
def delete (d : Document) (path : List Document) : Except Fault Document :=
  edit withoutPart path d

/-- what has been written at a key can be read there -/
theorem part_withPart (members : Entries Atom Document) (key : Atom) (v : Document) :
    (withPart (.map members) key.document v).bind (part · key.document) = .ok v := by
  have h : (Entries.put key v members).lookup key = some v := by
    rw [Entries.lookup_put]
    simp
  have hk : key.document.asKey = .ok key := by
    simp [asKey, Atom.atom?_document]
  simp only [withPart, hk, part, Except.bind, bind, pure, Except.pure, h]

end Palette.Document
