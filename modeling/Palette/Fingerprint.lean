import Palette.Document.Writer
import Palette.Ramp

/-!
# Fingerprints

A registry carries a fingerprint of the ramps it was built from.

* `Fingerprint.djb2`   a hash of 32 bits: times 33, then exclusive or with the code point;
* `Fingerprint.chars`  the text that is hashed: a document on one line with the colors of each ramp;
* `Fingerprint.ofRamps`   the hash of that text, as a hexadecimal numeral.
-/

namespace Palette.Fingerprint

/-- one code point more -/
def step (value : UInt32) (code : Nat) : UInt32 := (value * 33) ^^^ UInt32.ofNat code

/-- the hash of a row of code points -/
def djb2 (codes : List Nat) : UInt32 := codes.foldl step 5381

def render (value : UInt32) : String := String.ofList (Hexadecimal.numeral value.toNat)

def commas : List (List Char) → List Char
  | [] => []
  | [a] => a
  | a :: b :: rest => a ++ ',' :: commas (b :: rest)

/-- the name of a ramp and its colors -/
def entryChars (e : String × List Hex) : List Char :=
  Text.plain e.1.toList ++ ':' :: '[' :: (commas (e.2.map fun h => Text.plain h.chars) ++ [']'])

/-- the text that is hashed -/
def chars (entries : List (String × List Hex)) : List Char :=
  '\x7b' :: (Text.plain "primitives".toList ++ ':' :: '\x7b' ::
    (commas (entries.map entryChars) ++ ['\x7d', '\x7d']))

def ofRamps (ramps : Entries Atom Ramp) : String :=
  render (djb2 ((chars (ramps.map fun e => (e.1.name, e.2.colors))).map Char.toNat))

theorem djb2_append (s t : List Nat) : djb2 (s ++ t) = t.foldl step (djb2 s) := by
  simp [djb2, List.foldl_append]

example : render (djb2 [97, 98, 99]) = "b873285" := by decide

end Palette.Fingerprint
