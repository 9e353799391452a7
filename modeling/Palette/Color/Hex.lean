import Palette.Document.Access
import Palette.Text.Character

/-!
# Hexadecimal colors

The canonical form of a color: one byte for each of red, green and blue, written `#rrggbb` in
lowercase.

* `Hex`            the colors;
* `Hex.text`       the canonical text;
* `Hex.ofText?`    reads `#rgb` and `#rrggbb` in either case, with blanks around it; the short
                   form doubles each digit;
* `Hex.ofDocument` the same for a value of any kind, which is refused unless it is such a text.
-/

namespace Palette

/-- a color of the sRGB cube -/
structure Hex where
  red : UInt8
  green : UInt8
  blue : UInt8
  deriving DecidableEq, Hashable, Repr, Inhabited

namespace Hex

def black : Hex := ⟨0, 0, 0⟩

def chars (h : Hex) : List Char :=
  '#' :: (Hexadecimal.padded 2 h.red.toNat ++ Hexadecimal.padded 2 h.green.toNat ++
    Hexadecimal.padded 2 h.blue.toNat)

def text (h : Hex) : String := String.ofList h.chars

def byte (high low : Nat) : UInt8 := UInt8.ofNat (16 * high + low)

/-- the color with these three or six digits -/
def ofDigits? : List Nat → Option Hex
  | [r, g, b] => some ⟨byte r r, byte g g, byte b b⟩
  | [r, r', g, g', b, b'] => some ⟨byte r r', byte g g', byte b b'⟩
  | _ => none

/-- the color that a mark and digits write -/
def ofChars? : List Char → Option Hex
  | '#' :: cs => (cs.mapM Hexadecimal.value?).bind ofDigits?
  | _ => none

def ofText? (s : String) : Option Hex := ofChars? (Text.strip s)

/-- the color that a value writes, if the value is a text -/
def ofDocument (d : Document) : Except Fault Hex :=
  match d.text?.bind ofText? with
  | some h => .ok h
  | none => .error (.notHex d)

def document (h : Hex) : Document := .text h.text

theorem length_chars (h : Hex) : h.chars.length = 7 := by
  simp [chars, Hexadecimal.length_padded]

example : ofText? " #aBc\n" = some ⟨0xaa, 0xbb, 0xcc⟩ ∧ ofText? "#abcd" = none := by
  decide

end Hex
end Palette
