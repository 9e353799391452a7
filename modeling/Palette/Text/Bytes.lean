import Palette.Text.Point

/-!
# Texts in bytes

How a name stands in bytes. A character takes one to four of them. A byte that belongs to no
character is read as a half, one of the 128 that stand for such bytes, and that half is written as
the byte.

* `Point.bytes`     the bytes of a point;
* `Text.bytes`      the bytes of a text;
* `Text.ofBytes`    the text of bytes;
* `Text.respelled`  the text of the bytes of a text. It is another one where halves that stand for
                    bytes spell a character together.
-/

namespace Palette

namespace Point

/-- where the halves that stand for bytes begin, less the bytes below them -/
def byteOffset : Nat := 0x400

def isByte (index : Fin 2048) : Bool := byteOffset + 128 ≤ index.val && index.val < byteOffset + 256

def ofByte (b : UInt8) : Point := .half (Fin.ofNat 2048 (byteOffset + b.toNat))

/-- the bytes of a point; a half counts for the one for which it stands -/
def bytes : Point → List UInt8
  | .char c => String.utf8EncodeChar c
  | .half i => [UInt8.ofNat i]
  | .stray => String.utf8EncodeChar mark

/-- the character at the front of a row of bytes -/
def front? (bs : List UInt8) : Option Char := ByteArray.utf8DecodeChar? ⟨(bs.take 4).toArray⟩ 0

/-- the points of bytes, after some that have been read -/
def ofBytes : Nat → List UInt8 → List Point
  | _, [] => []
  | n + 1, _ :: bs => ofBytes n bs
  | 0, b :: bs =>
    match front? (b :: bs) with
    | some c => .char c :: ofBytes (c.utf8Size - 1) bs
    | none => ofByte b :: ofBytes 0 bs

end Point

namespace Text

def bytes (s : String) : List UInt8 := (points s).flatMap Point.bytes

def ofBytes (bs : List UInt8) : String := ofPoints (Point.ofBytes 0 bs)

/-- the text of the bytes of a text -/
def respelled (s : String) : String := ofBytes (bytes s)

end Text

namespace Point

/-- a half that stands for a byte is written as it -/
theorem bytes_ofByte (b : UInt8) : (ofByte b).bytes = [b] := by
  have h := b.toNat_lt
  simp only [ofByte, bytes, byteOffset, List.cons.injEq, and_true]
  apply UInt8.toNat_inj.1
  simp only [UInt8.toNat_ofNat', Fin.ofNat]
  omega

end Point

example : Text.respelled (Text.ofPoints [Point.ofByte 0xc3, Point.ofByte 0xa9]) = "é" := by
  decide

example : Text.respelled (Text.ofPoints [Point.ofByte 0xc3, .char 'a']) =
    Text.ofPoints [Point.ofByte 0xc3, .char 'a'] := by
  decide

end Palette
