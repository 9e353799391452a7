/-!
# Classes of characters

Which characters are blank, are digits, or end lines, and what is made of texts by them.

* `Text.isBlank`       white space in the sense of Unicode, with the four information separators and
                       the next-line control;
* `Text.isPlainBlank`  the blanks of ASCII that may stand around a numeral;
* `Text.strip`         a text without the blanks at its two ends;
* `Text.digitValue`    the value of a decimal digit: ten characters in a row for each script;
* `Text.isDigitLike`   a decimal digit, or one of the superscript, subscript, circled and similar
                       digits;
* `Hexadecimal.digit`, `Hexadecimal.value?`   the lowercase digit of a value below sixteen, and the
                       value of a digit in either case;
* `Hexadecimal.padded`, `Hexadecimal.numeral`   exactly `w` digits, the high ones dropped, and the
                       shortest numeral of a number;
* `Text.endsLine`      the characters that end lines, of which carriage return and line feed side by
                       side are one;
* `Text.lines`, `Text.lineFeeds`   the lines of a text, and a text whose carriage returns are line
                       feeds, as files are read.
-/

namespace Palette

namespace Text

/-! ## blanks -/

/-- the blanks of ASCII that separate words: tab to carriage return, and the space -/
def isPlainBlank (c : Char) : Bool :=
  (9 ≤ c.toNat && c.toNat ≤ 13) || c.toNat == 32

def isWideBlank (c : Char) : Bool :=
  let n := c.toNat
  n == 0x85 || n == 0xa0 || n == 0x1680 || (0x2000 ≤ n && n ≤ 0x200a) || n == 0x2028 ||
    n == 0x2029 || n == 0x202f || n == 0x205f || n == 0x3000

/-- every blank: those of ASCII, the information separators, and those beyond ASCII -/
def isBlank (c : Char) : Bool :=
  isPlainBlank c || (28 ≤ c.toNat && c.toNat ≤ 31) || isWideBlank c

/-- `cs` without the characters of class `p` at its two ends -/
def stripBy (p : Char → Bool) (cs : List Char) : List Char :=
  ((cs.dropWhile p).reverse.dropWhile p).reverse

/-- a text without the blanks at its two ends -/
def strip (s : String) : List Char := stripBy isBlank s.toList

theorem isBlank_of_isWhitespace (c : Char) (h : c.isWhitespace = true) : isBlank c = true := by
  simp only [Char.isWhitespace, Bool.or_eq_true, decide_eq_true_eq] at h
  rcases h with ((rfl | rfl) | rfl) | rfl <;> decide

theorem stripBy_eq_self {p : Char → Bool} {cs : List Char}
    (h : ∀ c ∈ cs, p c = false) : stripBy p cs = cs := by
  have drop : ∀ l : List Char, (∀ c ∈ l, p c = false) → l.dropWhile p = l := by
    intro l hl
    cases l with
    | nil => rfl
    | cons a t => simp [hl a (by simp)]
  rw [stripBy, drop cs h, drop cs.reverse (by simpa using h), List.reverse_reverse]

/-! ## decimal digits -/

/-- the zeros of the scripts; the digits one to nine follow each of them -/
def zeros : List Nat := [
    0x30, 0x660, 0x6f0, 0x7c0, 0x966, 0x9e6, 0xa66, 0xae6, 0xb66, 0xbe6, 0xc66, 0xce6, 0xd66,
    0xde6, 0xe50, 0xed0, 0xf20, 0x1040, 0x1090, 0x17e0, 0x1810, 0x1946, 0x19d0, 0x1a80, 0x1a90,
    0x1b50, 0x1bb0, 0x1c40, 0x1c50, 0xa620, 0xa8d0, 0xa900, 0xa9d0, 0xa9f0, 0xaa50, 0xabf0,
    0xff10, 0x104a0, 0x10d30, 0x11066, 0x110f0, 0x11136, 0x111d0, 0x112f0, 0x11450, 0x114d0,
    0x11650, 0x116c0, 0x11730, 0x118e0, 0x11950, 0x11c50, 0x11d50, 0x11da0, 0x16a60, 0x16ac0,
    0x16b50, 0x1d7ce, 0x1d7d8, 0x1d7e2, 0x1d7ec, 0x1d7f6, 0x1e140, 0x1e2f0, 0x1e950, 0x1fbf0]

/-- the digits that are no decimal digits: superscripts, subscripts, circled digits and the like -/
def ornamentalDigits : List (Nat × Nat) := [
    (0xb2, 0xb3), (0xb9, 0xb9), (0x1369, 0x1371), (0x19da, 0x19da), (0x2070, 0x2070),
    (0x2074, 0x2079), (0x2080, 0x2089), (0x2460, 0x2468), (0x2474, 0x247c), (0x2488, 0x2490),
    (0x24ea, 0x24ea), (0x24f5, 0x24fd), (0x24ff, 0x24ff), (0x2776, 0x277e), (0x2780, 0x2788),
    (0x278a, 0x2792), (0x10a40, 0x10a43), (0x10e60, 0x10e68), (0x11052, 0x1105a),
    (0x1f100, 0x1f10a)]

def digitValue (c : Char) : Option Nat :=
  if 48 ≤ c.toNat && c.toNat ≤ 57 then some (c.toNat - 48)
  else if c.toNat < 128 then none
  else (zeros.find? fun z => z ≤ c.toNat && c.toNat < z + 10).map (c.toNat - ·)

/-- does the character count as a digit when a leading number is cut off a text? -/
def isDigitLike (c : Char) : Bool :=
  (digitValue c).isSome || ornamentalDigits.any fun r => r.1 ≤ c.toNat && c.toNat ≤ r.2

/-- the number that a row of digits writes -/
def digitsValue (ds : List Nat) : Nat := ds.foldl (fun n d => 10 * n + d) 0

example : zeros.length = 66 ∧ digitValue '7' = some 7 ∧ digitValue '٣' = some 3 ∧
    digitValue '²' = none ∧ isDigitLike '²' = true := by decide

end Text

/-! ## hexadecimal digits -/

namespace Hexadecimal

/-- the lowercase digit of a value; values from sixteen on have the digit of their remainder -/
def digit (n : Nat) : Char :=
  let d := n % 16
  if d < 10 then Char.ofNat (48 + d) else Char.ofNat (87 + d)

/-- the last `w` digits of `n`, zeros in front where `n` is short -/
def padded : Nat → Nat → List Char
  | 0, _ => []
  | w + 1, n => padded w (n / 16) ++ [digit n]

/-- how many digits the shortest numeral of `n` has -/
def width (n : Nat) : Nat := n.log2 / 4 + 1

/-- the shortest numeral of `n` -/
def numeral (n : Nat) : List Char := padded (width n) n

/-- the value of a digit, in lower or upper case -/
def value? (c : Char) : Option Nat :=
  let n := c.toNat
  if 48 ≤ n && n ≤ 57 then some (n - 48)
  else if 97 ≤ n && n ≤ 102 then some (n - 87)
  else if 65 ≤ n && n ≤ 70 then some (n - 55)
  else none

theorem padded_succ (w n : Nat) : padded (w + 1) n = padded w (n / 16) ++ [digit n] := rfl

theorem length_padded (w n : Nat) : (padded w n).length = w := by
  induction w generalizing n with
  | zero => rfl
  | succ w ih => simp [padded, ih]

example : numeral 255 = ['f', 'f'] ∧ numeral 0 = ['0'] ∧ padded 2 10 = ['0', 'a'] := by decide

end Hexadecimal

/-! ## lines -/

namespace Text

def endsLine (c : Char) : Bool :=
  c.toNat ∈ [0x0a, 0x0b, 0x0c, 0x0d, 0x1c, 0x1d, 0x1e, 0x85, 0x2028, 0x2029]

/-- the lines of characters, after those of the first line in reverse -/
def linesFrom (line : List Char) : List Char → List (List Char)
  | [] => if line.isEmpty then [] else [line.reverse]
  | '\r' :: '\n' :: cs => line.reverse :: linesFrom [] cs
  | c :: cs => if endsLine c then line.reverse :: linesFrom [] cs else linesFrom (c :: line) cs

/-- the lines of a text; a last line without an end is one unless it is empty -/
def lines (s : String) : List String := (linesFrom [] s.toList).map String.ofList

/-- characters with a line feed for each end of a line that has a carriage return -/
def feeds : List Char → List Char
  | [] => []
  | '\r' :: '\n' :: cs => '\n' :: feeds cs
  | '\r' :: cs => '\n' :: feeds cs
  | c :: cs => c :: feeds cs

/-- a text with a line feed for each end of a line that has a carriage return -/
def lineFeeds (s : String) : String := String.ofList (feeds s.toList)

example : lines "a\r\nb\x0c\n" = ["a", "b", ""] := by decide

example : lineFeeds "a\r\nb\r" = "a\nb\n" := by decide

end Text

end Palette
