import Palette.Text.Character
import Palette.Text.Point
import Palette.Text.Printable

/-!
# Quoted texts

Two ways of writing a text between quotes.

* `phrase` the form in which messages show a text: single quotes, or double quotes around a text
           that holds a single quote and no double one; characters that are not printable are
           escaped;
* `plain`  the form in which documents are written: double quotes, and nothing but printable
           ASCII between them. A character beyond the basic plane becomes two escapes, and a half
           one, so a first half and a second one behind it are written as the character of the two.
-/

namespace Palette.Text

/-- `\x`, `\u` or `\U` and the digits of a code point, the shortest of the three that fits -/
def escapePoint (n : Nat) : List Char :=
  if n < 0x100 then '\\' :: 'x' :: Hexadecimal.padded 2 n
  else if n < 0x10000 then '\\' :: 'u' :: Hexadecimal.padded 4 n
  else '\\' :: 'U' :: Hexadecimal.padded 8 n

/-- one character of a phrase whose quote is `quote` -/
def phraseChar (quote c : Char) : List Char :=
  if c == quote || c == '\\' then ['\\', c]
  else if c == '\n' then ['\\', 'n']
  else if c == '\r' then ['\\', 'r']
  else if c == '\t' then ['\\', 't']
  else if isPrintable c then [c]
  else escapePoint c.toNat

/-- one point of a phrase whose quote is `quote` -/
def phrasePoint (quote : Char) : Point → List Char
  | .char c => phraseChar quote c
  | p => escapePoint p.code

/-- the quote of a phrase: double exactly when the text holds single quotes and no double ones -/
def phraseQuote (cs : List Char) : Char :=
  if cs.contains '\'' && !cs.contains '"' then '"' else '\''

/-- a text as messages show it -/
def phrase (s : String) : String :=
  let q := phraseQuote s.toList
  String.ofList (q :: (points s).flatMap (phrasePoint q) ++ [q])

/-- the escape of one unit of sixteen bits -/
def escapeUnit (n : Nat) : List Char := '\\' :: 'u' :: Hexadecimal.padded 4 n

/-- the escapes of the two units of a character beyond the basic plane -/
def escapePair (n : Nat) : List Char :=
  escapeUnit (0xd800 + (n - 0x10000) / 0x400) ++ escapeUnit (0xdc00 + (n - 0x10000) % 0x400)

/-- one character between the quotes of a document -/
def plainChar (c : Char) : List Char :=
  let n := c.toNat
  if c == '"' then ['\\', '"']
  else if c == '\\' then ['\\', '\\']
  else if c == '\n' then ['\\', 'n']
  else if c == '\r' then ['\\', 'r']
  else if c == '\t' then ['\\', 't']
  else if n == 8 then ['\\', 'b']
  else if n == 12 then ['\\', 'f']
  else if 32 ≤ n && n < 127 then [c]
  else if n < 0x10000 then escapeUnit n
  else escapePair n

/-- one point between the quotes of a document -/
def plainPoint : Point → List Char
  | .char c => plainChar c
  | .half i => escapeUnit (Point.half i).code
  | .stray => plainChar Point.mark

/-- a text as documents are written -/
def plain (cs : List Char) : List Char := '"' :: (Point.ofChars cs).flatMap plainPoint ++ ['"']

theorem plain_nil : plain [] = ['"', '"'] := rfl

example : plain ['a', '"', 'é', '😀'] = "\"a\\\"\\u00e9\\ud83d\\ude00\"".toList := by decide

example : phrase "x'y" = "\"x'y\"" ∧ phrase "x\n" = "'x\\n'" := by decide

end Palette.Text
