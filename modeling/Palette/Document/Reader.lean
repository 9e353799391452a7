import Palette.Number.Numeral
import Palette.Document.Basic
import Palette.Text.Character
import Palette.Text.Point

/-!
# Reading documents from texts

* `read`      the value that a JSON text holds, or why it holds none;
* `Misread`   the reasons.

Besides the standard, the words `NaN`, `Infinity` and `-Infinity` are numbers. A numeral without
point and power of ten is a whole number; it may not have more than 4300 digits. Every other
numeral is a float. A repeated member keeps its first place and its last value. Lists and maps may
lie inside one another up to a depth. Nothing may follow the value but blanks. Of two reasons the
one that stands first in the text counts.

The readers take what is left of the text and give the value and what is left after it. Each
call gives up one unit of fuel; a text is read with no more than two calls a character.
-/

namespace Palette

/-- why a text holds no document -/
inductive Misread where
  /-- it does not have the form of one -/
  | form
  /-- a whole number in it has too many digits -/
  | digits (count : Nat)
  /-- lists and maps in it lie too deep inside one another -/
  | depth
  deriving DecidableEq, Repr

end Palette

namespace Palette.Document.Reader

/-- a value that may be missing where the form needs one -/
def required {α : Type} (x : Option α) : Except Misread α :=
  match x with
  | some v => .ok v
  | none => .error .form

/-- the blanks between the parts of a text -/
def isSpace (c : Char) : Bool := c == ' ' || c == '\t' || c == '\n' || c == '\r'

/-- the text from its first character on that is no blank -/
def skip (cs : List Char) : List Char := cs.dropWhile isSpace

/-- what is left after a word, if the text starts with it -/
def word? : List Char → List Char → Option (List Char)
  | [], cs => some cs
  | _ :: _, [] => none
  | w :: ws, c :: cs => if w == c then word? ws cs else none

/-- the value of four hexadecimal digits, and what follows -/
def unit? : List Char → Option (Nat × List Char)
  | a :: b :: c :: d :: rest => do
    let a ← Hexadecimal.value? a
    let b ← Hexadecimal.value? b
    let c ← Hexadecimal.value? c
    let d ← Hexadecimal.value? d
    return (((a * 16 + b) * 16 + c) * 16 + d, rest)
  | _ => none

/-- the character that a letter after a backslash stands for -/
def escaped? : Char → Option Char
  | '"' => some '"'
  | '\\' => some '\\'
  | '/' => some '/'
  | 'b' => some (Char.ofNat 8)
  | 'f' => some (Char.ofNat 12)
  | 'n' => some '\n'
  | 'r' => some '\r'
  | 't' => some '\t'
  | _ => none

/-- the unit of an escape at the start of a text, and what follows -/
def escape? : List Char → Option (Nat × List Char)
  | '\\' :: 'u' :: rest => unit? rest
  | _ => none

/-- the point of one unit of sixteen bits, or of two that are a pair, and what follows -/
def point (n : Nat) (rest : List Char) : Point × List Char :=
  match escape? rest with
  | some (low, after) =>
    if Point.isHigh n && Point.isLow low then (Point.ofPair n low, after)
    else (Point.ofUnit n, rest)
  | none => (Point.ofUnit n, rest)

/-- the points up to the closing quote, in reverse before `done` -/
def quoted? : Nat → List Point → List Char → Option (String × List Char)
  | 0, _, _ => none
  | fuel + 1, done, cs =>
    match cs with
    | [] => none
    | '"' :: rest => some (Text.ofPoints done.reverse, rest)
    | '\\' :: 'u' :: rest => do
      let (n, rest) ← unit? rest
      let (p, rest) := point n rest
      quoted? fuel (p :: done) rest
    | '\\' :: e :: rest => do
      let c ← escaped? e
      quoted? fuel (.char c :: done) rest
    | c :: rest => if c.toNat < 32 || c == '\\' then none else quoted? fuel (.char c :: done) rest

/-- the digits at the start of a text, and what follows -/
def splitDigits (cs : List Char) : List Char × List Char :=
  (cs.takeWhile Char.isDigit, cs.dropWhile Char.isDigit)

/-- a point and digits, if the text starts with them -/
def fraction (cs : List Char) : Option (List Char) × List Char :=
  match cs with
  | '.' :: rest =>
    match splitDigits rest with
    | ([], _) => (none, cs)
    | (ds, rest) => (some ds, rest)
  | _ => (none, cs)

/-- a power of ten, if the text starts with one -/
def power (cs : List Char) : Option Int × List Char :=
  match cs with
  | c :: rest =>
    if c == 'e' || c == 'E' then
      let (negative, rest) := Numeral.splitSign rest
      match splitDigits rest with
      | ([], _) => (none, cs)
      | (ds, rest) =>
        let n : Int := Numeral.natural ds
        (some (if negative then -n else n), rest)
    else (none, cs)
  | [] => (none, cs)

/-- the whole digits of a numeral: a zero, or a row that starts with another digit -/
def wholeDigits? (cs : List Char) : Option (List Char × List Char) :=
  match cs with
  | '0' :: rest => some (['0'], rest)
  | _ =>
    match splitDigits cs with
    | ([], _) => none
    | (ds, rest) => some (ds, rest)

/-- a numeral without its sign -/
def numeral (negative : Bool) (cs : List Char) : Except Misread (Document × List Char) := do
  let (ds, rest) ← required (wholeDigits? cs)
  let (part, rest) := fraction rest
  let (exp, rest) := power rest
  if part.isNone && exp.isNone then
    if Numeral.digitLimit < ds.length then throw (.digits ds.length)
    let n : Int := Numeral.natural ds
    return (.int (if negative then -n else n), rest)
  else
    let part := part.getD []
    let x := Numeral.decimal (Numeral.natural (ds ++ part)) (exp.getD 0 - part.length)
    return (.float (if negative then -x else x), rest)

/-- a value for a word, if the text starts with the word -/
def constant (d : Document) (word cs : List Char) : Except Misread (Document × List Char) :=
  required ((word? word cs).map (d, ·))

def simple (cs : List Char) : Except Misread (Document × List Char) :=
  match cs with
  | 'n' :: rest => constant .null ['u', 'l', 'l'] rest
  | 't' :: rest => constant (.bool true) ['r', 'u', 'e'] rest
  | 'f' :: rest => constant (.bool false) ['a', 'l', 's', 'e'] rest
  | 'N' :: rest => constant (.float (Numeral.infinity - Numeral.infinity)) ['a', 'N'] rest
  | 'I' :: rest => constant (.float Numeral.infinity) ['n', 'f', 'i', 'n', 'i', 't', 'y'] rest
  | '-' :: 'I' :: rest =>
    constant (.float (-Numeral.infinity)) ['n', 'f', 'i', 'n', 'i', 't', 'y'] rest
  | '-' :: rest => numeral true rest
  | _ => numeral false cs

/-- how many lists and maps may lie inside one another -/
def depthLimit : Nat := 990

/-- one level deeper, if there is room for it -/
def deeper : Nat → Except Misread Nat
  | 0 => throw .depth
  | room + 1 => return room

mutual

/-- a value, from its first character on, with room for so many levels -/
def value (room : Nat) : Nat → List Char → Except Misread (Document × List Char)
  | 0, _ => throw .form
  | fuel + 1, cs =>
    match cs with
    | '"' :: rest => do
      let (t, rest) ← required (quoted? fuel [] rest)
      return (.text t, rest)
    | '[' :: rest => do
      let room ← deeper room
      match skip rest with
      | ']' :: rest => return (.list [], rest)
      | rest =>
        let (ds, rest) ← items room fuel rest
        return (.list ds, rest)
    | '\x7b' :: rest => do
      let room ← deeper room
      match skip rest with
      | '\x7d' :: rest => return (.map [], rest)
      | rest =>
        let (ms, rest) ← members room fuel rest
        return (.map (Entries.ofList ms), rest)
    | _ => simple cs

/-- one or more values with commas between them, up to the closing bracket -/
def items (room : Nat) : Nat → List Char → Except Misread (List Document × List Char)
  | 0, _ => throw .form
  | fuel + 1, cs => do
    let (d, rest) ← value room fuel cs
    match skip rest with
    | ',' :: rest =>
      let (ds, rest) ← items room fuel (skip rest)
      return (d :: ds, rest)
    | ']' :: rest => return ([d], rest)
    | _ => throw .form

/-- one or more members with commas between them, up to the closing brace -/
def members (room : Nat) : Nat → List Char → Except Misread (List (Atom × Document) × List Char)
  | 0, _ => throw .form
  | fuel + 1, cs => do
    let '"' :: rest := cs | throw .form
    let (k, rest) ← required (quoted? fuel [] rest)
    let ':' :: rest := skip rest | throw .form
    let (d, rest) ← value room fuel (skip rest)
    match skip rest with
    | ',' :: rest =>
      let (ds, rest) ← members room fuel (skip rest)
      return ((.text k, d) :: ds, rest)
    | '\x7d' :: rest => return ([(.text k, d)], rest)
    | _ => throw .form

end

end Reader

def read (s : String) : Except Misread Document := do
  let cs := s.toList
  let (d, rest) ← Reader.value Reader.depthLimit (2 * cs.length + 2) (Reader.skip cs)
  if (Reader.skip rest).isEmpty then return d else throw .form

end Palette.Document
