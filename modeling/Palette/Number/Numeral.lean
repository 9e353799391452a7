import Palette.Number.Decimal
import Palette.Text.Character

/-!
# Reading numerals

* `decimal`  the float nearest to a whole number times a power of ten;
* `float?`   the float that a text writes: blanks around it, a sign, digits with a point, a power
             of ten, `inf`, `infinity` or `nan` in any case;
* `int?`     the whole number that a text writes.

Digits of all scripts count, and single underscores may stand between digits.
-/

namespace Palette.Numeral

def infinity : Float := Float.ofBits 0x7ff0000000000000

/-- `coefficient * 10 ^ power` as the nearest float, infinite beyond the range of floats -/
def decimal (coefficient : Nat) (power : Int) : Float :=
  let top := power + (Decimal.digits coefficient).length
  if coefficient == 0 then 0.0
  else if 310 < top then infinity
  else if top < -330 then 0.0
  else Float.ofScientific coefficient (power < 0) power.natAbs

def plainDigit? (c : Char) : Option Nat := if c.isDigit then some (c.toNat - 48) else none

/-- the number that a row of plain digits writes -/
def natural (cs : List Char) : Nat := Text.digitsValue (cs.filterMap plainDigit?)

/-- the characters with the digits of all scripts as plain digits and the wide blanks as spaces -/
def plainForm (cs : List Char) : List Char :=
  cs.map fun c =>
    match Text.digitValue c with
    | some d => Char.ofNat (48 + d)
    | none => if Text.isWideBlank c then ' ' else c

/-- the characters without underscores, provided each stands between two digits; `last` is the
character before -/
def joined? (last : Char) : List Char → Option (List Char)
  | [] => if last == '_' then none else some []
  | c :: cs =>
    if c == '_' then
      if last.isDigit then joined? c cs else none
    else if last == '_' && !c.isDigit then none
    else (joined? c cs).map (c :: ·)

/-- a numeral in plain form, without blanks and underscores -/
def trimmed? (s : String) : Option (List Char) :=
  joined? ' ' (Text.stripBy Text.isPlainBlank (plainForm s.toList))

/-- a sign that may be missing: is it a minus, and what follows -/
def splitSign : List Char → Bool × List Char
  | '-' :: cs => (true, cs)
  | '+' :: cs => (false, cs)
  | cs => (false, cs)

/-- a power of ten at the end of a numeral; nothing stands for the power zero -/
def power? : List Char → Option Int
  | [] => some 0
  | c :: cs =>
    if c == 'e' || c == 'E' then
      let (negative, ds) := splitSign cs
      if ds.isEmpty || !ds.all Char.isDigit then none
      else some (if negative then -(natural ds : Int) else natural ds)
    else none

/-- digits, a point and digits (one of the two rows may be empty), and a power of ten -/
def unsigned? (cs : List Char) : Option Float :=
  let whole := cs.takeWhile Char.isDigit
  let rest := cs.dropWhile Char.isDigit
  let (part, rest) := match rest with
    | '.' :: r => (r.takeWhile Char.isDigit, r.dropWhile Char.isDigit)
    | r => ([], r)
  if whole.isEmpty && part.isEmpty then none
  else (power? rest).map fun p => decimal (natural (whole ++ part)) (p - part.length)

def float? (s : String) : Option Float := do
  let cs ← trimmed? s
  let (negative, body) := splitSign cs
  let word := String.ofList (body.map Char.toLower)
  let x ← if word == "inf" || word == "infinity" then some infinity
    else if word == "nan" then some (infinity - infinity)
    else unsigned? body
  return if negative then -x else x

/-- no more digits than this are read as a whole number -/
def digitLimit : Nat := 4300

/-- the whole number that a row of digits writes, if the row is neither empty nor too long -/
def natural? (cs : List Char) : Option Nat :=
  if cs.isEmpty || !cs.all Char.isDigit || digitLimit < cs.length then none
  else some (natural cs)

def int? (s : String) : Option Int := do
  let cs ← trimmed? s
  let (negative, body) := splitSign cs
  let n ← natural? body
  return if negative then -(n : Int) else n

end Palette.Numeral
