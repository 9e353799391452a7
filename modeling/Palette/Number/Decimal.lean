import Palette.Number.Dyadic

/-!
# Decimal texts of floats

* `fixed`    a given number of places after the point, correctly rounded;
* `general`  six significant digits, trailing zeros dropped, a power of ten for small and large
             values;
* `shortest` the fewest digits that read back as the same float, the nearest such;
* `rounded`  a float rounded to a number of places, as a float.

Infinities and NaN are `inf`, `-inf` and `nan` in all of them.
-/

namespace Palette.Decimal

def digits (n : Nat) : List Char := Nat.toDigits 10 n

/-- the texts of the values without an exact value -/
def special (x : Float) : String :=
  if x.isNaN then "nan" else if x < 0.0 then "-inf" else "inf"

/-- a sign in front of the text of a negative value -/
def withSign (negative : Bool) (cs : List Char) : String :=
  String.ofList (if negative then '-' :: cs else cs)

/-- the text with zeros in front that has at least `w` characters -/
def padLeft (w : Nat) (cs : List Char) : List Char := List.replicate (w - cs.length) '0' ++ cs

/-- `n / 10 ^ places` with exactly `places` digits after the point -/
def pointed (n places : Nat) : List Char :=
  if places == 0 then digits n
  else digits (n / pow10 places) ++ '.' :: padLeft places (digits (n % pow10 places))

/-- a float with exactly `places` digits after the point -/
def fixed (places : Nat) (x : Float) : String :=
  match Dyadic.ofFloat? x with
  | none => special x
  | some d => withSign d.negative (pointed (d.scaled places) places)

/-- the float nearest to `x` that is a multiple of `10 ^ -places` -/
def rounded (places : Nat) (x : Float) : Float :=
  match Dyadic.ofFloat? x with
  | none => x
  | some d =>
    let v := Float.ofScientific (d.scaled places) true places
    if d.negative then -v else v

/-! ## digits and a power of ten -/

/-- `coefficient * 10 ^ power`, a nonnegative decimal -/
structure Scientific where
  coefficient : Nat
  power : Int
  deriving Repr, DecidableEq

/-- the decimal without zeros at the end of its digits -/
def trimmed (s : Scientific) : Scientific :=
  let ds := digits s.coefficient
  let zeros := (ds.reverse.takeWhile (· == '0')).length
  ⟨s.coefficient / pow10 zeros, s.power + zeros⟩

/-- the exponent `p` with `10 ^ p ≤ n / d < 10 ^ (p + 1)`, for positive `n` and `d` -/
def magnitude (n d : Nat) : Int :=
  let g : Int := (digits n).length - (digits d).length
  if d * pow10 g.toNat ≤ n * pow10 (-g).toNat then g else g - 1

/-- the value to `count` significant digits, for a value other than zero -/
def significant (count : Nat) (d : Dyadic) : Scientific :=
  let p := magnitude d.num d.den
  let g := p - count + 1
  let c := Dyadic.roundDiv (d.num * pow10 (-g).toNat) (d.den * pow10 g.toNat)
  if c == pow10 count then ⟨c / 10, g + 1⟩ else ⟨c, g⟩

/-- The reals that round to a float, as multiples of a quarter of its last place: `lower` and
`upper` are the ends, `value` is the float, `unit` the quarter, over `den`. The ends belong to
the interval when the mantissa is even. -/
structure Cell where
  lower : Nat
  value : Nat
  upper : Nat
  den : Nat
  closed : Bool

/-- the cell of a float; the gap below a power of two is half as wide -/
def cell (d : Dyadic) : Cell :=
  let unit := pow2 d.exponent.toNat
  let narrow := d.mantissa == pow2 52 && d.exponent != -1074
  { lower := (4 * d.mantissa - if narrow then 1 else 2) * unit
    value := 4 * d.mantissa * unit
    upper := (4 * d.mantissa + 2) * unit
    den := 4 * pow2 (-d.exponent).toNat
    closed := d.mantissa % 2 == 0 }

/-- does `c * 10 ^ g` lie in the cell? -/
def Cell.holds (k : Cell) (c : Nat) (g : Int) : Bool :=
  let v := c * pow10 g.toNat * k.den
  let up := pow10 (-g).toNat
  if k.closed then k.lower * up ≤ v && v ≤ k.upper * up
  else k.lower * up < v && v < k.upper * up

/-- the nearer to the float of the multiples of `10 ^ g` in its cell, if there are any; a tie
goes to the even multiple -/
def Cell.onGrid? (k : Cell) (g : Int) : Option Nat :=
  let n := k.value * pow10 (-g).toNat
  let d := k.den * pow10 g.toNat
  let c := n / d
  let r := n % d
  match k.holds c g, k.holds (c + 1) g with
  | false, false => none
  | true, false => some c
  | false, true => some (c + 1)
  | true, true => some (if 2 * r < d || (2 * r == d && c % 2 == 0) then c else c + 1)

/-- The fewest digits that read back, tried from `count` digits on; seventeen always do. Where the
float lies just below a power of ten, the nearest multiple may be that power, with one zero more. -/
def fewest (d : Dyadic) (k : Cell) (p : Int) : Nat → Nat → Scientific
  | 0, _ => significant 17 d
  | fuel + 1, count =>
    let g := p - count + 1
    match k.onGrid? g with
    | some c => ⟨c, g⟩
    | none => fewest d k p fuel (count + 1)

/-- the shortest decimal that reads back as the float, for a value other than zero -/
def shortestDigits (d : Dyadic) : Scientific :=
  trimmed (fewest d (cell d) (magnitude d.num d.den) 17 1)

/-! ## layouts -/

/-- the exponent of a power of ten: a sign and at least two digits -/
def exponentText (e : Int) : List Char :=
  'e' :: (if e < 0 then '-' else '+') :: padLeft 2 (digits e.natAbs)

/-- `0.` and zeros, digits with a point among them, or digits and zeros; `whole` stands after a
whole number -/
def positional (ds : List Char) (point : Int) (whole : List Char) : List Char :=
  if point ≤ 0 then '0' :: '.' :: List.replicate point.natAbs '0' ++ ds
  else if ds.length ≤ point.toNat then
    ds ++ List.replicate (point.toNat - ds.length) '0' ++ whole
  else ds.take point.toNat ++ '.' :: ds.drop point.toNat

/-- one digit, the others after a point, and the power of ten -/
def scientific (ds : List Char) (point : Int) : List Char :=
  match ds with
  | [] => []
  | [d] => d :: exponentText (point - 1)
  | d :: rest => d :: '.' :: rest ++ exponentText (point - 1)

/-- positional from `10 ^ -4` up to `10 ^ top`, else with a power of ten -/
def layout (s : Scientific) (top : Int) (whole : List Char) : List Char :=
  let ds := digits s.coefficient
  let point := ds.length + s.power
  if -4 < point && point ≤ top then positional ds point whole else scientific ds point

/-- the fewest digits that read back; a whole number below `10 ^ 16` ends in `.0` -/
def shortest (x : Float) : String :=
  match Dyadic.ofFloat? x with
  | none => special x
  | some d =>
    withSign d.negative
      (if d.mantissa == 0 then ['0', '.', '0'] else layout (shortestDigits d) 16 ['.', '0'])

/-- six significant digits without trailing zeros -/
def general (x : Float) : String :=
  match Dyadic.ofFloat? x with
  | none => special x
  | some d =>
    withSign d.negative
      (if d.mantissa == 0 then ['0'] else layout (trimmed (significant 6 d)) 6 [])

end Palette.Decimal
