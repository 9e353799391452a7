/-!
# Exact values of floats

A finite 64-bit float is a whole number times a power of two. All rounding of floats to decimals
and to whole numbers starts here, in exact arithmetic.

* `pow2`, `pow10`           the powers that the readers and writers of numbers scale by;
* `Dyadic`, `ofFloat?`      sign, mantissa and exponent of a finite float;
* `roundDiv`                a quotient to the nearest whole number, a half to the even neighbour;
* `scaled`                  the value times a power of ten, rounded;
* `nearest`, `truncated`, `floor`   the whole numbers next to the value;
* `remainder`               the remainder of a float by a positive float.
-/

namespace Palette

def pow2 (n : Nat) : Nat := Nat.pow 2 n

def pow10 (n : Nat) : Nat := Nat.pow 10 n

theorem pow2_zero : pow2 0 = 1 := rfl

theorem pow2_succ (n : Nat) : pow2 (n + 1) = pow2 n * 2 := rfl

theorem pow10_zero : pow10 0 = 1 := rfl

theorem pow10_succ (n : Nat) : pow10 (n + 1) = pow10 n * 10 := rfl

theorem pow2_pos (n : Nat) : 0 < pow2 n := by
  induction n with
  | zero => decide
  | succ n ih => rw [pow2_succ]; omega

theorem pow10_pos (n : Nat) : 0 < pow10 n := by
  induction n with
  | zero => decide
  | succ n ih => rw [pow10_succ]; omega

/-- the value `± mantissa * 2 ^ exponent` -/
structure Dyadic where
  negative : Bool
  mantissa : Nat
  exponent : Int
  deriving Repr, DecidableEq

namespace Dyadic

/-- the exact value of a finite float; infinities and NaN have none -/
def ofFloat? (x : Float) : Option Dyadic :=
  let bits : Nat := x.toBits.toNat
  let negative := bits / pow2 63 == 1
  let e : Nat := bits / pow2 52 % pow2 11
  let f := bits % pow2 52
  if e == 2047 then none
  else if e == 0 then some ⟨negative, f, -1074⟩
  else some ⟨negative, f + pow2 52, (e : Int) - 1075⟩

/-- numerator of the absolute value, as a fraction over `den` -/
def num (d : Dyadic) : Nat := d.mantissa * pow2 d.exponent.toNat

/-- denominator of the absolute value -/
def den (d : Dyadic) : Nat := pow2 (-d.exponent).toNat

/-- `n / d` to the nearest whole number, a half to the even neighbour -/
def roundDiv (n d : Nat) : Nat :=
  let q := n / d
  let r := n % d
  if 2 * r < d then q
  else if d < 2 * r then q + 1
  else if q % 2 == 0 then q else q + 1

/-- the absolute value times `10 ^ places`, rounded -/
def scaled (d : Dyadic) (places : Nat) : Nat := roundDiv (d.num * pow10 places) d.den

/-- a natural number with the sign of `d` -/
def signed (d : Dyadic) (n : Nat) : Int := if d.negative then -(n : Int) else n

/-- the nearest whole number, a half to the even neighbour -/
def nearest (d : Dyadic) : Int := d.signed (roundDiv d.num d.den)

/-- the whole part, toward zero -/
def truncated (d : Dyadic) : Int := d.signed (d.num / d.den)

/-- the greatest whole number that is not above the value -/
def floor (d : Dyadic) : Int :=
  if d.negative then -(((d.num + d.den - 1) / d.den : Nat) : Int) else (d.num / d.den : Nat)

/-- the whole number `n` as a float, rounded; beyond the range of floats it is infinite -/
def toFloat (n : Int) : Float := Float.ofInt n

/-- two to the power `e`, for exponents of normal floats -/
def twoPow (e : Int) : Float := Float.ofBits (UInt64.ofNat ((e + 1023).toNat * pow2 52))

/-- the remainder of `x` by the positive `y` with the sign of `x`, exact -/
def truncatedRemainder (x y : Float) : Float :=
  if x.abs < y then x
  else match ofFloat? x, ofFloat? y with
    | some a, some b =>
      let e := min a.exponent b.exponent
      let r := a.mantissa * pow2 (a.exponent - e).toNat % (b.mantissa * pow2 (b.exponent - e).toNat)
      let v := Float.ofNat r * twoPow e
      if a.negative then -v else v
    | some _, none => x
    | none, _ => x - x

/-- the remainder of `x` by the positive `y`, from zero up to `y`; a remainder below zero is
raised by `y` in float arithmetic, so that a tiny one gives `y` itself -/
def remainder (x y : Float) : Float :=
  let r := truncatedRemainder x y
  if r == 0.0 then 0.0 else if r < 0.0 then r + y else r

theorem roundDiv_one (n : Nat) : roundDiv n 1 = n := by
  simp [roundDiv, Nat.mod_one]

/-- rounding errs by half a unit at most -/
theorem roundDiv_bounds (n d : Nat) (h : 0 < d) :
    2 * n ≤ 2 * (d * roundDiv n d) + d ∧ 2 * (d * roundDiv n d) ≤ 2 * n + d := by
  have key := Nat.div_add_mod n d
  have lt := Nat.mod_lt n h
  simp only [roundDiv]
  split
  · omega
  · split
    · rw [Nat.mul_add]; omega
    · split
      · omega
      · rw [Nat.mul_add]; omega

/-- rounding does not reach above a whole bound -/
theorem roundDiv_le {n d b : Nat} (h : 0 < d) (hn : n ≤ b * d) : roundDiv n d ≤ b := by
  have key := Nat.div_add_mod n d
  have hq : n / d ≤ b := Nat.div_le_of_le_mul (by rw [Nat.mul_comm]; exact hn)
  rcases Nat.lt_or_eq_of_le hq with lt | eq
  · simp only [roundDiv]; split <;> (try split) <;> (try split) <;> omega
  · have : n % d = 0 := by
      rw [eq] at key
      have := Nat.mul_comm b d
      omega
    simp [roundDiv, this, h, eq]

example : roundDiv 5 2 = 2 ∧ roundDiv 7 2 = 4 ∧ roundDiv 8 3 = 3 := by decide

end Dyadic
end Palette
