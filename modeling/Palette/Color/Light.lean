import Palette.Color.Hex

/-!
# Light

Between the bytes of a color and the amounts of light that they stand for.

* `Triple`                  three coordinates;
* `Matrix.apply`            a linear map, each row summed from left to right;
* `Light.raised`            powers;
* `Light.power`             powers that refuse to leave the range of floats;
* `Light.linearize`, `Light.delinearize`   the transfer function of sRGB and its inverse;
* `Light.clamp`             into the interval from zero to one;
* `Hex.linear`, `Hex.ofLinear`   the color as linear light, and the color of linear light;
* `Hex.luminance`           relative luminance.
-/

namespace Palette

/-! ## coordinates -/

/-- coordinates of a color -/
structure Triple where
  x : Float
  y : Float
  z : Float
  deriving Inhabited

namespace Triple

def map (f : Float → Float) (v : Triple) : Triple := ⟨f v.x, f v.y, f v.z⟩

/-- a function that may fail on each coordinate, in order -/
def mapM {ε : Type} (f : Float → Except ε Float) (v : Triple) : Except ε Triple := do
  let x ← f v.x
  let y ← f v.y
  let z ← f v.z
  return ⟨x, y, z⟩

def toList (v : Triple) : List Float := [v.x, v.y, v.z]

/-- the sum of the products of the coordinates, from left to right -/
def dot (u v : Triple) : Float := u.x * v.x + u.y * v.y + u.z * v.z

end Triple

/-- a linear map, by rows -/
structure Matrix where
  first : Triple
  second : Triple
  third : Triple

namespace Matrix

def apply (m : Matrix) (v : Triple) : Triple := ⟨m.first.dot v, m.second.dot v, m.third.dot v⟩

end Matrix

/-! ## light -/

namespace Light

/-- a power; those of one are one -/
def raised (x y : Float) : Float := if x == 1.0 then 1.0 else x.pow y

/-- a power whose base and result are both finite or both not -/
def power (x y : Float) : Except Fault Float :=
  let r := raised x y
  if x.isFinite && r.isInf then .error .overflow else .ok r

/-- light of a channel between zero and one -/
def linearize (c : Float) : Float :=
  if c ≤ 0.04045 then c / 12.92 else raised ((c + 0.055) / 1.055) 2.4

def linearizeAny (c : Float) : Except Fault Float :=
  if c ≤ 0.04045 then .ok (c / 12.92) else power ((c + 0.055) / 1.055) 2.4

/-- the channel of an amount of light -/
def delinearize (c : Float) : Float :=
  if c ≤ 0.0031308 then 12.92 * c else 1.055 * raised c (1.0 / 2.4) - 0.055

/-- into the interval from zero to one; what is no number becomes one -/
def clamp (c : Float) : Float :=
  let m := if c < 1.0 then c else 1.0
  if 0.0 < m then m else 0.0

/-- the byte of a channel, a half to the even neighbour -/
def byte (c : Float) : UInt8 :=
  match Dyadic.ofFloat? (clamp c * 255.0) with
  | some d => UInt8.ofNat (Dyadic.roundDiv d.num d.den)
  | none => 0

def channel (b : UInt8) : Float := b.toFloat / 255.0

/-- the weights of red, green and blue in luminance -/
def weights : Triple := ⟨0.2126, 0.7152, 0.0722⟩

end Light

namespace Hex

def ofChannels (v : Triple) : Hex := ⟨Light.byte v.x, Light.byte v.y, Light.byte v.z⟩

def channels (h : Hex) : Triple :=
  ⟨Light.channel h.red, Light.channel h.green, Light.channel h.blue⟩

/-- the color of an amount of linear light, clamped -/
def ofLinear (v : Triple) : Hex := ofChannels (v.map fun c => Light.delinearize (Light.clamp c))

def linear (h : Hex) : Triple := h.channels.map Light.linearize

def luminance (h : Hex) : Float := Light.weights.dot h.linear

end Hex
end Palette
