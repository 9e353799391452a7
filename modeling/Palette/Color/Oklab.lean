import Palette.Color.Light

/-!
# A perceptual space

Lightness and two opponent axes, and the same in polar form. Chroma is the root of a sum of squares,
each step rounded as floats are; a hypotenuse that is rounded once may have another last digit.

* `Hex.oklab`         the coordinates of a color;
* `Hex.oklch`         lightness, chroma, and hue in degrees;
* `Oklab.toLinear`    linear light of coordinates, and `Oklab.toLinearAny` for coordinates of any
                      size;
* `Hex.distance`      a hundred times the distance of two colors.
-/

namespace Palette
namespace Oklab

/-- linear light to tristimulus values under daylight -/
def linearToXyz : Matrix :=
  ⟨⟨0.4124, 0.3576, 0.1805⟩, ⟨0.2126, 0.7152, 0.0722⟩, ⟨0.0193, 0.1192, 0.9505⟩⟩

/-- tristimulus values to cone responses -/
def xyzToCones : Matrix :=
  ⟨⟨0.8189330101, 0.3618667424, -0.1288597137⟩, ⟨0.0329845436, 0.9293118715, 0.0361456387⟩,
    ⟨0.0482003018, 0.2643662691, 0.6338517070⟩⟩

/-- cube roots of cone responses to lightness and opponent axes -/
def rootsToLab : Matrix :=
  ⟨⟨0.2104542553, 0.7936177850, -0.0040720468⟩, ⟨1.9779984951, -2.4285922050, 0.4505937099⟩,
    ⟨0.0259040371, 0.7827717662, -0.8086757660⟩⟩

/-- lightness and opponent axes to cube roots of cone responses -/
def labToRoots : Matrix :=
  ⟨⟨1.0, 0.3963377774, 0.2158037573⟩, ⟨1.0, -0.1055613458, -0.0638541728⟩,
    ⟨1.0, -0.0894841775, -1.2914855480⟩⟩

/-- cone responses to linear light -/
def conesToLinear : Matrix :=
  ⟨⟨4.0767416621, -3.3077115913, 0.2309699292⟩, ⟨-1.2684380046, 2.6097574011, -0.3413193965⟩,
    ⟨-0.0041960863, -0.7034186147, 1.7076147010⟩⟩

/-- the cube root, with the sign of its argument -/
def cubeRoot (v : Float) : Float :=
  let r := Light.raised v.abs (1.0 / 3.0)
  if v < 0.0 then -r else r

def toLinear (lab : Triple) : Triple :=
  conesToLinear.apply ((labToRoots.apply lab).map fun v => Light.raised v 3.0)

/-- linear light of coordinates, unless a cube leaves the range of floats -/
def toLinearAny (lab : Triple) : Except Fault Triple := do
  let cones ← (labToRoots.apply lab).mapM fun v => Light.power v 3.0
  return conesToLinear.apply cones

def pi : Float := 3.141592653589793

def degrees (radians : Float) : Float := radians * (180.0 / pi)

def radians (degrees : Float) : Float := degrees * (pi / 180.0)

end Oklab

/-- lightness, chroma, and hue in degrees -/
structure Oklch where
  lightness : Float
  chroma : Float
  hue : Float

namespace Hex

/-- lightness and opponent axes of a color -/
def oklab (h : Hex) : Triple :=
  let cones := Oklab.xyzToCones.apply (Oklab.linearToXyz.apply h.linear)
  Oklab.rootsToLab.apply (cones.map Oklab.cubeRoot)

/-- the polar form; hues run from 0 to 360 -/
def oklch (h : Hex) : Oklch :=
  let lab := h.oklab
  let hue := Oklab.degrees (Float.atan2 lab.z lab.y)
  { lightness := lab.x
    chroma := (lab.y * lab.y + lab.z * lab.z).sqrt
    hue := if hue < 0.0 then hue + 360.0 else hue }

/-- a hundred times the distance of two colors in the perceptual space -/
def distance (a b : Hex) : Float :=
  let p := a.oklab
  let q := b.oklab
  100.0 * (Light.raised (p.x - q.x) 2.0 + Light.raised (p.y - q.y) 2.0 +
    Light.raised (p.z - q.z) 2.0).sqrt

end Hex
end Palette
