import Palette.Color.Oklab

/-!
# Structured colors

A color may be given by its coordinates in one of fourteen spaces.

* `Space`            the spaces;
* `Space.toHex`      the color of three coordinates, clamped into the sRGB cube; a coordinate too
                     large for the conversion is refused;
* `Hex.ofValue`      the color of a value: a text, or a map with a color space and components,
                     or with a text under `hex`, which wins;
* `Hex.components`   the channels of a color to three places.
-/

namespace Palette

/-- the spaces of structured colors -/
inductive Space where
  | srgb
  | srgbLinear
  | hsl
  | hwb
  | lab
  | lch
  | oklab
  | oklch
  | displayP3
  | a98
  | prophoto
  | rec2020
  | xyzD65
  | xyzD50
  deriving DecidableEq, Repr

namespace Space

def all : List Space :=
  [.srgb, .srgbLinear, .hsl, .hwb, .lab, .lch, .oklab, .oklch, .displayP3, .a98, .prophoto,
    .rec2020, .xyzD65, .xyzD50]

def name : Space → String
  | .srgb => "srgb"
  | .srgbLinear => "srgb-linear"
  | .hsl => "hsl"
  | .hwb => "hwb"
  | .lab => "lab"
  | .lch => "lch"
  | .oklab => "oklab"
  | .oklch => "oklch"
  | .displayP3 => "display-p3"
  | .a98 => "a98-rgb"
  | .prophoto => "prophoto-rgb"
  | .rec2020 => "rec2020"
  | .xyzD65 => "xyz-d65"
  | .xyzD50 => "xyz-d50"

def ofName? (s : String) : Option Space := all.find? fun c => c.name == s

def ofDocument? (d : Document) : Option Space := d.text?.bind ofName?

/-! ## linear maps -/

/-- tristimulus values under daylight to linear light -/
def xyzToLinear : Matrix :=
  ⟨⟨3.2404542, -1.5371385, -0.4985314⟩, ⟨-0.9692660, 1.8760108, 0.0415560⟩,
    ⟨0.0556434, -0.2040259, 1.0572252⟩⟩

/-- light of wide-gamut displays to tristimulus values -/
def p3ToXyz : Matrix :=
  ⟨⟨0.4865709, 0.2656677, 0.1982173⟩, ⟨0.2289746, 0.6917385, 0.0792869⟩,
    ⟨0.0, 0.0451134, 1.0439444⟩⟩

/-- light of photographic prints to tristimulus values -/
def a98ToXyz : Matrix :=
  ⟨⟨0.5766690429101305, 0.1855582379065463, 0.1882286462349947⟩,
    ⟨0.29734497525053605, 0.6273635662554661, 0.07529145849399788⟩,
    ⟨0.02703136138641234, 0.07068885253582723, 0.9913375368376388⟩⟩

/-- light of broadcast video to tristimulus values -/
def rec2020ToXyz : Matrix :=
  ⟨⟨0.6369580483012914, 0.14461690358620832, 0.1688809751641721⟩,
    ⟨0.2627002120112671, 0.6779980715188708, 0.05930171646986196⟩,
    ⟨0.0, 0.028072693049087428, 1.060985057710791⟩⟩

/-- light of photographic film to tristimulus values under print light -/
def prophotoToXyz : Matrix :=
  ⟨⟨0.7977604896723027, 0.13518583717574031, 0.0313493495815248⟩,
    ⟨0.2880711282292934, 0.7118432178101014, 0.00008565396060525902⟩,
    ⟨0.0, 0.0, 0.8251046025104601⟩⟩

/-- print light to daylight -/
def adapt : Matrix :=
  ⟨⟨0.9555766, -0.0230393, 0.0631636⟩, ⟨-0.0282895, 1.0099416, 0.0210077⟩,
    ⟨0.0122982, -0.0204830, 1.3299098⟩⟩

/-- white under print light -/
def white : Triple := ⟨0.9642, 1.0, 0.8251⟩

/-! ## transfer functions -/

/-- the power of the size of a value, with the sign of the value -/
def signedPower (v e : Float) : Except Fault Float := do
  let r ← Light.power v.abs e
  return if v < 0.0 then -r else r

/-- light of a channel of photographic film -/
def prophotoLinear (v : Float) : Except Fault Float :=
  if v.abs ≤ 16.0 / 512.0 then .ok (v / 16.0) else signedPower v 1.8

/-- light of a channel of broadcast video -/
def rec2020Linear (v : Float) : Except Fault Float := do
  let alpha := 1.09929682680944
  let beta := 0.018053968510807
  if v.abs < beta * 4.5 then return v / 4.5
  let r ← Light.power ((v.abs + alpha - 1.0) / alpha) (1.0 / 0.45)
  return if v < 0.0 then -r else r

/-! ## hues -/

/-- the pure color of a hue in degrees -/
def hue (h : Float) : Triple :=
  let p := Dyadic.remainder h 360.0 / 60.0
  let x := 1.0 - (Dyadic.remainder p 2.0 - 1.0).abs
  if p < 1.0 then ⟨1.0, x, 0.0⟩
  else if p < 2.0 then ⟨x, 1.0, 0.0⟩
  else if p < 3.0 then ⟨0.0, 1.0, x⟩
  else if p < 4.0 then ⟨0.0, x, 1.0⟩
  else if p < 5.0 then ⟨x, 0.0, 1.0⟩
  else ⟨1.0, 0.0, x⟩

def ofHsl (h s l : Float) : Triple :=
  let chroma := (1.0 - (2.0 * l - 1.0).abs) * s
  let m := l - chroma / 2.0
  (hue h).map fun c => c * chroma + m

/-- channels of hue, whiteness and blackness, the latter two scaled down to one in sum -/
def ofHwb (h w b : Float) : Triple :=
  let total := w + b
  let (w, b) := if 1.0 < total then (w / total, b / total) else (w, b)
  (hue h).map fun c => c * (1.0 - w - b) + w

/-- opponent axes of a chroma and a hue in degrees; an infinite hue has no direction -/
def polar (c h : Float) : Except Fault (Float × Float) :=
  let r := Oklab.radians h
  if r.isInf then .error (.unreadable .angle) else .ok (c * r.cos, c * r.sin)

/-- tristimulus values under print light of lightness and opponent axes -/
def ofLab (l a b : Float) : Except Fault Triple := do
  let fy := (l + 16.0) / 116.0
  let fx := a / 500.0 + fy
  let fz := fy - b / 200.0
  let eps := 216.0 / 24389.0
  let kappa := 24389.0 / 27.0
  let side (f : Float) : Except Fault Float := do
    let r ← Light.power f 3.0
    return if eps < r then r else (116.0 * f - 16.0) / kappa
  let x ← side fx
  let y ← if kappa * eps < l then Light.power ((l + 16.0) / 116.0) 3.0 else pure (l / kappa)
  let z ← side fz
  return ⟨x * white.x, y * white.y, z * white.z⟩

/-! ## the conversions -/

/-- the color of tristimulus values under daylight -/
def ofXyz (v : Triple) : Hex := Hex.ofLinear (xyzToLinear.apply v)

/-- the color of tristimulus values under print light -/
def ofPrintXyz (v : Triple) : Hex := ofXyz (adapt.apply v)

/-- the color of three coordinates -/
def toHex (s : Space) (v : Triple) : Except Fault Hex :=
  match s with
  | .srgb => return Hex.ofChannels v
  | .srgbLinear => return Hex.ofLinear v
  | .hsl => return Hex.ofChannels (ofHsl v.x (v.y / 100.0) (v.z / 100.0))
  | .hwb => return Hex.ofChannels (ofHwb v.x (v.y / 100.0) (v.z / 100.0))
  | .oklab => return Hex.ofLinear (← Oklab.toLinearAny v)
  | .oklch => do
    let (a, b) ← polar v.y v.z
    return Hex.ofLinear (← Oklab.toLinearAny ⟨v.x, a, b⟩)
  | .lab => return ofPrintXyz (← ofLab v.x v.y v.z)
  | .lch => do
    let (a, b) ← polar v.y v.z
    return ofPrintXyz (← ofLab v.x a b)
  | .displayP3 => return ofXyz (p3ToXyz.apply (← v.mapM Light.linearizeAny))
  | .a98 => return ofXyz (a98ToXyz.apply (← v.mapM fun c => signedPower c (563.0 / 256.0)))
  | .prophoto => return ofPrintXyz (prophotoToXyz.apply (← v.mapM prophotoLinear))
  | .rec2020 => return ofXyz (rec2020ToXyz.apply (← v.mapM rec2020Linear))
  | .xyzD65 => return ofXyz v
  | .xyzD50 => return ofPrintXyz v

theorem mem_all (s : Space) : s ∈ all := by cases s <;> simp [all]

theorem ofName?_name (s : Space) : ofName? s.name = some s := by
  cases s <;> decide

/-- a component: a number, a text that writes one, or the word or value for none -/
def component : Document → Except Fault Float
  | .null => .ok 0.0
  | .text s => if s == "none" then .ok 0.0 else (Document.text s).number
  | d => d.number

/-- three components, from a list or from the letters of a text -/
def components? : Document → Option (Document × Document × Document)
  | .list [a, b, c] => some (a, b, c)
  | .text s =>
    match Text.letters s with
    | [a, b, c] => some (.text a, .text b, .text c)
    | _ => none
  | _ => none

end Space

namespace Hex

/-- the color of a space and components; what is missing is null -/
def ofParts (space comps : Document) : Except Fault Hex := do
  let some s := Space.ofDocument? space | throw (.unknownSpace space)
  let some (a, b, c) := Space.components? comps | throw (.notComponents comps)
  let x ← Space.component a
  let y ← Space.component b
  let z ← Space.component c
  s.toHex ⟨x, y, z⟩

/-- the color of a value: a text, or a map with a text or with coordinates -/
def ofValue (d : Document) : Except Fault Hex :=
  match d with
  | .text _ => ofDocument d
  | .map members =>
    match members.lookup (.text "hex") with
    | some h =>
      if h.truthy then ofDocument h
      else ofParts ((members.lookup (.text "colorSpace")).getD .null)
        ((members.lookup (.text "components")).getD .null)
    | none =>
      ofParts ((members.lookup (.text "colorSpace")).getD .null)
        ((members.lookup (.text "components")).getD .null)
  | _ => .error (.notColor d)

/-- the channels of a color to three places -/
def components (h : Hex) : List Float := h.channels.toList.map (Decimal.rounded 3)

end Hex
end Palette
