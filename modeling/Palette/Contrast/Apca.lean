import Palette.Contrast.Basic

/-!
# Perceptual lightness contrast

A signed contrast between a text and its background, positive for dark on light, up to about a
hundred in size.

* `Apca.softClamp`  raises luminances near black, `Apca.softClampAny` for numbers of any size;
* `Apca.contrast`   the signed contrast and its polarity;
* `Apca.required`   the size that a context asks for, by font size for text;
* `Apca.engine`     the engine that compares the two. For parts other than text it knows only the
                    two levels.
-/

namespace Palette.Apca

/-- luminances from here on stay as they are -/
def blackThreshold : Float := 0.022

/-- the exponent of the rise near black -/
def blackExponent : Float := 1.414

/-- a luminance, raised near black -/
def softClamp (y : Float) : Float :=
  if blackThreshold ≤ y then y else y + Light.raised (blackThreshold - y) blackExponent

def softClampAny (y : Float) : Except Fault Float :=
  if blackThreshold ≤ y then .ok y
  else do
    let r ← Light.power (blackThreshold - y) blackExponent
    return y + r

def scale : Float := 1.14

/-- contrasts up to this size are none, and larger ones are lowered by it -/
def lowClip : Float := 0.027

/-- contrasts below this size are zero from the start -/
def deadZone : Float := 0.001

def quieted (s : Float) : Float := if s.abs < deadZone then 0.0 else s

/-- the signed contrast of a color on a background, and its polarity -/
def contrast (fg bg : Hex) : Float × Polarity :=
  let text := softClamp fg.luminance
  let back := softClamp bg.luminance
  if text < back then
    let s := quieted ((Light.raised back 0.56 - Light.raised text 0.57) * scale)
    (if lowClip < s then (s - lowClip) * 100.0 else 0.0, .darkOnLight)
  else
    let s := quieted ((Light.raised back 0.65 - Light.raised text 0.62) * scale)
    (if s < -lowClip then (s + lowClip) * 100.0 else 0.0, .lightOnDark)

def required (c : Context) : Float :=
  match c.target with
  | .uiComponent => if c.level.strict then 45.0 else 30.0
  | _ =>
    if c.fontPx < 14 then (if c.level.strict then 90.0 else 75.0)
    else if c.fontPx < 24 then (if c.level.strict then 75.0 else 60.0)
    else (if c.level.strict then 60.0 else 45.0)

def evaluate (fg bg : Hex) (c : Context) : Evaluation :=
  if c.target = .decorative then Evaluation.exempt
  else
    let r := contrast fg bg
    { passed := required c ≤ r.1.abs
      metric := "apca-lc"
      value := r.1.abs
      required := some (required c)
      polarity := some r.2 }

/-- for parts other than text the level has to be one of the two -/
def admits (c : Context) : Except Fault Unit :=
  match c.target, c.level with
  | .uiComponent, .other d => do
    let _ ← d.asKey
    throw (.noMember d.shown)
  | _, _ => .ok ()

/-- toward darker colors on light backgrounds, toward lighter ones on the others -/
def preferred (background : Hex) : Direction :=
  if 0.5 < background.luminance then .darker else .lighter

def engine : Engine :=
  { id := "apca"
    exempts := (· == .decorative)
    admits
    evaluate
    preferred := some preferred
    unsized := 24 }

end Palette.Apca
