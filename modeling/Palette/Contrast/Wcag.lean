import Palette.Contrast.Basic

/-!
# Contrast ratios

The ratio of the luminances of two colors, each raised by a twentieth: from 1 to 21.

* `Wcag.ratio`     the ratio of two luminances, `Wcag.ratioAny` for any two numbers;
* `Wcag.required`  the ratio that a context asks for; text of 24 pixels and more counts as large;
* `Wcag.engine`    the engine that compares the two.
-/

namespace Palette.Wcag

/-- the greater of two numbers, the first on a tie -/
def greater (a b : Float) : Float := if a < b then b else a

/-- the smaller of two numbers, the first on a tie -/
def smaller (a b : Float) : Float := if b < a then b else a

def ratio (a b : Float) : Float := (greater a b + 0.05) / (smaller a b + 0.05)

/-- the ratio of two numbers, unless it is by zero -/
def ratioAny (a b : Float) : Except Fault Float :=
  if smaller a b + 0.05 == 0.0 then .error .divisionByZero else .ok (ratio a b)

def contrast (a b : Hex) : Float := ratio a.luminance b.luminance

/-- from how many pixels on text is large -/
def largePx : Int := 24

def required (c : Context) : Float :=
  match c.target with
  | .uiComponent => if c.level.strict then 4.5 else 3.0
  | _ =>
    let large := largePx ≤ c.fontPx
    if c.level.strict then (if large then 4.5 else 7.0) else (if large then 3.0 else 4.5)

def evaluate (fg bg : Hex) (c : Context) : Evaluation :=
  if c.target = .decorative then Evaluation.exempt
  else
    let r := contrast fg bg
    { passed := required c ≤ r
      metric := "wcag21-ratio"
      value := r
      required := some (required c)
      polarity := some (if fg.luminance < bg.luminance then .darkOnLight else .lightOnDark) }

/-- toward darker colors on light backgrounds, toward lighter ones on the others -/
def preferred (background : Hex) : Direction :=
  if 0.5 < background.luminance then .darker else .lighter

def engine : Engine :=
  { id := "wcag21"
    exempts := (· == .decorative)
    admits := fun _ => .ok ()
    evaluate
    preferred := some preferred }

end Palette.Wcag
