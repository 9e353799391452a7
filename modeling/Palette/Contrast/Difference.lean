import Palette.Contrast.Basic

/-!
# Differences of luminance

An engine for those who set a measure of their own: it compares the difference of the luminances
of the two colors with a least one, the same for every context.

* `Difference.evaluate`  the outcome for a color on a background;
* `Difference.engine`    the engine under a name.
-/

namespace Palette.Difference

def usualLeast : Float := 0.4

def contrast (fg bg : Hex) : Float := (fg.luminance - bg.luminance).abs

/-- the outcome for a color on a background; is the least difference told with it? -/
def evaluate (least : Float) (told : Bool) (fg bg : Hex) : Evaluation :=
  { passed := least ≤ contrast fg bg
    metric := "delta-y"
    value := contrast fg bg
    required := if told then some least else none
    polarity := none }

/-- the engine under a name; a direction, if it is given, is preferred on every background -/
def engine (id : String) (least : Float) (told : Bool) (preferred : Option Direction) : Engine :=
  { id
    exempts := fun _ => false
    admits := fun _ => .ok ()
    evaluate := fun fg bg _ => evaluate least told fg bg
    preferred := preferred.map fun d _ => d }

end Palette.Difference
