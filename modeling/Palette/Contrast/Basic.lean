import Palette.Color.Light
import Palette.FontSize

/-!
# Contrast requirements

* `Level`       the two levels of strictness; another value in their place asks for the lower one
                wherever it can;
* `Target`      what a color is used for;
* `Context`     what an evaluation depends on besides the two colors;
* `Evaluation`  the outcome for a color on a background;
* `Direction`   where on a ramp to look for a color that passes;
* `Engine`      a way of evaluating.

`Engine.evaluate` is total. Where an engine cannot evaluate in a context, `Engine.admits` says
so, and callers ask it first.
-/

namespace Palette

inductive Level where
  | aa
  | aaa
  | other (given : Document)

namespace Level

def ofDocument : Document → Level
  | .text "AA" => .aa
  | .text "AAA" => .aaa
  | d => .other d

/-- the name of a level, as it was given -/
def document : Level → Document
  | .aa => .text "AA"
  | .aaa => .text "AAA"
  | .other d => d

def strict : Level → Bool
  | .aaa => true
  | _ => false

end Level

inductive Target where
  | text
  | uiComponent
  | decorative
  deriving DecidableEq, Hashable, Repr

namespace Target

def name : Target → String
  | .text => "text"
  | .uiComponent => "ui-component"
  | .decorative => "decorative"

/-- the target that a value names; any other value is treated as text -/
def ofDocument : Document → Target
  | .text "ui-component" => .uiComponent
  | .text "decorative" => .decorative
  | _ => .text

end Target

/-- what an evaluation depends on besides the two colors -/
structure Context where
  fontPx : Int
  target : Target
  level : Level

/-- which of two colors is the darker one -/
inductive Polarity where
  | darkOnLight
  | lightOnDark
  deriving DecidableEq, Repr

namespace Polarity

def name : Polarity → String
  | .darkOnLight => "dark-on-light"
  | .lightOnDark => "light-on-dark"

end Polarity

/-- the outcome for a color on a background -/
structure Evaluation where
  passed : Bool
  metric : String
  value : Float
  required : Option Float
  polarity : Option Polarity
  deriving Inhabited

namespace Evaluation

def exempt : Evaluation :=
  { passed := true, metric := "wcag-exempt", value := 0.0, required := some 0.0, polarity := none }

end Evaluation

/-- where on a ramp to look for a color that passes: toward higher steps, toward lower steps, or,
for any other word, on both sides -/
inductive Direction where
  | darker
  | lighter
  | other (word : String)
  deriving DecidableEq, Repr

namespace Direction

def ofWord (word : String) : Direction :=
  if word == "darker" then .darker
  else if word == "lighter" then .lighter
  else .other word

def word : Direction → String
  | .darker => "darker"
  | .lighter => "lighter"
  | .other w => w

theorem word_ofWord (w : String) : (ofWord w).word = w := by
  unfold ofWord
  split
  · next h => exact (beq_iff_eq.1 h).symm
  · split
    · next h => exact (beq_iff_eq.1 h).symm
    · rfl

end Direction

structure Engine where
  /-- the name by which it is chosen -/
  id : String
  /-- does it pass every color for a target, without a look at the colors? -/
  exempts : Target → Bool
  /-- can it evaluate in a context? -/
  admits : Context → Except Fault Unit
  /-- the outcome for a color on a background -/
  evaluate : Hex → Hex → Context → Evaluation
  /-- where to look first for a color that passes on a background -/
  preferred : Option (Hex → Direction)
  /-- the font size that a float in its place stands for when it is no number -/
  unsized : Int := 0

namespace Engine

def passes (e : Engine) (background : Hex) (c : Context) (color : Hex) : Bool :=
  (e.evaluate color background c).passed

/-- where to look first on a background with a given luminance -/
def direction (e : Engine) (background : Hex) (luminance : Float) : Direction :=
  match e.preferred with
  | some f => f background
  | none => if 0.5 < luminance then .darker else .lighter

/-- the font size as it is given; a value that is no number counts as zero unless the color is
used for text -/
def size (e : Engine) (px : Document) (target : Target) : Except Fault Int :=
  let n := FontSize.ofNumber e.unsized px
  if target = .uiComponent then .ok (n.toOption.getD 0) else n

/-- the outcome for colors and a font size as they are given -/
def judge (e : Engine) (color background px : Document) (target : Target) (level : Level) :
    Except Fault Evaluation :=
  if e.exempts target then .ok Evaluation.exempt
  else do
    let fg ← Hex.ofDocument color
    let bg ← Hex.ofDocument background
    let n ← e.size px target
    let c : Context := ⟨n, target, level⟩
    e.admits c
    return e.evaluate fg bg c

end Engine
end Palette
