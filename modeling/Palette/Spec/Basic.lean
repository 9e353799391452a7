import Palette.Contrast.Basic
import Palette.Override
import Palette.Theme

/-!
# Specifications

A compiled specification: ramps, stacks, themes, semantic colors and configuration, with all
references resolved.

* `Interaction`, `VisionEntry`, `Semantic`   a semantic color with its states and its own colors
                                             for deficiencies;
* `Strategy`, `Policy`   how a failing step is replaced, and what a failing manual step means;
* `Config`, `Spec`       the whole.
-/

namespace Palette

/-- how a failing step is replaced: by the closest one that passes, or by the one mirrored on the
ramp first; any other value means the former -/
inductive Strategy where
  | closest
  | mirror
  | other (given : Document)

namespace Strategy

def ofDocument : Document → Strategy
  | .text "closest" => .closest
  | .text "mirror-closest" => .mirror
  | d => .other d

/-- the name of a strategy, as it was given -/
def document : Strategy → Document
  | .closest => .text "closest"
  | .mirror => .text "mirror-closest"
  | .other d => d

/-- are steps mirrored on themes that rise toward lighter steps? -/
def mirrors : Strategy → Bool
  | .mirror => true
  | _ => false

end Strategy

/-- what a manual step that fails means: an error, or, for any other value, a warning -/
inductive Policy where
  | error
  | warn
  | other (given : Document)

namespace Policy

def ofDocument : Document → Policy
  | .text "error" => .error
  | .text "warn" => .warn
  | d => .other d

def document : Policy → Document
  | .error => .text "error"
  | .warn => .text "warn"
  | .other d => d

/-- is a failing manual step an error? -/
def fatal : Policy → Bool
  | .error => true
  | _ => false

end Policy

abbrev Overrides := List (Override Document Choice)

/-- a state of a semantic color, such as hover -/
structure Interaction where
  step : Choice
  overrides : Overrides

/-- the color that a semantic color has of its own under a deficiency -/
structure VisionEntry where
  ramp : Ramp
  default : Choice
  overrides : Overrides

structure Semantic where
  name : Atom
  ramp : Ramp
  default : Choice
  target : Target
  overrides : Overrides
  interactions : Entries Atom Interaction
  vision : Entries Atom VisionEntry

/-- when colors are moved apart for deficiencies -/
structure CorrectionOptions where
  enabled : Document
  confusion : Float
  distinguishable : Float

namespace CorrectionOptions

/-- colors closer than this under a deficiency are confused -/
def usualConfusion : Float := 5.0

/-- colors farther apart than this are distinguishable without a deficiency -/
def usualDistinguishable : Float := 8.0

end CorrectionOptions

structure Config where
  level : Level
  engine : Document
  defaultTheme : Document
  strategy : Strategy
  policy : Policy
  correction : CorrectionOptions

structure Spec where
  ramps : Ramps
  layers : Stacks
  themes : Entries Atom Theme
  semantics : Entries Atom Semantic
  config : Config
  warnings : List String

namespace Spec

def derivedName (token state : Atom) : String := token.shown ++ "-" ++ state.shown

end Spec
end Palette
