import Palette.Contrast.Basic
import Palette.Ramp

/-!
# Searching a ramp

Which step replaces one that does not pass.

* `Ramp.above?`, `Ramp.below?`   the nearest passing step on one side of an origin;
* `Ramp.nearer`      the nearer of two steps on the two sides, the higher one on a tie;
* `Ramp.nearest?`    the nearest passing step in a direction, the origin itself first;
* `Ramp.closest?`    the same, on both sides where the direction has none;
* `Ramp.chosen?`     the step that is taken in place of a default step, if it needs replacing.
-/

namespace Palette.Ramp

def passesAt (r : Ramp) (passes : Hex → Bool) (i : Int) : Bool := r.hasStep i && passes (r.color i)

/-- the nearest passing step above an origin -/
def above? (r : Ramp) (passes : Hex → Bool) (origin : Int) : Option Int :=
  (r.cells.find? fun c => origin < c.1 && passes c.2).map (·.1)

/-- the nearest passing step below an origin -/
def below? (r : Ramp) (passes : Hex → Bool) (origin : Int) : Option Int :=
  (r.cells.reverse.find? fun c => c.1 < origin && passes c.2).map (·.1)

/-- the nearer to the origin of a step above and a step below, the one above on a tie -/
def nearer (origin : Int) : Option Int → Option Int → Option Int
  | none, below => below
  | above, none => above
  | some a, some b => some (if a - origin ≤ origin - b then a else b)

/-- the nearest passing step in a direction; the origin itself comes first -/
def nearest? (r : Ramp) (passes : Hex → Bool) (origin : Int) (d : Direction) : Option Int :=
  if r.passesAt passes origin then some origin
  else match d with
    | .darker => r.above? passes origin
    | .lighter => r.below? passes origin
    | .other _ => nearer origin (r.above? passes origin) (r.below? passes origin)

/-- the nearest passing step in a direction, or else on either side -/
def closest? (r : Ramp) (passes : Hex → Bool) (origin : Int) (d : Direction) : Option Int :=
  match r.nearest? passes origin d with
  | some i => some i
  | none => r.nearest? passes origin (.other "either")

/-- does the color of a step pass, with steps below zero counted from the end? -/
def passesFrom (r : Ramp) (passes : Hex → Bool) (i : Int) : Bool := (r.color? i).any passes

/-- The step that is taken in place of a default step. A default step that passes stays. On a
mirrored context the search starts from the mirrored step; a decorative color takes that step
without a test. -/
def chosen? (r : Ramp) (passes : Hex → Bool) (default : Int) (mirrored decorative : Bool)
    (d : Direction) : Option Int :=
  let origin := if mirrored then r.last - default else default
  if mirrored && decorative then some origin
  else if r.passesFrom passes default then none
  else if mirrored && r.passesFrom passes origin then some origin
  else r.closest? passes origin d

end Palette.Ramp
