import Palette.Color.Space

/-!
# Ramps

A ramp is a row of colors under a name; a step is a position on it, counted from zero. A truth
value may stand for one of the first two steps.

* `Choice`            a step as it is written;
* `Ramp.color?`       the color of a step; steps below zero count from the end;
* `Ramp.hasStep`, `Ramp.clamp`   the steps on the ramp, and the one nearest to a number;
* `Ramp.steps`        the colors with their measurements;
* `Ramp.isMonotonic`  does luminance never turn back between neighboring steps?
* `Ramp.ofDocument`   the ramp of a list of colors.
-/

namespace Palette

structure Ramp where
  name : Atom
  colors : List Hex
  deriving Inhabited

/-- a step as it is written: a number, or a truth value for one or zero -/
inductive Choice where
  | number (step : Int)
  | flag (value : Bool)
  deriving DecidableEq, Repr, Inhabited

namespace Choice

def index : Choice → Int
  | .number i => i
  | .flag b => if b then 1 else 0

def document : Choice → Document
  | .number i => .int i
  | .flag b => .bool b

def ofDocument? : Document → Option Choice
  | .int i => some (.number i)
  | .bool b => some (.flag b)
  | _ => none

theorem ofDocument?_document (c : Choice) : ofDocument? c.document = some c := by
  cases c <;> rfl

/-- a value writes a step exactly when it is a whole number in the wide sense, and then this one -/
theorem map_index_ofDocument? (d : Document) : (ofDocument? d).map index = d.int? := by
  cases d <;> rfl

end Choice

/-- a color on a ramp with its measurements -/
structure Step where
  index : Nat
  hex : Hex
  oklch : Oklch
  luminance : Float

namespace Ramp

def length (r : Ramp) : Nat := r.colors.length

/-- the last step; one below zero on an empty ramp -/
def last (r : Ramp) : Int := r.length - 1

def hasStep (r : Ramp) (i : Int) : Bool := 0 ≤ i && i < r.length

/-- the step nearest to a number -/
def clamp (r : Ramp) (i : Int) : Int := max 0 (min r.last i)

/-- the color of a step, counted from the end below zero -/
def color? (r : Ramp) (i : Int) : Option Hex :=
  if 0 ≤ i then r.colors[i.toNat]?
  else if 0 ≤ i + r.length then r.colors[(i + r.length).toNat]?
  else none

/-- the color of a step of the ramp, black elsewhere -/
def color (r : Ramp) (i : Int) : Hex := (r.color? i).getD Hex.black

def cells (r : Ramp) : List (Int × Hex) := r.colors.mapIdx fun i h => ((i : Int), h)

/-- the step of the first occurrence of a color -/
def indexOf? (r : Ramp) (h : Hex) : Option Int := (r.colors.idxOf? h).map fun i => (i : Int)

def steps (r : Ramp) : List Step :=
  r.colors.mapIdx fun i h => { index := i, hex := h, oklch := h.oklch, luminance := h.luminance }

/-- the order of two floats by the sign of their difference -/
def order (a b : Float) : Ordering :=
  let d := b - a
  if d == 0.0 then .eq else if 0.0 < d then .lt else .gt

def opposite : Ordering → Ordering → Bool
  | .lt, .gt => true
  | .gt, .lt => true
  | _, _ => false

/-- does no window of three neighbors turn back? -/
def monotonicBy {α : Type} (cmp : α → α → Ordering) : List α → Bool
  | a :: b :: c :: rest => !opposite (cmp a b) (cmp b c) && monotonicBy cmp (b :: c :: rest)
  | _ => true

/-- does luminance never turn back between neighboring steps? -/
def isMonotonic (r : Ramp) : Bool := monotonicBy order (r.colors.map Hex.luminance)

def ofDocument (name : Atom) (values : Document) : Except Fault Ramp := do
  let items ← values.elements
  let colors ← items.mapM Hex.ofValue
  return ⟨name, colors⟩

theorem hasStep_iff (r : Ramp) (i : Int) : r.hasStep i = true ↔ 0 ≤ i ∧ i < r.length := by
  simp [hasStep]

theorem clamp_mem (r : Ramp) (i : Int) (h : 0 < r.length) : r.hasStep (r.clamp i) = true := by
  rw [hasStep_iff]
  simp only [clamp, last]
  omega

theorem clamp_of_hasStep (r : Ramp) (i : Int) (h : r.hasStep i = true) : r.clamp i = i := by
  rw [hasStep_iff] at h
  simp only [clamp, last]
  omega

theorem color?_eq_some_of_hasStep (r : Ramp) (i : Int) (h : r.hasStep i = true) :
    r.color? i = some (r.color i) := by
  rw [hasStep_iff] at h
  have hlt : i.toNat < r.colors.length := by
    have : r.colors.length = r.length := rfl
    omega
  simp [color, color?, h.1, hlt]

end Ramp
end Palette
