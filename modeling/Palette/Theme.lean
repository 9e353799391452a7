import Palette.Ramp

/-!
# Stacks and themes

A stack is a level of elevation with an offset; `root` is the base level, at offset zero. A theme
picks a step of a ramp as its base, and has a surface for each stack: the base moved by the
offset, toward lower steps on themes in the upper half of their ramp and toward higher steps on
the others, and held on the ramp.

* `Stacks.ofDocument`  the stacks that a map declares, or else the usual ones;
* `Elevation.ofStep`   the way a theme rises;
* `Theme.surfaceOf`    the surface of an offset;
* `Theme.ofDocument`   the theme that a map describes.
-/

namespace Palette

/-- levels of elevation with their offsets -/
abbrev Stacks := Entries Atom Int

namespace Stacks

def base : Atom := .text "root"

/-- the levels where none are declared -/
def usual : Stacks :=
  [(base, 0), (.text "card", 1), (.text "popover", 2), (.text "tooltip", 2), (.text "modal", 2),
    (.text "overlay", 3)]

/-- the base level and the declared levels after it -/
def ofMembers (members : Entries Atom Document) : Except Fault Stacks := do
  let root := (members.lookup base).getD (.int 0)
  if !root.same (.int 0) then throw (.rootOffset root)
  let others ← (members.filter fun m => !(m.1 == base)).mapM fun m => do
    return (m.1, ← m.2.whole)
  return (base, 0) :: others

/-- the levels that a value declares; an empty value or none declares the usual ones -/
def ofDocument (d : Option Document) : Except Fault Stacks :=
  match d with
  | some v => if v.truthy then do ofMembers (← v.entries) else .ok usual
  | none => .ok usual

end Stacks

/-- which way surfaces go as they rise: toward lighter, lower steps or toward darker, higher ones -/
inductive Elevation where
  | lighter
  | darker
  deriving DecidableEq, Repr, Inhabited

namespace Elevation

def name : Elevation → String
  | .lighter => "lighter"
  | .darker => "darker"

/-- the sign of a rise on the steps -/
def sign : Elevation → Int
  | .lighter => -1
  | .darker => 1

/-- a theme past the middle of its ramp rises toward lighter steps -/
def ofStep (r : Ramp) (step : Int) : Elevation := if r.last < 2 * step then .lighter else .darker

end Elevation

/-- the background of a theme at a stack -/
structure Surface where
  step : Int
  hex : Hex
  deriving DecidableEq, Inhabited

/-- a background color with its elevations -/
structure Theme where
  name : Atom
  ramp : Atom
  step : Choice
  hex : Hex
  fallback : List Document
  aliases : List Document
  elevation : Elevation
  surfaces : Entries Atom Surface
  deriving Inhabited

namespace Theme

/-- the surface at a step, held on the ramp -/
def surfaceAt (r : Ramp) (i : Int) : Surface :=
  let j := r.clamp i
  ⟨j, r.color j⟩

/-- the surface of an offset from a base step -/
def surfaceOf (r : Ramp) (step : Int) (offset : Int) : Surface :=
  surfaceAt r (step + (Elevation.ofStep r step).sign * offset)

def surfacesOf (r : Ramp) (step : Int) (layers : Stacks) : Entries Atom Surface :=
  layers.map fun s => (s.1, surfaceOf r step s.2)

/-- the theme with a base step on a ramp -/
def ofStep (name : Atom) (r : Ramp) (step : Choice) (layers : Stacks)
    (fallback aliases : List Document) : Theme :=
  { name, ramp := r.name, step, hex := r.color step.index, fallback, aliases
    elevation := Elevation.ofStep r step.index, surfaces := surfacesOf r step.index layers }

end Theme

abbrev Ramps := Entries Atom Ramp

namespace Ramps

/-- the ramp that `owner` names, by a text; nothing is null -/
def require (ramps : Ramps) (owner : String) (name : Option Document) : Except Fault Ramp :=
  match name.bind Document.text? |>.bind fun n => ramps.lookup (.text n) with
  | some r => .ok r
  | none => .error (.unknownRamp owner (name.getD .null))

end Ramps

namespace Ramp

/-- the step that `owner` asks for, if it is on the ramp; nothing is null -/
def require (r : Ramp) (owner : String) (step : Option Document) : Except Fault Choice :=
  match step.bind Choice.ofDocument? with
  | some c =>
    if r.hasStep c.index then .ok c
    else .error (.stepOutside owner (step.getD .null) r.name.shown r.length)
  | none => .error (.stepOutside owner (step.getD .null) r.name.shown r.length)

theorem require_eq_ok_iff (r : Ramp) (owner : String) (step : Option Document) (c : Choice) :
    r.require owner step = .ok c ↔
      step.bind Choice.ofDocument? = some c ∧ r.hasStep c.index = true := by
  unfold require
  cases h : step.bind Choice.ofDocument? with
  | none => simp
  | some b =>
    by_cases hb : r.hasStep b.index = true
    · simp only [hb, ↓reduceIte, Except.ok.injEq, Option.some.injEq]
      constructor
      · rintro rfl; exact ⟨rfl, hb⟩
      · exact fun h => h.1
    · simp only [hb, Bool.false_eq_true, ↓reduceIte, Option.some.injEq, reduceCtorEq, false_iff,
        not_and]
      rintro rfl
      exact hb

end Ramp

namespace Theme

def ofDocument (name : Atom) (d : Document) (ramps : Ramps) (layers : Stacks) :
    Except Fault Theme := do
  let owner := s!"Theme \"{name.shown}\""
  let r ← ramps.require owner (← d.get "ramp")
  let step ← r.require owner (← d.get "step")
  let fallback ← Document.elementsOf (← d.get "fallback")
  let aliases ← Document.elementsOf (← d.get "aliases")
  return ofStep name r step layers fallback aliases

end Theme
end Palette
