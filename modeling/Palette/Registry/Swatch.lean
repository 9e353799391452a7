import Palette.Registry.Correction

/-!
# Swatches

Colors as they are written, with thresholds as they are given. Nothing is known about either
until it is used, and the first fault ends the work.

* `Swatch`            a color with the text that wrote it;
* `Swatch.palette`    the colors of a map as they look under a deficiency;
* `Swatch.confused`   the pairs of names of a map whose colors are distinct and look alike;
* `Swatch.best?`      the best replacement of a color among some candidates.

What names no deficiency leaves colors as they look.
-/

namespace Palette

/-- a color with the text that wrote it -/
structure Swatch where
  text : String
  color : Hex
  deriving DecidableEq

namespace Swatch

def ofDocument (d : Document) : Except Fault Swatch := do
  return ⟨d.shown, ← Hex.ofDocument d⟩

def deficiency? (mode : Document) : Option Deficiency := mode.text?.bind Deficiency.ofName?

def look (mode : Document) (h : Hex) : Hex :=
  match deficiency? mode with
  | some m => h.simulate m
  | none => h

/-- two colors whose distance is asked for; both have to be able to be keys -/
def measured (a b : Document) : Except Fault (Hex × Hex) := do
  let _ ← a.asKey
  let _ ← b.asKey
  let a ← Hex.ofDocument a
  return (a, ← Hex.ofDocument b)

/-- the colors of a map as they look; without a mode they stay as they are -/
def palette (colors mode : Document) : Except Fault (Entries Atom Document) := do
  if !mode.truthy then return ← colors.dictionary
  let ms ← colors.entries
  match deficiency? mode with
  | some m => ms.mapM fun e => do return (e.1, ((← Hex.ofDocument e.2).simulate m).document)
  | none => return ms

/-- the pairs of names whose colors are farther apart than one threshold and look closer than the
other -/
def confused (colors mode confusion distinguishable : Document) :
    Except Fault (List (Atom × Atom)) := do
  let ms ← colors.entries
  if (deficiency? mode).isSome then
    ms.forM fun e => do
      let _ ← ofDocument e.2
  (Gauge.pairs ms).filterMapM fun (a, b) => do
    let (x, y) ← measured a.2 b.2
    if Hex.distance x y ≤ (← distinguishable.unbounded) then return none
    let near ← confusion.unbounded
    return if Hex.distance (look mode x) (look mode y) < near then some (a.1, b.1) else none

/-- the measure of swatches; `alone` is the separation of one without others -/
def gauge (mode : Document) (alone : Float) : Gauge Swatch Float :=
  let g := Correction.gauge ⟨.bool true, 0.0, alone⟩ .deuteranopia
  { look := fun s => { s with color := look mode s.color }
    distance := fun a b => Hex.distance a.color b.color
    confusion := g.confusion
    distinguishable := g.distinguishable
    separationWeight := g.separationWeight
    driftWeight := g.driftWeight
    margin := g.margin
    counts := g.counts }

/-- the text of the best candidate in place of a color among others, if it is better -/
def best? (candidates current mode others distinguishable : Document) :
    Except Fault (Option String) := do
  let known := (deficiency? mode).isSome
  if known then
    let _ ← ofDocument current
  match ← candidates.elements with
  | [] => return none
  | first :: rest => do
    if known then
      let _ ← ofDocument first
    let os ← if others.truthy then others.elements else pure []
    os.forM fun o => do
      let _ ← measured first o
    let _ ← measured first current
    let alone ← if os.isEmpty then distinguishable.numeric else pure 0.0
    let os ← os.mapM ofDocument
    let current ← ofDocument current
    let cs ← (first :: rest).mapM fun c => do
      if !known then
        let _ ← c.asKey
      ofDocument c
    return ((gauge mode alone).replacement? cs current os).map Swatch.text

end Swatch
end Palette
