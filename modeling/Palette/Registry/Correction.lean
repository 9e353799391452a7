import Palette.Color.Vision
import Palette.Registry.Basic

/-!
# Corrections for deficiencies

Colors of one context that are clearly distinct, but look alike under a deficiency, are moved to
other steps of their ramps.

* `Gauge`              what the search measures: how a color looks, how far apart colors look, and
                       the thresholds and weights;
* `Gauge.confused`     the pairs of colors that are distinct and look alike;
* `Gauge.best?`        the first of the candidates with the highest score, and the score;
* `Gauge.replacement?` that candidate, if it is another color and better by the margin;
* `Correction.scene`   the colors at a site;
* `Correction.moves`   the colors that may be moved there;
* `Correction.all`     the variants that a correction adds.

The score of a candidate weighs its least distance from the other colors against its distance
from the present color, both as they look under the deficiency. Distances may be of any type
with an order and arithmetic; builds use floats.
-/

namespace Palette

/-- what the search for a replacement measures -/
structure Gauge (α κ : Type) where
  /-- how a color looks -/
  look : α → α
  /-- how far apart two colors are -/
  distance : α → α → κ
  /-- looks closer than this are confused -/
  confusion : κ
  /-- colors farther apart than this are distinct; also the separation of a color without others -/
  distinguishable : κ
  /-- the weight of separation in a score -/
  separationWeight : κ
  /-- the weight of drift in a score -/
  driftWeight : κ
  /-- how much better a replacement has to be -/
  margin : κ
  /-- may a candidate with this score be taken at all? -/
  counts : κ → Bool

namespace Gauge
variable {α κ τ : Type} [LT κ] [DecidableLT κ] [LE κ] [DecidableLE κ]

/-- the pairs of a list, the first part before the second -/
def pairs : List τ → List (τ × τ)
  | [] => []
  | a :: rest => rest.map (fun b => (a, b)) ++ pairs rest

/-- is a pair of colors distinct, and do they look alike? -/
def confuses (g : Gauge α κ) (a b : α) : Bool :=
  !(g.distance a b ≤ g.distinguishable) && g.distance (g.look a) (g.look b) < g.confusion

/-- the names of the colors that are distinct and look alike, in pairs -/
def confused (g : Gauge α κ) (colors : List (τ × α)) : List (τ × τ) :=
  ((pairs colors).filter fun p => g.confuses p.1.2 p.2.2).map fun p => (p.1.1, p.2.1)

/-- the least of some values, the first such -/
def least (first : κ) (rest : List κ) : κ := rest.foldl (fun m x => if x < m then x else m) first

/-- the least distance of a look from the others -/
def separation (g : Gauge α κ) (others : List α) (look : α) : κ :=
  match others with
  | [] => g.distinguishable
  | o :: os => least (g.distance look o) (os.map (g.distance look))

variable [Sub κ] [Mul κ]

/-- the score of a candidate in place of a color that looks like `present` -/
def score (g : Gauge α κ) (others : List α) (present candidate : α) : κ :=
  g.separationWeight * g.separation others (g.look candidate) -
    g.driftWeight * g.distance (g.look candidate) present

/-- the better of what was found and a candidate -/
def better (g : Gauge α κ) (score : α → κ) (found : Option (α × κ)) (c : α) : Option (α × κ) :=
  let s := score c
  match found with
  | none => if g.counts s then some (c, s) else none
  | some (b, t) => if t < s then some (c, s) else some (b, t)

/-- the first of the candidates with the highest score, and the score -/
def best? (g : Gauge α κ) (score : α → κ) (candidates : List α) : Option (α × κ) :=
  candidates.foldl (g.better score) none

/-- the best candidate, if it is another color and better than the present one by the margin -/
def replacement? [DecidableEq α] (g : Gauge α κ) (candidates : List α) (color : α)
    (others : List α) : Option α :=
  let present := g.look color
  match g.best? (g.score others present) candidates with
  | none => none
  | some (b, s) =>
    if s - g.separationWeight * g.separation others present < g.margin ∨ b = color then none
    else some b

end Gauge

namespace Correction

/-- the measure of builds under a deficiency -/
def gauge (options : CorrectionOptions) (m : Deficiency) : Gauge Hex Float :=
  { look := Hex.simulate m
    distance := Hex.distance
    confusion := options.confusion
    distinguishable := options.distinguishable
    separationWeight := 0.7
    driftWeight := 0.3
    margin := 0.5
    counts := fun s => -Numeral.infinity < s }

/-- the colors at a site, of the names that have one there -/
def scene (color? : VariantKey → Option Hex) (names : List Atom) (s : Site) :
    List (Atom × Hex) :=
  names.filterMap fun n =>
    (color? (VariantKey.atSite n VariantKey.plainVision s)).map fun h => (n, h)

def involved (pairs : List (Atom × Atom)) (name : Atom) : Bool :=
  pairs.any fun p => p.1 == name || p.2 == name

structure Request (κ : Type) where
  color? : VariantKey → Option Hex
  semantics : Entries Atom Semantic
  engine : Engine
  level : Level
  gauge : Deficiency → Gauge Hex κ
  /-- the pairs of a color and a deficiency that have colors of their own -/
  explicit : List (Atom × Deficiency)

variable {κ : Type} [LT κ] [DecidableLT κ] [LE κ] [DecidableLE κ] [Sub κ] [Mul κ]

/-- the colors at a site that are to be moved -/
def moves (q : Request κ) (m : Deficiency) (s : Site) : List (Atom × Hex) :=
  let colors := scene q.color? q.semantics.keys s
  let pairs := (q.gauge m).confused colors
  colors.filter fun c => involved pairs c.1 && !q.explicit.contains (c.1, m)

/-- the colors of a ramp that pass at a site, each once -/
def passing (q : Request κ) (sem : Semantic) (s : Site) : List Hex :=
  sem.ramp.colors.eraseDups.filter (s.passes q.engine sem.target q.level)

/-- the variant that moves a color at a site, if there is a better one -/
def move? (q : Request κ) (m : Deficiency) (s : Site) (c : Atom × Hex) :
    Option (VariantKey × Variant) := do
  let sem ← q.semantics.lookup c.1
  let g := q.gauge m
  let others := (scene q.color? q.semantics.keys s).filter fun o => o.1.differs c.1
  let best ← g.replacement? (passing q sem s) c.2 (others.map fun o => g.look o.2)
  let step ← sem.ramp.indexOf? best
  return (VariantKey.atSite c.1 (.text m.name) s,
    { ramp := sem.ramp.name, step := .number step, hex := best
      evaluation := q.engine.evaluate best s.surface.hex (s.context sem.target q.level) })

/-- the variants that a correction adds, by deficiencies and then by sites -/
def all (q : Request κ) (sites : List Site) : List (VariantKey × Variant) :=
  Deficiency.all.flatMap fun m =>
    sites.flatMap fun s => (moves q m s).filterMap (move? q m s)

/-- the faults of moving a color at a site: a font size whose number cannot be read, or an engine
that cannot evaluate -/
def checkMove (q : Request κ) (s : Site) (c : Atom × Hex) : Except Fault Unit :=
  match q.semantics.lookup c.1 with
  | some sem => do
    let _ ← FontSize.pixels s.fontSize
    q.engine.admits (s.context sem.target q.level)
  | none => .ok ()

/-- the faults that a correction brings: those of the colors at a site, and those of the moves
there -/
def check (q : Request κ) (colors : Site → Except Fault Unit) (sites : List Site) :
    Except Fault Unit :=
  Deficiency.all.forM fun m => sites.forM fun s => do
    colors s
    (moves q m s).forM (checkMove q s)

end Correction
end Palette
