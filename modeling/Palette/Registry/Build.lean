import Palette.Contrast.Engines
import Palette.Fingerprint
import Palette.Registry.Correction

/-!
# Building registries

Every semantic color is resolved at every site: first without deficiency, then its states, then
under the deficiencies for which it has colors of its own. Corrections for the other deficiencies
follow when all colors are there.

* `Pass`             one color on one ramp under one vision; `Pass.steps` its step at each site;
* `Record`           a variant with its key, and whether an override set its step;
* `Semantic.records` the records of a semantic color, in order;
* `Spec.records`     those of a specification;
* `Record.variants`, `Record.failures`   the map that records give, and the sentences about the
                     overrides that fail;
* `Spec.corrections` the variants that corrections add;
* `Spec.build`       the registry, or the fault of a failing override where that is an error.
-/

namespace Palette

/-- a color on a ramp under a vision -/
structure Pass where
  token : Atom
  ramp : Ramp
  default : Choice
  overrides : List (Override Atom Choice)
  target : Target
  vision : Atom

/-- a variant with its key -/
structure Record where
  key : VariantKey
  variant : Variant
  /-- did an override set the step? -/
  manual : Bool

namespace Spec

def axes (p : Spec) : Axes Atom := ⟨p.themes.keys, FontSize.names, p.layers.keys⟩

/-- the contexts of a specification, by themes, stacks and font sizes -/
def sites (p : Spec) : List Site := Site.list p.themes p.layers.keys FontSize.names

end Spec

def Record.of (p : Spec) (e : Engine) (token vision : Atom) (target : Target) (r : Ramp)
    (s : Site) (step : Choice) (manual : Bool) : Record :=
  { key := VariantKey.atSite token vision s
    variant :=
      { ramp := r.name, step, hex := r.color step.index
        evaluation :=
          e.evaluate (r.color step.index) s.surface.hex (s.context target p.config.level) }
    manual }

def Record.variants (rs : List Record) : OrderedMap VariantKey Variant :=
  OrderedMap.ofList (rs.map fun r => (r.key, r.variant))

/-- the sentences about the overrides that fail, in order of the records -/
def Record.failures (rs : List Record) : Except Fault (List String) :=
  (rs.filter fun r => r.manual && !r.variant.evaluation.passed).mapM fun r =>
    describe r.key r.variant

/-- does one of some overrides cover the context of a site? -/
def isManual (os : List (Override Atom Choice)) (s : Site) : Bool :=
  os.any fun o => o.covers s.setting

namespace Pass

def demand (q : Pass) (p : Spec) (e : Engine) : Demand :=
  { engine := e, ramp := q.ramp, default := q.default.index, target := q.target
    level := p.config.level, strategy := p.config.strategy }

/-- the steps of the contexts that do not take the default step -/
def rules (q : Pass) (p : Spec) (e : Engine) : Entries (Setting Atom) Choice :=
  Override.patch ((Rules.auto (q.demand p e) p.sites).map fun r => (r.1, .number r.2))
    q.overrides p.axes

def steps (q : Pass) (p : Spec) (e : Engine) : List (Site × Choice) :=
  let rules := q.rules p e
  p.sites.map fun s => (s, (rules.lookup s.setting).getD q.default)

def records (q : Pass) (p : Spec) (e : Engine) (steps : List (Site × Choice)) : List Record :=
  steps.map fun c =>
    Record.of p e q.token q.vision q.target q.ramp c.1 c.2 (isManual q.overrides c.1)

end Pass

namespace Semantic

def basePass (t : Semantic) : Pass :=
  { token := t.name, ramp := t.ramp, default := t.default
    overrides := t.overrides.map Override.named, target := t.target
    vision := VariantKey.plainVision }

/-- the deficiencies for which the color has colors of its own, with these -/
def ownVision (t : Semantic) : List (Deficiency × VisionEntry) :=
  t.vision.filterMap fun v => (v.1.text?.bind Deficiency.ofName?).map fun m => (m, v.2)

/-- the pass under a deficiency for which the color has colors of its own -/
def visionPass (t : Semantic) (m : Deficiency) (v : VisionEntry) : Pass :=
  { token := t.name, ramp := v.ramp, default := v.default
    overrides := v.overrides.map Override.named, target := t.target, vision := .text m.name }

/-- the step of a state at a site where the color has step `base`, without overrides: moved by as
much as the state is from the default step, the other way on themes that rise toward lighter
steps -/
def shifted (t : Semantic) (i : Interaction) (s : Site) (base : Int) : Int :=
  let delta := i.step.index - t.default.index
  t.ramp.clamp (base + if s.theme.elevation = .lighter then -delta else delta)

/-- the records of a state, given the steps of the color itself -/
def stateRecords (t : Semantic) (p : Spec) (e : Engine) (base : List (Site × Choice))
    (state : Atom) (i : Interaction) : List Record :=
  let rules := Override.patch [] (i.overrides.map Override.named) p.axes
  base.map fun c =>
    let (step, manual) := match rules.lookup c.1.setting with
      | some step => (step, true)
      | none => (.number (t.shifted i c.1 c.2.index), false)
    Record.of p e (.text (Spec.derivedName t.name state)) VariantKey.plainVision t.target t.ramp
      c.1 step manual

/-- the records of a semantic color: its own, those of its states, those under deficiencies -/
def records (t : Semantic) (p : Spec) (e : Engine) : List Record :=
  let base := t.basePass.steps p e
  t.basePass.records p e base ++
  (t.interactions.flatMap fun i => t.stateRecords p e base i.1 i.2) ++
  t.ownVision.flatMap fun v =>
    let q := t.visionPass v.1 v.2
    q.records p e (q.steps p e)

/-- the color without regard to context, of the color and of its states -/
def defaults (t : Semantic) : List (Atom × Hex) :=
  (t.name, t.ramp.color t.default.index) ::
    t.interactions.map fun i =>
      (.text (Spec.derivedName t.name i.1), t.ramp.color i.2.step.index)

/-- the color and the deficiencies for which it has colors of its own -/
def explicit (t : Semantic) : List (Atom × Deficiency) := t.ownVision.map fun v => (t.name, v.1)

end Semantic

namespace Spec

/-- the records of a specification, color by color -/
def records (p : Spec) (e : Engine) : List Record := p.semantics.flatMap fun t => t.2.records p e

def request (p : Spec) (e : Engine) (variants : OrderedMap VariantKey Variant) :
    Correction.Request Float :=
  { color? := fun k => (variants.get? k).map (·.hex)
    semantics := p.semantics
    engine := e
    level := p.config.level
    gauge := Correction.gauge p.config.correction
    explicit := p.semantics.flatMap fun t => t.2.explicit }

def corrections (p : Spec) (e : Engine) (variants : OrderedMap VariantKey Variant) :
    List (VariantKey × Variant) :=
  if p.config.correction.enabled.truthy then Correction.all (p.request e variants) p.sites else []

/-! ## faults of a build -/

/-- names of contexts that are no texts cannot be keys, unless the override has no contexts -/
def checkOverrides (p : Spec) (os : Overrides) : Except Fault Unit :=
  let axes : Axes Document := ⟨p.axes.themes.map Atom.document,
    p.axes.fontSizes.map Atom.document, p.axes.layers.map Atom.document⟩
  os.forM fun o => do
    let _ ← o.keyed axes

/-- an engine has to be able to evaluate, if there is a site -/
def checkEngine (p : Spec) (e : Engine) (target : Target) : Except Fault Unit :=
  match p.sites.head? with
  | some s => e.admits (s.context target p.config.level)
  | none => .ok ()

/-- are all names that the keys of the records of a color are made of texts? -/
def isNamed (p : Spec) (t : Semantic) : Bool :=
  t.name.isText && p.themes.keys.all Atom.isText && p.layers.keys.all Atom.isText

/-- the faults of the records of a color; where a name is no text, the sentences about overrides
that fail have to be tried -/
def checkSemantic (p : Spec) (e : Engine) (t : Semantic) : Except Fault Unit := do
  checkEngine p e t.target
  checkOverrides p t.overrides
  t.interactions.forM fun i => checkOverrides p i.2.overrides
  t.ownVision.forM fun v => checkOverrides p v.2.overrides
  if !p.isNamed t then
    let _ ← Record.failures (t.records p e)

def checkRecords (p : Spec) (e : Engine) : Except Fault Unit :=
  p.semantics.forM fun t => checkSemantic p e t.2

/-! ## the registry -/

/-- the registry of records, with the sentences about those that fail, and of the corrections that
they call for -/
def assemble (p : Spec) (e : Engine) (generatedAt : String) (rs : List Record)
    (failures : List String) : Registry :=
  let base := Record.variants rs
  let variants := base.insertAll (p.corrections e base)
  { ramps := p.ramps
    themes := p.themes
    layers := p.layers
    variants
    defaults := Entries.ofList (p.semantics.flatMap fun t => t.2.defaults)
    info :=
      { generatedAt
        totalVariants := variants.size
        tokenCount := p.semantics.length
        engine := e.id
        level := p.config.level
        inputHash := Fingerprint.ofRamps p.ramps }
    warnings := p.warnings ++ failures }

def build (p : Spec) (e : Engine) (generatedAt : String) : Except Fault Registry := do
  p.checkRecords e
  let rs := p.records e
  let failures ← Record.failures rs
  if p.config.policy.fatal && !failures.isEmpty then throw (.failingOverrides failures)
  return p.assemble e generatedAt rs failures

/-- the registry of a specification with the engine that it names -/
def buildNamed (p : Spec) (engines : Engines) (generatedAt : String) : Except Fault Registry := do
  let e ← engines.find p.config.engine
  p.build e generatedAt

end Spec
end Palette
