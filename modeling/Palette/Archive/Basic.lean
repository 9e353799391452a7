import Palette.Registry.Build

/-!
# Archives

A registry as it is stored. Nothing is known about the values of a stored registry but that keys
can be keys: a file may have been edited by hand, and what it holds is kept as it is.

* `StoredVariant`, `StoredTheme`, ...   the parts;
* `Archive`            the whole;
* `Registry.archive`   the stored form of a registry.
-/

namespace Palette

structure StoredStep where
  index : Document
  hex : Document
  lightness : Document
  chroma : Document
  hue : Document
  luminance : Document

structure StoredRamp where
  name : Document
  steps : List StoredStep

structure StoredSurface where
  step : Document
  hex : Document
  luminance : Document

structure StoredTheme where
  name : Document
  ramp : Document
  step : Document
  hex : Document
  luminance : Document
  fallback : List Document
  aliases : List Document
  elevation : Document
  surfaces : Entries Atom StoredSurface

structure StoredEvaluation where
  passed : Bool
  metric : String
  value : Float
  required : Option Document
  polarity : Option Document

structure StoredVariant where
  ramp : Document
  step : Document
  hex : Document
  evaluation : StoredEvaluation

structure StoredMeta where
  generatedAt : Document
  totalVariants : Document
  tokenCount : Document
  engine : Document
  level : Document
  inputHash : Document

structure Archive where
  ramps : Entries Atom StoredRamp
  themes : Entries Atom StoredTheme
  fallbacks : Entries Atom (List Document)
  layers : Entries Atom Document
  variants : OrderedMap VariantKey StoredVariant
  defaults : Entries Atom Document
  info : StoredMeta
  warnings : List Document

/-! ## the stored form of a registry -/

namespace Archive

def mapped {α β : Type} (f : α → β) (m : Entries Atom α) : Entries Atom β :=
  m.map fun e => (e.1, f e.2)

end Archive

namespace Step

def stored (s : Step) : StoredStep :=
  { index := .int s.index, hex := s.hex.document, lightness := .float s.oklch.lightness
    chroma := .float s.oklch.chroma, hue := .float s.oklch.hue, luminance := .float s.luminance }

end Step

namespace Ramp

def stored (r : Ramp) : StoredRamp := { name := r.name.document, steps := r.steps.map Step.stored }

end Ramp

namespace Surface

def stored (u : Surface) : StoredSurface :=
  { step := .int u.step, hex := u.hex.document, luminance := .float u.hex.luminance }

end Surface

namespace Theme

def stored (t : Theme) : StoredTheme :=
  { name := t.name.document, ramp := t.ramp.document, step := t.step.document
    hex := t.hex.document
    luminance := .float t.hex.luminance, fallback := t.fallback, aliases := t.aliases
    elevation := .text t.elevation.name, surfaces := Archive.mapped Surface.stored t.surfaces }

end Theme

namespace Evaluation

def stored (v : Evaluation) : StoredEvaluation :=
  { passed := v.passed, metric := v.metric, value := v.value
    required := v.required.map .float, polarity := v.polarity.map fun p => .text p.name }

end Evaluation

namespace Variant

def stored (v : Variant) : StoredVariant :=
  { ramp := v.ramp.document, step := v.step.document, hex := v.hex.document
    evaluation := v.evaluation.stored }

end Variant

namespace Meta

def stored (i : Meta) : StoredMeta :=
  { generatedAt := .text i.generatedAt, totalVariants := .int i.totalVariants
    tokenCount := .int i.tokenCount, engine := .text i.engine, level := i.level.document
    inputHash := .text i.inputHash }

end Meta

namespace Registry

/-- the stored form of a registry -/
def archive (r : Registry) : Archive :=
  { ramps := Archive.mapped Ramp.stored r.ramps
    themes := Archive.mapped Theme.stored r.themes
    fallbacks := Archive.mapped Theme.fallback r.themes
    layers := Archive.mapped Document.int r.layers
    variants := OrderedMap.ofList (r.variants.toList.map fun e => (e.1, e.2.stored))
    defaults := Archive.mapped Hex.document r.defaults
    info := r.info.stored
    warnings := r.warnings.map .text }

end Registry
end Palette
