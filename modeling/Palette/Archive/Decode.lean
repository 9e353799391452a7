import Palette.Archive.Encode

/-!
# Reading archives

The archive that a document holds. Members have to be there, lists have to be lists and keys
have to be keys; other values are taken as they are. A key of four parts belongs to the vision
without deficiency.

* `Archive.ofDocument`   the archive, or why there is none;
* `Archive.parts`        the same without the check of the version, with the plain faults.
-/

namespace Palette

namespace StoredStep

def ofDocument (d : Document) : Except Fault StoredStep := do
  let index ← d.need "index"
  let hex ← d.need "hex"
  let lightness ← (← d.need "oklch").need "l"
  let chroma ← (← d.need "oklch").need "c"
  let hue ← (← d.need "oklch").need "h"
  let luminance ← d.need "relativeLuminance"
  return { index, hex, lightness, chroma, hue, luminance }

end StoredStep

namespace StoredRamp

def ofDocument (d : Document) : Except Fault StoredRamp := do
  let steps ← (← (← d.need "steps").elements).mapM StoredStep.ofDocument
  let name ← d.need "name"
  return { name, steps }

end StoredRamp

namespace StoredSurface

def ofDocument (d : Document) : Except Fault StoredSurface := do
  let step ← d.need "step"
  let hex ← d.need "hex"
  let luminance ← d.need "relativeLuminance"
  return { step, hex, luminance }

end StoredSurface

namespace Archive

/-- the map that a list of pairs holds -/
def entriesOf {α : Type} (f : Document → Except Fault α) (d : Document) :
    Except Fault (Entries Atom α) := do
  let writes ← (← d.elements).mapM fun p => do
    let (k, v) ← p.pair
    let v ← f v
    return (← k.asKey, v)
  return Entries.ofList writes

end Archive

namespace StoredTheme

def ofDocument (d : Document) : Except Fault StoredTheme := do
  let surfaces ← Archive.entriesOf StoredSurface.ofDocument (← d.need "surfaces")
  let name ← d.need "name"
  let ramp ← d.need "ramp"
  let step ← d.need "step"
  let hex ← d.need "hex"
  let luminance ← d.need "relativeLuminance"
  let fallback ← Document.elementsOf (← d.get "fallback")
  let aliases ← Document.elementsOf (← d.get "aliases")
  let elevation ← d.need "elevationDirection"
  return { name, ramp, step, hex, luminance, fallback, aliases, elevation, surfaces }

end StoredTheme

namespace StoredEvaluation

/-- a member that may be missing or null -/
def present (d : Document) (name : String) : Except Fault (Option Document) := do
  return (← d.get name).filter fun v => !v.isNull

def ofDocument (d : Document) : Except Fault StoredEvaluation := do
  let passed ← d.need "pass"
  let metric ← d.need "metric"
  let value ← (← d.need "value").number
  let required ← present d "required"
  let polarity ← present d "polarity"
  return { passed := passed.truthy, metric := metric.shown, value, required, polarity }

end StoredEvaluation

namespace VariantKey

/-- the key with four or five parts -/
def ofParts : List Document → Except Fault (Document × Document × Document × Document × Document)
  | [a, b, c, d] => .ok (a, b, c, d, plainVision.document)
  | [a, b, c, d, e] => .ok (a, b, c, d, e)
  | parts => .error (.wrongKind (.keyParts parts.length))

/-- the key with five parts that can be keys -/
def ofFive : Document × Document × Document × Document × Document → Except Fault VariantKey
  | (a, b, c, d, e) => do
    return ⟨← a.asKey, ← b.asKey, ← c.asKey, ← d.asKey, ← e.asKey⟩

end VariantKey

namespace StoredVariant

def ofDocument (d : Document) : Except Fault StoredVariant := do
  let ramp ← d.need "ramp"
  let step ← d.need "step"
  let hex ← d.need "hex"
  let evaluation ← StoredEvaluation.ofDocument (← d.need "compliance")
  return { ramp, step, hex, evaluation }

end StoredVariant

namespace StoredMeta

def ofDocument (d : Document) : Except Fault StoredMeta := do
  let generatedAt ← d.need "generatedAt"
  let totalVariants ← d.need "totalVariants"
  let tokenCount ← d.need "tokenCount"
  let engine ← d.need "complianceEngine"
  let level ← d.need "wcagTarget"
  let inputHash ← d.need "inputHash"
  return { generatedAt, totalVariants, tokenCount, engine, level, inputHash }

end StoredMeta

namespace Archive

/-- a variant with its key -/
def variantOf (d : Document) : Except Fault (VariantKey × StoredVariant) := do
  let (k, v) ← d.pair
  let five ← VariantKey.ofParts (← k.elements.mapError fun _ => .wrongKind (.parts k))
  let v ← StoredVariant.ofDocument v
  return (← VariantKey.ofFive five, v)

/-- the archive that a map holds -/
def parts (d : Document) : Except Fault Archive := do
  let variants ← (← (← d.need "variantMap").elements).mapM variantOf
  let ramps ← entriesOf StoredRamp.ofDocument (← d.need "ramps")
  let themes ← entriesOf StoredTheme.ofDocument (← d.need "themes")
  let fallbacks ← entriesOf Document.elements (← d.need "themeFallbacks")
  let layers ← entriesOf .ok (← d.need "stacks")
  let defaults ← (← d.need "defaults").dictionary
  let info ← StoredMeta.ofDocument (← d.need "meta")
  let warnings ← Document.elementsOf (← d.get "warnings")
  return { ramps, themes, fallbacks, layers, variants := OrderedMap.ofList variants, defaults
           info, warnings }

/-- what a fault inside a document says about the document -/
def malformed : Fault → Fault
  | .noMember name => .registryMember name
  | .wrongKind why => .registryShape (.wrongKind why)
  | .unreadable why => .registryShape (.unreadable why)
  | f => f

/-- the archive that a document holds -/
def ofDocument (d : Document) : Except Fault Archive := do
  let found := (← d.get "version").getD .null
  if !found.same (.int version) then throw (.registryVersion found)
  (parts d).mapError malformed

end Archive
end Palette
