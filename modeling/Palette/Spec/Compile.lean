import Palette.Spec.Check

/-!
# Compiling specifications

From a value to a specification, in order: ramps, stacks, themes, semantic colors, configuration.
The first fault ends the compilation.

* `Spec.compile`        with the check of the whole value first, `Spec.compileUnchecked` without it;
* `Semantic.ofDocument` a semantic color,
* `Config.ofDocument`   the configuration.
-/

namespace Palette

namespace Override

/-- the overrides of a list, each with a step of the ramp -/
def listOf (r : Ramp) (owner : String) (d : Option Document) : Except Fault Overrides := do
  let items ← Document.elementsOf d
  items.zipIdx.mapM fun e => do
    let o ← ofDocument e.1
    let step ← r.require s!"{owner} override[{e.2}]" (some o.step)
    return { o with step }

end Override

namespace Interaction

def ofDocument (r : Ramp) (owner : String) (d : Document) : Except Fault Interaction := do
  let step ← r.require owner (← d.get "step")
  let overrides ← Override.listOf r owner (← d.get "overrides")
  return { step, overrides }

end Interaction

namespace VisionEntry

/-- the entry that a map describes; ramp and step are those of the color if it gives none -/
def ofDocument (ramps : Ramps) (r : Ramp) (default : Choice) (owner : String) (d : Document) :
    Except Fault VisionEntry := do
  let ramp ← ramps.require owner (some ((← d.get "ramp").getD r.name.document))
  let step ← ramp.require owner (some ((← d.get "defaultStep").getD default.document))
  let overrides ← Override.listOf ramp owner (← d.get "overrides")
  return { ramp, default := step, overrides }

end VisionEntry

namespace Semantic

def ofDocument (ramps : Ramps) (target : Target) (name : Atom) (d : Document) :
    Except Fault Semantic := do
  let owner := s!"Semantic \"{name.shown}\""
  let ramp ← ramps.require owner (← d.get "ramp")
  let default ← ramp.require owner (← d.get "defaultStep")
  let interactions ← (← Document.entriesOf (← d.get "interactions")).mapM fun e => do
    return (e.1, ← Interaction.ofDocument ramp s!"{owner} interaction \"{e.1.shown}\"" e.2)
  let vision ← (← Document.entriesOf (← d.get "vision")).mapM fun e => do
    return (e.1, ← VisionEntry.ofDocument ramps ramp default s!"{owner} vision \"{e.1.shown}\"" e.2)
  let decorative := ((← d.get "decorative").getD .null).truthy
  let overrides ← Override.listOf ramp owner (← d.get "overrides")
  return { name, ramp, default, target := if decorative then .decorative else target
           overrides, interactions, vision }

end Semantic

namespace CorrectionOptions

def ofMembers (members : Entries Atom Document) : Except Fault CorrectionOptions := do
  let get (name : String) (usual : Document) := (members.lookup (.text name)).getD usual
  let confusion ← (get "confusionThresholdDE" (.float usualConfusion)).number
  let distinguishable ← (get "distinguishableThresholdDE" (.float usualDistinguishable)).number
  return { enabled := get "enabled" (.bool true), confusion, distinguishable }

end CorrectionOptions

namespace Config

/-- the theme that is the default where none is given: the first one -/
def firstTheme (themes : List Atom) : Document := (themes.head?.getD (.text "")).document

def ofMembers (members : Entries Atom Document) (themes : List Atom) :
    Except Fault Config := do
  let get (name : String) (usual : Document) := (members.lookup (.text name)).getD usual
  let theme := get "defaultTheme" .null
  let correction ← CorrectionOptions.ofMembers (← Document.entriesOf (members.lookup (.text "cvd")))
  return {
    level := Level.ofDocument (get "wcagTarget" (.text "AA"))
    engine := get "complianceEngine" (.text "wcag21")
    defaultTheme := if theme.truthy then theme else firstTheme themes
    strategy := Strategy.ofDocument (get "stepSelectionStrategy" (.text "closest"))
    policy := Policy.ofDocument (get "onUnresolvedOverride" (.text "warn"))
    correction }

end Config

namespace Spec

def rampsOf (d : Option Document) : Except Fault Ramps := do
  (← Document.entriesOf d).mapM fun e => do
    return (e.1, ← Ramp.ofDocument e.1 e.2)

def themesOf (ramps : Ramps) (layers : Stacks) (d : Option Document) :
    Except Fault (Entries Atom Theme) := do
  (← Document.entriesOf d).mapM fun e => do
    return (e.1, ← Theme.ofDocument e.1 e.2 ramps layers)

def sectionOf (ramps : Ramps) (target : Target) (d : Option Document) :
    Except Fault (List (Atom × Semantic)) := do
  (← Document.entriesOf d).mapM fun e => do
    return (e.1, ← Semantic.ofDocument ramps target e.1 e.2)

/-- ramps whose luminance turns back -/
def rampWarnings (ramps : Ramps) : List String :=
  (ramps.filter fun e => !e.2.isMonotonic).map fun e =>
    s!"Ramp \"{e.1.shown}\" luminance is not monotonically ordered"

def themeWarnings (themes : Entries Atom Theme) : List String :=
  if themes.isEmpty then ["No themes defined; default theme will be an empty string"] else []

/-- the specification that a value describes, without a check of the whole -/
def compileUnchecked (d : Document) : Except Fault Spec := do
  let ramps ← rampsOf (← d.get "primitives")
  let config ← Document.entriesOf (← d.get "config")
  let layers ← Stacks.ofDocument (config.lookup (.text "stacks"))
  let themes ← themesOf ramps layers (← d.get "themes")
  let texts ← sectionOf ramps .text (← d.get "foreground")
  let parts ← sectionOf ramps .uiComponent (← d.get "nonText")
  let config ← Config.ofMembers config themes.keys
  return { ramps, layers, themes, semantics := Entries.ofList (texts ++ parts), config
           warnings := rampWarnings ramps ++ themeWarnings themes }

/-- the specification that a value describes, if the value has no problems -/
def compile (d : Document) : Except Fault Spec := do
  requireValid d
  compileUnchecked d

end Spec
end Palette
