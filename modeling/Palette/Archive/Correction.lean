import Palette.Archive.Basic

/-!
# Correcting archives

The corrections for an archive whose colors may have been edited, under the semantic colors,
themes and options of a specification.

* `Archive.request`       what the correction starts from: the stored colors that are colors;
* `Archive.checkColors`   the first stored color at a site that is none, where at least two colors
                          are to be compared;
* `Archive.corrections`   the variants that the correction adds.
-/

namespace Palette

/-- what a correction of an archive depends on besides the archive and the specification -/
structure Repair where
  engine : Engine
  level : Level
  fontSizes : List Atom
  layers : List Atom
  explicit : List (Atom × Deficiency)

namespace Archive

def stored? (a : Archive) (k : VariantKey) : Option Document :=
  (a.variants.get? k).map (·.hex)

def storedScene (a : Archive) (names : List Atom) (s : Site) : List Document :=
  names.filterMap fun n => a.stored? (VariantKey.atSite n VariantKey.plainVision s)

/-- what the correction starts from -/
def request (a : Archive) (p : Spec) (r : Repair) : Correction.Request Float :=
  { color? := fun k => (a.stored? k).bind fun d => (Hex.ofDocument d).toOption
    semantics := p.semantics
    engine := r.engine
    level := r.level
    gauge := Correction.gauge p.config.correction
    explicit := r.explicit }

/-- where at least two colors are compared, each has to be a color -/
def checkColors (a : Archive) (p : Spec) (s : Site) : Except Fault Unit := do
  let colors := a.storedScene p.semantics.keys s
  if 2 ≤ colors.length then
    colors.forM fun d => do
      let _ ← Hex.ofDocument d

/-- the variants that the correction adds -/
def corrections (a : Archive) (p : Spec) (r : Repair) :
    Except Fault (OrderedMap VariantKey Variant) := do
  if !p.config.correction.enabled.truthy then return OrderedMap.empty
  let q := a.request p r
  let sites := Site.list p.themes r.layers r.fontSizes
  Correction.check q (a.checkColors p) sites
  return OrderedMap.ofList (Correction.all q sites)

end Archive
end Palette
