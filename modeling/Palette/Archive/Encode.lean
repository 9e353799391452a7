import Palette.Archive.Basic

/-!
# Writing archives

An archive as a document. Every map is written as a list of pairs, which keeps its order, and a
key of five parts as the list of its parts.

* `Archive.version`     the number of the format;
* `Archive.document`    the document of an archive.
-/

namespace Palette

namespace StoredStep

def document (s : StoredStep) : Document :=
  .record [("index", s.index), ("hex", s.hex),
    ("oklch", .record [("l", s.lightness), ("c", s.chroma), ("h", s.hue)]),
    ("relativeLuminance", s.luminance)]

end StoredStep

namespace StoredRamp

def document (r : StoredRamp) : Document :=
  .record [("name", r.name), ("steps", .list (r.steps.map StoredStep.document)),
    ("stepCount", .int r.steps.length)]

end StoredRamp

namespace StoredSurface

def document (u : StoredSurface) : Document :=
  .record [("step", u.step), ("hex", u.hex), ("relativeLuminance", u.luminance)]

end StoredSurface

namespace Archive

/-- the number of the format -/
def version : Int := 2

/-- the pairs of a map -/
def pairs {α : Type} (f : α → Document) (m : Entries Atom α) : Document :=
  .list (m.map fun e => .list [e.1.document, f e.2])

end Archive

namespace StoredTheme

def document (t : StoredTheme) : Document :=
  .record [("name", t.name), ("ramp", t.ramp), ("step", t.step), ("hex", t.hex),
    ("relativeLuminance", t.luminance), ("fallback", .list t.fallback),
    ("aliases", .list t.aliases), ("elevationDirection", t.elevation),
    ("surfaces", Archive.pairs StoredSurface.document t.surfaces)]

end StoredTheme

namespace StoredEvaluation

/-- the members of an evaluation; what is not there is not written -/
def members (v : StoredEvaluation) : List (String × Document) :=
  [("pass", .bool v.passed), ("metric", .text v.metric), ("value", .float v.value)] ++
    (v.required.map fun d => ("required", d)).toList ++
    (v.polarity.map fun d => ("polarity", d)).toList

def document (v : StoredEvaluation) : Document := .record v.members

end StoredEvaluation

namespace VariantKey

def document (k : VariantKey) : Document := .list (k.parts.map Atom.document)

end VariantKey

namespace StoredVariant

def document (v : StoredVariant) : Document :=
  .record [("ramp", v.ramp), ("step", v.step), ("hex", v.hex),
    ("compliance", v.evaluation.document)]

end StoredVariant

namespace StoredMeta

def document (i : StoredMeta) : Document :=
  .record [("generatedAt", i.generatedAt), ("totalVariants", i.totalVariants),
    ("tokenCount", i.tokenCount), ("complianceEngine", i.engine), ("wcagTarget", i.level),
    ("inputHash", i.inputHash)]

end StoredMeta

namespace Archive

/-- the document of an archive -/
def document (a : Archive) : Document :=
  .record [("version", .int version), ("meta", a.info.document),
    ("ramps", pairs StoredRamp.document a.ramps),
    ("themes", pairs StoredTheme.document a.themes),
    ("themeFallbacks", pairs .list a.fallbacks),
    ("stacks", pairs id a.layers),
    ("variantMap", .list (a.variants.toList.map fun e => .list [e.1.document, e.2.document])),
    ("defaults", pairs id a.defaults),
    ("warnings", .list a.warnings)]

end Archive
end Palette
