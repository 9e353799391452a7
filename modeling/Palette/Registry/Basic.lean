import Palette.Contrast.Basic
import Palette.OrderedMap
import Palette.Rule

/-!
# Registries

The outcome of a build: for each color and context one step with its evaluation.

* `VariantKey`   color, font size, theme, stack and vision;
* `Variant`      ramp, step, color and evaluation;
* `describe`     the sentence about a variant that fails, whose key has to be made of texts;
* `Registry`     the variants with all that is needed to read them.
-/

namespace Palette

/-- which variant -/
structure VariantKey where
  token : Atom
  fontSize : Atom
  theme : Atom
  stack : Atom
  vision : Atom
  deriving Inhabited

namespace VariantKey

def normal (k : VariantKey) : Key × Key × Key × Key × Key :=
  (k.token.key, k.fontSize.key, k.theme.key, k.stack.key, k.vision.key)

instance : BEq VariantKey := ⟨fun a b => a.normal == b.normal⟩

instance : Hashable VariantKey := ⟨fun a => hash a.normal⟩

theorem beq_iff (a b : VariantKey) : (a == b) = true ↔ a.normal = b.normal := by
  show (a.normal == b.normal) = true ↔ _
  simp

instance : EquivBEq VariantKey where
  rfl := (beq_iff _ _).2 rfl
  symm h := (beq_iff _ _).2 ((beq_iff _ _).1 h).symm
  trans h h' := (beq_iff _ _).2 (((beq_iff _ _).1 h).trans ((beq_iff _ _).1 h'))

instance : LawfulHashable VariantKey where
  hash_eq a b h := by
    show hash a.normal = hash b.normal
    rw [(beq_iff a b).1 h]

/-- the word for the vision of an eye without deficiency -/
def plainWord : String := "default"

def plainVision : Atom := .text plainWord

def atSite (token vision : Atom) (s : Site) : VariantKey :=
  ⟨token, s.fontSize, s.themeName, s.stack, vision⟩

def parts (k : VariantKey) : List Atom := [k.token, k.fontSize, k.theme, k.stack, k.vision]

/-- the parts of a key as one word, if all of them are texts -/
def text (k : VariantKey) : Except Fault String :=
  match k.parts.mapM Atom.text? with
  | some words => .ok ("__".intercalate words)
  | none => .error .wrongKind

end VariantKey

structure Variant where
  ramp : Atom
  step : Choice
  hex : Hex
  evaluation : Evaluation
  deriving Inhabited

def failureText (key : String) (value : Float) (required metric : String) : String :=
  s!"Variant {key}: contrast {Decimal.fixed 2 value} < required {required} ({metric})"

/-- the sentence about a variant that fails -/
def describe (k : VariantKey) (v : Variant) : Except Fault String := do
  let required := match v.evaluation.required with
    | some x => Decimal.general x
    | none => "?"
  return failureText (← k.text) v.evaluation.value required v.evaluation.metric

structure Meta where
  generatedAt : String
  totalVariants : Nat
  tokenCount : Nat
  engine : String
  level : Level
  inputHash : String

structure Registry where
  ramps : Ramps
  themes : Entries Atom Theme
  layers : Stacks
  variants : OrderedMap VariantKey Variant
  defaults : Entries Atom Hex
  info : Meta
  warnings : List String

end Palette
