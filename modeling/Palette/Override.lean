import Palette.Document.Access

/-!
# Manual steps

Contexts are pairs of a place and a size: theme, font size and stack. An override sets the step of
all contexts that its filters admit; a filter that is not given admits every name on its axis.

* `Setting`            a context;
* `Override`           a step with three filters, over any kind of names and steps;
* `Override.specificity`   how many filters are given;
* `Override.expand`    the contexts of an override with its step;
* `Override.ranked`    a row of overrides by specificity, then by position;
* `Override.patch`     rules overwritten by a row of overrides in that order;
* `Override.ofDocument`   the override that a map describes.
-/

namespace Palette

structure Setting (ν : Type) where
  theme : ν
  fontSize : ν
  stack : ν
  deriving DecidableEq, Hashable, Repr

namespace Setting
variable {ν : Type}

instance [BEq ν] : BEq (Setting ν) :=
  ⟨fun a b => a.theme == b.theme && a.fontSize == b.fontSize && a.stack == b.stack⟩

theorem beq_iff [BEq ν] (a b : Setting ν) :
    (a == b) = true ↔
      (a.theme == b.theme) = true ∧ (a.fontSize == b.fontSize) = true ∧
        (a.stack == b.stack) = true := by
  show (a.theme == b.theme && a.fontSize == b.fontSize && a.stack == b.stack) = true ↔ _
  simp [and_assoc]

instance [BEq ν] [EquivBEq ν] : EquivBEq (Setting ν) where
  rfl := (beq_iff _ _).2 ⟨BEq.rfl, BEq.rfl, BEq.rfl⟩
  symm h := by
    obtain ⟨a, b, c⟩ := (beq_iff _ _).1 h
    exact (beq_iff _ _).2 ⟨BEq.symm a, BEq.symm b, BEq.symm c⟩
  trans h h' := by
    obtain ⟨a, b, c⟩ := (beq_iff _ _).1 h
    obtain ⟨a', b', c'⟩ := (beq_iff _ _).1 h'
    exact (beq_iff _ _).2 ⟨BEq.trans a a', BEq.trans b b', BEq.trans c c'⟩

instance [BEq ν] [LawfulBEq ν] : LawfulBEq (Setting ν) where
  eq_of_beq {a b} h := by
    obtain ⟨x, y, z⟩ := (beq_iff a b).1 h
    cases a; cases b
    simp_all
  rfl := (beq_iff _ _).2 ⟨BEq.rfl, BEq.rfl, BEq.rfl⟩

end Setting

/-- the axes of contexts: all themes, font sizes and stacks -/
structure Axes (ν : Type) where
  themes : List ν
  fontSizes : List ν
  layers : List ν

/-- a step for the contexts that three filters admit -/
structure Override (ν σ : Type) where
  step : σ
  themes : Option (List ν)
  fontSizes : Option (List ν)
  layers : Option (List ν)
  deriving Inhabited

namespace Override
variable {ν σ : Type}

def specificity (o : Override ν σ) : Nat :=
  o.themes.isSome.toNat + o.fontSizes.isSome.toNat + o.layers.isSome.toNat

/-- the contexts of an override with its step -/
def expand (o : Override ν σ) (axes : Axes ν) : List (Setting ν × σ) :=
  (o.themes.getD axes.themes).flatMap fun t =>
    (o.fontSizes.getD axes.fontSizes).flatMap fun f =>
      (o.layers.getD axes.layers).map fun s => (⟨t, f, s⟩, o.step)

/-- the overrides with a given number of filters, in order, for each number from none to three -/
def ranked (os : List (Override ν σ)) : List (Override ν σ) :=
  [0, 1, 2, 3].flatMap fun k => os.filter fun o => o.specificity == k

/-- rules overwritten by overrides, the more specific and then the later ones last -/
def patch [BEq ν] (rules : List (Setting ν × σ)) (os : List (Override ν σ)) (axes : Axes ν) :
    Entries (Setting ν) σ :=
  Entries.putAll (Entries.ofList rules) ((ranked os).flatMap fun o => o.expand axes)

def admits [BEq ν] (filter : Option (List ν)) (name : ν) : Bool :=
  match filter with
  | some names => names.contains name
  | none => true

def covers [BEq ν] (o : Override ν σ) (s : Setting ν) : Bool :=
  admits o.themes s.theme && admits o.fontSizes s.fontSize && admits o.layers s.stack

/-! ## overrides in documents -/

/-- a filter: missing, one name, or several -/
def filterOf : Option Document → Except Fault (Option (List Document))
  | none => .ok none
  | some .null => .ok none
  | some (.text s) => .ok (some [.text s])
  | some d => do return some (← d.elements)

def ofDocument (d : Document) : Except Fault (Override Document Document) := do
  let step ← d.need "step"
  let themes ← filterOf (← d.get "bg")
  let fontSizes ← filterOf (← d.get "fontSize")
  let layers ← filterOf (← d.get "stack")
  return { step, themes, fontSizes, layers }

/-- the same override with other names and another step -/
def mapNames {μ τ : Type} (f : List ν → List μ) (step : τ) (o : Override ν σ) : Override μ τ :=
  { step, themes := o.themes.map f, fontSizes := o.fontSizes.map f, layers := o.layers.map f }

/-- the override with keys for names: what cannot be a key admits no context -/
def named (o : Override Document σ) : Override Atom σ :=
  o.mapNames (fun names => names.filterMap Document.atom?) o.step

/-- the override with keys for names. A name that cannot be a key is refused, unless the override
has no context at all. -/
def keyed (axes : Axes Document) (o : Override Document σ) : Except Fault (Override Atom σ) :=
  if (o.expand axes).isEmpty then
    .ok { step := o.step, themes := some [], fontSizes := some [], layers := some [] }
  else do
    let part (filter : Option (List Document)) : Except Fault (Option (List Atom)) :=
      match filter with
      | none => .ok none
      | some names => do return some (← names.mapM Document.asKey)
    let themes ← part o.themes
    let fontSizes ← part o.fontSizes
    let layers ← part o.layers
    return { step := o.step, themes, fontSizes, layers }

theorem patch_nil [BEq ν] (rules : List (Setting ν × σ)) (axes : Axes ν) :
    patch rules [] axes = Entries.ofList rules := rfl

end Override
end Palette
