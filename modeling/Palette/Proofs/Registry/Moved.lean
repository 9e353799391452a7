import Palette.Proofs.Color.Distance
import Palette.Proofs.Registry.Built
import Palette.Proofs.Registry.Replacement
import Palette.Proofs.Spec.Choices

/-!
# Corrections are sound and replace nothing

A correction adds a variant for a declared color, in a context and under a deficiency for which the
color has no entry, where there is no variant yet. The variant passes there, has another color than
the one without deficiency, and was called for: the color is one of two of its context that are
distinct and collapse under the deficiency. Distinct are colors that are not at most as far apart as
the threshold says. If the threshold is no number, all colors are.

* `Gauge.Collapse`               two distinct colors that look alike;
* `Spec.withCorrection`          the specification with other options for corrections;
* `Spec.Moved`                   what a variant is that corrections add, by any measure;
* `Spec.moved_of_mem_correctionsIn`   every variant that corrections add is such a one;
* `Spec.moved_of_compile`        and options for corrections change nothing else of a build;
* `Crowded`                      two colors that move to one;
* `Boundless`                    a threshold that is no number.
-/

set_option linter.unusedSectionVars false

namespace Palette

/-- two colors that are distinct and look alike -/
structure Gauge.Collapse {α κ : Type} [LT κ] [LE κ] (g : Gauge α κ) (a b : α) : Prop where
  distinct : ¬g.distance a b ≤ g.distinguishable
  alike : g.distance (g.look a) (g.look b) < g.confusion

/-- distances are numbers, so distinct colors are farther apart than a threshold that is one -/
theorem Gauge.Collapse.lt {o : CorrectionOptions} {m : Deficiency} {a b : Hex}
    (h : (Correction.gauge o m).Collapse a b) (hp : Light.Powers Light.raised)
    (ho : o.distinguishable.isNaN = false) : o.distinguishable < Hex.distance a b :=
  Floating.lt_of_not_le (Hex.upright_distance hp a b).isNaN ho h.distinct

namespace Spec

/-- the specification with options for corrections -/
def withCorrection (p : Spec) (o : CorrectionOptions) : Spec :=
  { p with config := { p.config with correction := o } }

/-- what a variant is that corrections add to other ones, for a semantic color at a site under a
deficiency, by some measure -/
structure Moved {κ : Type} [LT κ] [LE κ] (p : Spec) (e : Engine) (gauge : Deficiency → Gauge Hex κ)
    (base : OrderedMap VariantKey Variant) (t : Atom × Semantic) (s : Site) (m : Deficiency)
    (x : VariantKey × Variant) : Prop where
  key : x.1 = ⟨t.1, s.fontSize, s.themeName, s.stack, .text m.name⟩
  /-- the color has no entry for the deficiency -/
  undeclared : ∀ w, (.text m.name, w) ∉ t.2.vision
  absent : base.get? x.1 = none
  ramp : x.2.ramp = t.2.ramp.name
  /-- the step is the first one with the color -/
  step : ∃ i : Nat, x.2.step = .number i ∧ t.2.ramp.colors[i]? = some x.2.hex ∧
    ∀ j < i, t.2.ramp.colors[j]? ≠ some x.2.hex
  evaluation : x.2.evaluation = e.evaluate x.2.hex s.surface.hex
    ⟨FontSize.px s.fontSize, t.2.target, p.config.level⟩
  passed : x.2.evaluation.passed = true
  /-- without deficiency there is another color -/
  other : ∃ v, base.get? ⟨t.1, s.fontSize, s.themeName, s.stack, VariantKey.plainVision⟩ = some v ∧
    x.2.hex ≠ v.hex
  /-- the color is one of two of the context that collapse -/
  collapsed : ∃ a ∈ p.semantics, ∃ b ∈ p.semantics, (a.1 == b.1) = false ∧ (a = t ∨ b = t) ∧
    ∃ v w, base.get? ⟨a.1, s.fontSize, s.themeName, s.stack, VariantKey.plainVision⟩ = some v ∧
      base.get? ⟨b.1, s.fontSize, s.themeName, s.stack, VariantKey.plainVision⟩ = some w ∧
      (gauge m).Collapse v.hex w.hex

section
variable {p : Spec} {e : Engine} {base : OrderedMap VariantKey Variant}
variable {κ : Type} [LT κ] [DecidableLT κ] [LE κ] [DecidableLE κ] [Sub κ] [Mul κ]
variable {gauge : Deficiency → Gauge Hex κ}

/-- a color at a site is that of a declared color, as its variant has it -/
theorem exists_of_mem_scene {s : Site} {c : Atom × Hex}
    (hc : c ∈ Correction.scene (p.requestIn e gauge base).color? p.semantics.keys s) :
    ∃ t v, (c.1, t) ∈ p.semantics ∧
      base.get? ⟨c.1, s.fontSize, s.themeName, s.stack, VariantKey.plainVision⟩ = some v ∧
      v.hex = c.2 := by
  obtain ⟨hk, hcolor⟩ := Correction.mem_scene.1 hc
  obtain ⟨t, ht⟩ := Entries.mem_keys.1 hk
  obtain ⟨v, hv, hx⟩ := Option.map_eq_some_iff.1 hcolor
  exact ⟨t, v, ht, hv, hx⟩

/-- a color that is moved is one of two of its context that collapse -/
theorem Coherent.exists_collapsed (hp : p.Coherent) {m : Deficiency} {s : Site} {c : Atom × Hex}
    (hc : c ∈ Correction.moves (p.requestIn e gauge base) m s) {t : Semantic}
    (ht : (c.1, t) ∈ p.semantics) :
    ∃ a ∈ p.semantics, ∃ b ∈ p.semantics, (a.1 == b.1) = false ∧ (a = (c.1, t) ∨ b = (c.1, t)) ∧
      ∃ v w, base.get? ⟨a.1, s.fontSize, s.themeName, s.stack, VariantKey.plainVision⟩ = some v ∧
        base.get? ⟨b.1, s.fontSize, s.themeName, s.stack, VariantKey.plainVision⟩ = some w ∧
        (gauge m).Collapse v.hex w.hex := by
  obtain ⟨a, ha, b, hb, hne, hac, hconfuses⟩ :=
    Correction.exists_confused_of_mem_moves hp.distinct_semantics hc
  obtain ⟨ta, v, hta, hv, hva⟩ := exists_of_mem_scene ha
  obtain ⟨tb, w, htb, hw, hwb⟩ := exists_of_mem_scene hb
  have hown {k : Atom} {t' : Semantic} (hk : (k, t') ∈ p.semantics) (hkc : k = c.1) :
      (k, t') = (c.1, t) := by
    subst hkc
    have hl := Entries.lookup_of_mem hp.distinct_semantics hk
    rw [Entries.lookup_of_mem hp.distinct_semantics ht] at hl
    rw [Option.some.inj hl]
  obtain ⟨hdistinct, halike⟩ := Gauge.confuses_iff.1 hconfuses
  refine ⟨_, hta, _, htb, hne, ?_, v, w, hv, hw, ?_⟩
  · exact hac.imp (fun h => hown hta (congrArg Prod.fst h)) fun h => hown htb (congrArg Prod.fst h)
  · rw [hva, hwb]
    exact ⟨hdistinct, halike⟩

end

section
variable {p : Spec} {e : Engine} (hn : p.Named) (hp : p.Coherent)
variable {κ : Type} [LT κ] [DecidableLT κ] [LE κ] [DecidableLE κ] [Sub κ] [Mul κ]
variable {gauge : Deficiency → Gauge Hex κ} {x : VariantKey × Variant}
include hn hp

theorem moved_of_mem_correctionsIn
    (hx : x ∈ p.correctionsIn e gauge (Record.variants (p.records e))) :
    ∃ t ∈ p.semantics, ∃ s ∈ p.sites, ∃ m,
      p.Moved e gauge (Record.variants (p.records e)) t s m x := by
  have habsent : (Record.variants (p.records e)).get? x.1 = none := by
    rw [← OrderedMap.lookup_toList]
    exact Entries.lookup_eq_none fun k hk => BEq.symm_false (hn.beq_of_mem_variants hp hx k hk)
  obtain ⟨t, ht, m, hm, s, hs, h, hc, hmove⟩ := exists_move hn hx
  obtain ⟨t', v, ht', hv, hcolor⟩ := exists_of_mem_scene (Correction.mem_scene_of_mem_moves hc)
  obtain ⟨t', best, step, hl, hbest, hstep, rfl⟩ := Correction.exists_replacement_of_move? hmove
  obtain rfl : t.2 = t' :=
    Option.some.inj ((Entries.lookup_of_mem hp.distinct_semantics ht).symm.trans hl)
  obtain ⟨hpassing, hother, _⟩ := Gauge.of_replacement? hbest
  obtain ⟨i, rfl, hfirst⟩ := Ramp.first_of_indexOf? hstep
  refine ⟨t, ht, s, hs, m, ?_⟩
  exact {
    key := rfl
    undeclared := fun w hw => hm (m, w) (Semantic.mem_ownVision.2 hw) rfl
    absent := habsent
    ramp := rfl
    step := ⟨i, rfl, hfirst⟩
    evaluation := rfl
    passed := (Correction.mem_passing.1 hpassing).2
    other := ⟨v, hv, hcolor ▸ hother⟩
    collapsed := hp.exists_collapsed hc ht }

end

/-- the records of a build, and what it tells of them, do not look at corrections -/
theorem exists_build_withCorrection {p : Spec} {e : Engine} {generatedAt : String} {r : Registry}
    (hb : p.build e generatedAt = .ok r) (o : CorrectionOptions) :
    ∃ r', (p.withCorrection o).build e generatedAt = .ok r' ∧ r'.defaults = r.defaults ∧
      r'.warnings = r.warnings := by
  obtain ⟨hcheck, failures, hfailures, hpolicy, rfl⟩ := build_ok.1 hb
  exact ⟨_, build_ok.2 ⟨hcheck, failures, hfailures, hpolicy, rfl⟩, rfl, rfl⟩

/-- Every variant that corrections add is sound and replaces none, by the measure of builds and by
any other, and without corrections there is none. The value may have passed the check or not. Under
other options for corrections a build has the same variants before them, defaults and warnings. -/
theorem moved_of_compile {d : Document} (hd : d.isKeyed = true) {p₀ : Spec}
    (hc : compile d = .ok p₀ ∨ compileUnchecked d = .ok p₀) (l : Level) (o : CorrectionOptions)
    (e : Engine) {κ : Type} [LT κ] [DecidableLT κ] [LE κ] [DecidableLE κ] [Sub κ] [Mul κ]
    (gauge : Deficiency → Gauge Hex κ) :
    let p := (p₀.atLevel l).withCorrection o
    let base := Record.variants (p.records e)
    (∀ x ∈ p.corrections e base, ∃ t ∈ p.semantics, ∃ s ∈ p.sites, ∃ m,
      p.Moved e (Correction.gauge o) base t s m x) ∧
      (∀ x ∈ p.correctionsIn e gauge base, ∃ t ∈ p.semantics, ∃ s ∈ p.sites, ∃ m,
        p.Moved e gauge base t s m x) ∧
      (Light.Powers Light.raised → o.distinguishable.isNaN = false →
        ∀ m a b, (Correction.gauge o m).Collapse a b → o.distinguishable < Hex.distance a b) ∧
      (o.enabled.truthy = false → p.corrections e base = []) ∧
      ∀ {generatedAt r}, p.build e generatedAt = .ok r →
        r.variants.toList = base.toList ++ p.corrections e base ∧
        ∀ o', ∃ r', (p.withCorrection o').build e generatedAt = .ok r' ∧
          r'.variants.toList = base.toList ++ (p.withCorrection o').corrections e base ∧
          r'.defaults = r.defaults ∧ r'.warnings = r.warnings := by
  intro p base
  have hn : p.Named := (named_of_compile_or hc).withConfig _
  have hp : p.Coherent := (coherent_of_compile_or hc hd).withConfig _
  refine ⟨fun x hx => moved_of_mem_correctionsIn hn hp hx,
    fun x hx => moved_of_mem_correctionsIn hn hp hx, fun hpowers ho m a b h => h.lt hpowers ho,
    fun ho => ?_, fun hb => ⟨?_, fun o' => ?_⟩⟩
  · rw [corrections]
    exact if_neg (Bool.eq_false_iff.1 ho)
  · exact hn.toList_variants hp hb
  · obtain ⟨r', hb', hdefaults, hwarnings⟩ := exists_build_withCorrection hb o'
    have hlist := (hn.withConfig _).toList_variants (hp.withConfig _) hb'
    exact ⟨r', hb', hlist, hdefaults, hwarnings⟩

end Spec

/-! ## two colors that move to one

Under a deficiency that does not see green, two colors that differ in green look alike. Each moves
to white, which is far from what the other one looked like.
-/

namespace Crowded
open Outcome

/-- the value -/
def document : Document := .record [
  ("primitives", .record [
    ("gray", .list [.text "#000000", .text "#ffffff"]),
    ("red", .list [.text "#640000", .text "#ffffff"]),
    ("green", .list [.text "#65c000", .text "#ffffff"]),
    ("bright", .list [.text "#ff0000"])]),
  ("themes", .record [("night", .record [("ramp", .text "gray"), ("step", .int 0)])]),
  ("nonText", .record [
    ("stop", .record [("ramp", .text "red"), ("defaultStep", .int 0), ("decorative", .bool true)]),
    ("go", .record [("ramp", .text "green"), ("defaultStep", .int 0), ("decorative", .bool true)]),
    ("wait", .record [("ramp", .text "bright"), ("defaultStep", .int 0),
      ("decorative", .bool true)])]),
  ("config", .record [("stacks", .record [("root", .int 0)])])]

theorem isKeyed_document : document.isKeyed = true := by decide

/-- the specification -/
def spec : Spec := (Spec.compile document).toOption.get (by decide)

theorem compile_document : Spec.compile document = .ok spec := eq_ok_get _

/-- green is not seen -/
def look (_ : Deficiency) (h : Hex) : Hex := ⟨h.red, 0, h.blue⟩

/-- colors are far apart if they differ in the first bit of a channel -/
def distance (a b : Hex) : Float :=
  if a = b then 0.0
  else if a.red / 128 = b.red / 128 ∧ a.green / 128 = b.green / 128 ∧ a.blue / 128 = b.blue / 128
  then 2.0 else 16.0

theorem unambiguous : spec.Unambiguous :=
  (Spec.names_of_compile isKeyed_document compile_document).1

theorem coherent : spec.Coherent := Spec.coherent_of_compile isKeyed_document compile_document

theorem enabled : spec.config.correction.enabled.truthy = true := by decide

/-- a site -/
def site : Site := spec.sites.head?.get (by decide)

theorem site_mem : site ∈ spec.sites := List.mem_of_head? (Option.some_get _).symm

/-- a color moves to white -/
theorem exists_moved :
    ∃ x ∈ spec.correctionsIn Wcag.engine (spec.gaugeBy look distance)
        (Record.variants (spec.records Wcag.engine)),
      (x.1.token.text? == some "stop" && x.2.hex == ⟨255, 255, 255⟩) = true := by
  refine Spec.exists_correction unambiguous coherent enabled (m := .deuteranopia) site_mem ?_
  decide

end Crowded

/-- one of two colors that move to one: the measure is another one, since powers of floats are not
computed here -/
theorem Spec.moved_of_compile_crowded :
    ∃ r x, Crowded.spec.build Wcag.engine "now" = .ok r ∧
      r.variants.toList = (Record.variants (Crowded.spec.records Wcag.engine)).toList ++
        Crowded.spec.corrections Wcag.engine
          (Record.variants (Crowded.spec.records Wcag.engine)) ∧
      x ∈ Crowded.spec.correctionsIn Wcag.engine
        (Crowded.spec.gaugeBy Crowded.look Crowded.distance)
        (Record.variants (Crowded.spec.records Wcag.engine)) ∧
      x.1.token.text? = some "stop" ∧ x.2.hex = ⟨255, 255, 255⟩ ∧
      ∃ t ∈ Crowded.spec.semantics, ∃ s ∈ Crowded.spec.sites, ∃ m,
        Crowded.spec.Moved Wcag.engine (Crowded.spec.gaugeBy Crowded.look Crowded.distance)
          (Record.variants (Crowded.spec.records Wcag.engine)) t s m x := by
  have hbuild : (Crowded.spec.build Wcag.engine "now").toOption.isSome = true := by
    decide
  have hb := Outcome.eq_ok_get hbuild
  obtain ⟨x, hx, hstop⟩ := Crowded.exists_moved
  rw [Bool.and_eq_true, beq_iff_eq, beq_iff_eq] at hstop
  obtain ⟨_, hmoved, _, _, hlist⟩ := moved_of_compile Crowded.isKeyed_document
    (.inl Crowded.compile_document) Crowded.spec.config.level Crowded.spec.config.correction
    Wcag.engine (Crowded.spec.gaugeBy Crowded.look Crowded.distance)
  exact ⟨_, x, hb, (hlist hb).1, hx, hstop.1, hstop.2, hmoved x hx⟩

/-! ## a threshold that is no number

Two names have black, and a pair is passed over only if it is not farther apart than the threshold.
So where this is no number the two are moved to blue, without two colors that are farther apart. -/

namespace Boundless
open Outcome

/-- the value -/
def document : Document := .record [
  ("primitives", .record [
    ("gray", .list [.text "#000000", .text "#ffffff"]),
    ("dark", .list [.text "#000000", .text "#0000ff"])]),
  ("themes", .record [("night", .record [("ramp", .text "gray"), ("step", .int 0)])]),
  ("nonText", .record [
    ("stop", .record [("ramp", .text "dark"), ("defaultStep", .int 0), ("decorative", .bool true)]),
    ("go", .record [("ramp", .text "dark"), ("defaultStep", .int 0),
      ("decorative", .bool true)])]),
  ("config", .record [
    ("stacks", .record [("root", .int 0)]),
    ("cvd", .record [("distinguishableThresholdDE", .float (0.0 / 0.0))])])]

theorem isKeyed_document : document.isKeyed = true := by decide

/-- the specification -/
def spec : Spec := (Spec.compile document).toOption.get (by decide)

theorem compile_document : Spec.compile document = .ok spec := eq_ok_get _

def black : Hex := ⟨0, 0, 0⟩

def blue : Hex := ⟨0, 0, 255⟩

/-- distances with those of black and blue written out, since powers of floats are not computed
here -/
def distance (a b : Hex) : Float :=
  if a = black ∧ b = black then 0.0
  else if a = black ∧ b = blue ∨ a = blue ∧ b = black then 54.99888943358064
  else Hex.distance a b

/-- the distances written out are those that are measured -/
structure Measured : Prop where
  same : Hex.distance black black = 0.0
  apart : Hex.distance black blue = 54.99888943358064
  back : Hex.distance blue black = 54.99888943358064

theorem Measured.distance_eq (h : Measured) : distance = Hex.distance := by
  funext a b
  rw [distance]
  split
  · next hab => rw [hab.1, hab.2, h.same]
  · split
    · next hab =>
      rcases hab with ⟨rfl, rfl⟩ | ⟨rfl, rfl⟩
      · exact h.apart.symm
      · exact h.back.symm
    · rfl

/-- a site -/
def site : Site := spec.sites.head?.get (by decide)

/-- the colors are looked at as they are seen without green -/
theorem exists_moved :
    ∃ x ∈ spec.correctionsIn Wcag.engine (spec.gaugeBy Hex.simulate distance)
        (Record.variants (spec.records Wcag.engine)),
      (x.1.token.text? == some "stop" && x.2.hex == blue) = true := by
  have hu := (Spec.names_of_compile isKeyed_document compile_document).1
  have hp := Spec.coherent_of_compile isKeyed_document compile_document
  refine Spec.exists_correction hu hp (by decide) (m := .deuteranopia) (s := site)
    (List.mem_of_head? (Option.some_get _).symm) ?_
  decide +kernel

end Boundless

/-- Where the threshold is no number, colors are moved although no two are farther apart than it: by
the distances with those of black and blue written out, and so by the measure of builds, if these
are what it gives. -/
theorem Spec.not_farther_boundless :
    Boundless.document.isKeyed = true ∧ compile Boundless.document = .ok Boundless.spec ∧
      (∀ a b, ¬Boundless.spec.config.correction.distinguishable < Hex.distance a b) ∧
      (∃ x ∈ Boundless.spec.correctionsIn Wcag.engine
          (Boundless.spec.gaugeBy Hex.simulate Boundless.distance)
          (Record.variants (Boundless.spec.records Wcag.engine)),
        x.1.token.text? = some "stop" ∧ x.2.hex = Boundless.blue) ∧
      (Boundless.Measured → ∃ x ∈ Boundless.spec.corrections Wcag.engine
          (Record.variants (Boundless.spec.records Wcag.engine)),
        x.1.token.text? = some "stop" ∧ x.2.hex = Boundless.blue) := by
  have hnan : Boundless.spec.config.correction.distinguishable.isNaN = true := by decide
  obtain ⟨x, hx, hmoved⟩ := Boundless.exists_moved
  rw [Bool.and_eq_true, beq_iff_eq, beq_iff_eq] at hmoved
  refine ⟨Boundless.isKeyed_document, Boundless.compile_document, fun a b h => ?_,
    ⟨x, hx, hmoved⟩, fun hmeasured => ⟨x, ?_, hmoved⟩⟩
  · exact Bool.noConfusion (hnan.symm.trans (Floating.isNaN_of_le (Floating.le_of_lt h)).1)
  · rw [hmeasured.distance_eq] at hx
    exact hx

/-! ## a color of the small specification -/

namespace Sample

/-- the measure by which the two colors that differ in green look alike -/
def gauge : Deficiency → Gauge Hex Float := spec.gaugeBy Crowded.look Crowded.distance

/-- a site -/
def site : Site := spec.sites.head?.get (by decide)

/-- a color moves to the other step of its ramp -/
theorem exists_moved :
    ∃ x ∈ spec.correctionsIn engine gauge (Record.variants (spec.records engine)),
      (x.1.token.text? == some "stop" && x.1.vision.text? == some "deuteranopia" &&
        x.2.hex == ⟨0, 0, 255⟩) = true := by
  have hu := (Spec.names_of_compile isKeyed_document compile_document).1
  have hp := Spec.coherent_of_compile isKeyed_document compile_document
  refine Spec.exists_correction hu hp (by decide) (m := .deuteranopia) (s := site)
    (List.mem_of_head? (Option.some_get _).symm) ?_
  decide

end Sample
end Palette
