import Palette.Proofs.Contrast.Graded
import Palette.Proofs.Registry.Compliance
import Palette.Proofs.Registry.Moved
import Palette.Proofs.Registry.Reported
import Palette.Proofs.Registry.Shards

/-!
# What fails without need

A variant fails without need where some color of its ramp passes in its context. Searches and
corrections make no such variant. Two other ways to a step do not look at what passes: an override
gives it, or it is that of a state, which follows the step of its color.

* `Engine.Exempts`            does an engine pass every decorative color?
* `Spec.Avoidable`            does some color of the ramp of a variant pass in its context?
* `Pass.passed_stepAt`        the step of a pass at a site, where no override gives it;
* `Spec.Follows`              a variant of a state that follows that of its color;
* `Spec.traced_of_build`      a variant that fails without need is overridden, or follows its color.
-/

namespace Palette
open Outcome

/-- does an engine pass every decorative color? -/
def Engine.Exempts (e : Engine) : Prop :=
  ∀ h u c, c.target = .decorative → (e.evaluate h u c).passed = true

/-- the engines of this library do -/
theorem Engines.exempts {x : String × Engine} (hx : x ∈ builtin) : x.2.Exempts := by
  intro h u c ht
  rcases List.mem_cons.1 hx with rfl | hx
  · rw [Wcag.measures.exempt ht]
    rfl
  · obtain rfl := List.mem_singleton.1 hx
    rw [Apca.measures.exempt ht]
    rfl

/-! ## steps without a search -/

/-- where no override gives the step of a pass, it passes if some color of the ramp does -/
theorem Pass.passed_stepAt {q : Pass} {p : Spec} {e : Engine} {s : Site} (hq : q.Fits)
    (hp : p.Coherent) (he : e.Exempts) (hs : s ∈ p.sites) (ho : isManual q.overrides s = false)
    {h : Hex} (hh : h ∈ q.ramp.colors)
    (hpass : (e.evaluate h s.surface.hex (s.context q.target p.config.level)).passed = true)
    (manual : Bool) :
    (Record.of p e q.token q.vision q.target q.ramp s (q.stepAt p e s)
      manual).variant.evaluation.passed = true := by
  have hcomplies : q.Complies p e s.theme s.surface s.fontSize _ :=
    complies_stepAt (e := e) hq hp hs
      (fun o hm => by simpa using List.any_eq_false.1 ho o hm) manual
  cases hexempt : q.exempt p s.theme with
  | false => exact (hcomplies.passed hexempt).2 ⟨h, hh, hpass⟩
  | true =>
    have ht : q.target = .decorative := by
      rw [exempt, Bool.and_eq_true] at hexempt
      exact eq_of_beq hexempt.2
    exact he _ _ _ ht

theorem Semantic.track_of_pass {t : Semantic} {q : Pass} (hq : q ∈ t.passes) :
    ⟨q.token, q.vision, q.target, q.ramp⟩ ∈ t.tracks := by
  rcases List.mem_cons.1 hq with rfl | hq
  · exact List.mem_append_left _ List.mem_cons_self
  · obtain ⟨v, hv, rfl⟩ := List.mem_map.1 hq
    exact List.mem_append_right _ (List.mem_map_of_mem hv)

namespace Spec
variable {p : Spec} {e : Engine} {r : Registry} {generatedAt : String}

/-- does some color of the ramp of a variant pass in its context, for the color that it is of? -/
def Avoidable (p : Spec) (e : Engine) (r : Registry) (x : VariantKey × Variant) : Prop :=
  ∃ t ∈ p.semantics, x.1.token ∈ t.2.names ∧ ∃ theme surface ramp,
    r.themes.lookup x.1.theme = some theme ∧ theme.surfaces.lookup x.1.stack = some surface ∧
    r.ramps.lookup x.2.ramp = some ramp ∧ ∃ h ∈ ramp.colors,
      (e.evaluate h surface.hex
        ⟨FontSize.px x.1.fontSize, t.2.target, p.config.level⟩).passed = true

/-- Is a variant that of a state whose step follows that of its color in the same context? The
latter then passes there, or is overridden itself. -/
def Follows (p : Spec) (r : Registry) (x : VariantKey × Variant) : Prop :=
  ∃ t ∈ p.semantics, ∃ i ∈ t.2.interactions, ∃ s ∈ p.sites, ∃ b,
    x.1 = VariantKey.atSite (.text (derivedName t.1 i.1)) VariantKey.plainVision s ∧
    r.variants.get? (VariantKey.atSite t.1 VariantKey.plainVision s) = some b ∧
    x.2.step = .number (t.2.shifted i.2 s b.step.index) ∧
    (b.evaluation.passed = true ∨
      p.isOverridden (VariantKey.atSite t.1 VariantKey.plainVision s) = true)

section
variable (hu : p.Unambiguous) (hp : p.Coherent) {t : Atom × Semantic} (ht : t ∈ p.semantics)
include hu hp ht

/-- what passes in the context of a record is on the ramp of its track, at its site -/
theorem exists_of_avoidable (hramps : r.ramps = p.ramps) (hthemes : r.themes = p.themes)
    {c : Track} (hc : c ∈ t.2.tracks) {s : Site} (hs : s ∈ p.sites) {step : Choice} {manual : Bool}
    {y : Record} (hy : y = Record.of p e c.token c.vision c.target c.ramp s step manual)
    (h : p.Avoidable e r (y.key, y.variant)) :
    ∃ h ∈ c.ramp.colors,
      (e.evaluate h s.surface.hex (s.context c.target p.config.level)).passed = true := by
  obtain rfl := hy
  obtain ⟨t', ht', hn, theme, surface, ramp, htheme, hsurface, hramp, h⟩ := h
  have hbelongs := Semantic.belongs_of_mem_tracks (hp.semantic t ht) hc
  obtain ⟨hmem, _, hl, _⟩ := mem_sites.1 hs
  obtain rfl : t = t' := hu.eq_of_mem_names ht ht' hbelongs.token hn
  rw [hthemes] at htheme
  rw [hramps] at hramp
  obtain rfl : s.theme = theme :=
    Option.some.inj ((Entries.lookup_of_mem hp.distinct_themes hmem).symm.trans htheme)
  obtain rfl : s.surface = surface := Option.some.inj (hl.symm.trans hsurface)
  obtain rfl : c.ramp = ramp := Option.some.inj (hbelongs.ramp.symm.trans hramp)
  rw [hbelongs.target]
  exact h

/-- a record of a pass that fails without need is overridden -/
theorem isOverridden_of_pass (he : e.Exempts) (hramps : r.ramps = p.ramps)
    (hthemes : r.themes = p.themes) {q : Pass} (hq : q ∈ t.2.passes) {y : Record}
    (hy : y ∈ q.records p e (q.steps p e)) (hmem : y ∈ p.records e)
    (hfails : y.variant.evaluation.passed = false)
    (havoidable : p.Avoidable e r (y.key, y.variant)) : p.isOverridden y.key = true := by
  rw [← manual_eq hu hp hmem]
  rw [Pass.records_eq] at hy
  obtain ⟨s, hs, rfl⟩ := List.mem_map.1 hy
  have hfits := (hp.semantic t ht).passes q hq
  obtain ⟨h, hh, hpass⟩ := exists_of_avoidable hu hp ht hramps hthemes
    (Semantic.track_of_pass hq) hs rfl havoidable
  show isManual q.overrides s = true
  by_contra ho
  rw [Bool.not_eq_true] at ho
  have hpassed := Pass.passed_stepAt hfits hp he hs ho hh hpass (isManual q.overrides s)
  exact Bool.noConfusion (hpassed.symm.trans hfails)

end

/-- a record of a state that could pass is overridden, or follows its color -/
theorem follows_of_state (hu : p.Unambiguous) (hp : p.Coherent) (he : e.Exempts)
    (hb : p.build e generatedAt = .ok r) {t : Atom × Semantic} (ht : t ∈ p.semantics)
    {i : Atom × Interaction} (hi : i ∈ t.2.interactions) {y : Record}
    (hy : y ∈ t.2.stateRecords p e (t.2.basePass.steps p e) i.1 i.2) (hmem : y ∈ p.records e)
    (havoidable : p.Avoidable e r (y.key, y.variant)) :
    p.isOverridden y.key = true ∨ p.Follows r (y.key, y.variant) := by
  obtain ⟨name, t⟩ := t
  obtain rfl : t.name = name := hu.named _ ht
  have hbase : t.basePass ∈ t.passes := List.mem_cons_self
  have htrack : ⟨.text (derivedName t.name i.1), VariantKey.plainVision, t.target, t.ramp⟩ ∈
      t.tracks :=
    List.mem_append_left _ (List.mem_map_of_mem (List.mem_cons_of_mem _ (List.mem_map_of_mem hi)))
  have hmanual := manual_eq hu hp hmem
  obtain ⟨s, hs, step, manual, rfl, _, hstep⟩ := Semantic.of_mem_stateRecords hy
  cases manual with
  | true => exact .inl hmanual.symm
  | false =>
    obtain rfl := hstep rfl
    have hrecord := mem_records_of_pass (e := e) ht hbase hs
    have hget := get?_of_record hu hp hb hrecord
    refine .inr ⟨_, ht, i, hi, s, hs, _, rfl, hget, rfl, ?_⟩
    -- the color takes a step that passes, unless an override gives it another one
    obtain ⟨_, failures, _, _, rfl⟩ := build_ok.1 hb
    obtain ⟨h, hh, hpass⟩ := exists_of_avoidable hu hp ht rfl rfl htrack hs rfl havoidable
    cases ho : isManual t.basePass.overrides s with
    | false =>
      have hfits := (hp.semantic _ ht).passes _ hbase
      exact .inl (Pass.passed_stepAt hfits hp he hs ho hh hpass _)
    | true => exact .inr ((manual_eq hu hp hrecord).symm.trans ho)

/-- Under the engines of this library, an audit is about the variants that fail. One that fails
although some color of its ramp passes in its context is overridden there, or it is of a state that
is not, whose step follows that of its color. -/
theorem traced_of_build {d : Document} (hd : d.isKeyed = true) (hc : compile d = .ok p)
    {x : String × Engine} (hx : x ∈ Engines.builtin) (hb : p.build x.2 generatedAt = .ok r) :
    r.archive.audit = (r.variants.toList.filter fun y => !y.2.evaluation.passed).mapM
        (fun y => describe y.1 y.2) ∧
      ∀ y ∈ r.variants.toList, y.2.evaluation.passed = false → p.Avoidable x.2 r y →
        p.isOverridden y.1 = true ∨ p.Follows r y := by
  have hu := (names_of_compile hd hc).1
  have hp := coherent_of_compile hd hc
  have he := Engines.exempts hx
  refine ⟨r.audit_archive, fun y hy hfails havoidable => ?_⟩
  rw [toList_variants_of_build hu hp hb] at hy
  have hthemes : r.themes = p.themes := by
    obtain ⟨_, _, _, _, rfl⟩ := build_ok.1 hb
    rfl
  have hramps : r.ramps = p.ramps := by
    obtain ⟨_, _, _, _, rfl⟩ := build_ok.1 hb
    rfl
  rcases List.mem_append.1 hy with hy | hy
  · obtain ⟨y, hmem, rfl⟩ := List.mem_map.1 hy
    obtain ⟨t, ht, hy⟩ := List.mem_flatMap.1 hmem
    rw [Semantic.records, List.mem_append, List.mem_append] at hy
    rcases hy with (hy | hy) | hy
    · exact .inl (isOverridden_of_pass hu hp ht he hramps hthemes List.mem_cons_self hy hmem hfails
        havoidable)
    · obtain ⟨i, hi, hy⟩ := List.mem_flatMap.1 hy
      exact follows_of_state hu hp he hb ht hi hy hmem havoidable
    · obtain ⟨v, hv, hy⟩ := List.mem_flatMap.1 hy
      exact .inl (isOverridden_of_pass hu hp ht he hramps hthemes
        (List.mem_cons_of_mem _ (List.mem_map_of_mem hv)) hy hmem hfails havoidable)
  -- what corrections add passes
  · obtain ⟨_, _, _, _, _, h⟩ := moved_of_mem_correctionsIn hu.toNamed hp hy
    exact Bool.noConfusion (h.passed.symm.trans hfails)

end Spec

/-! ## a state that leaves the steps that pass

White passes on black. A state one step nearer to black is black on black, and no override says so.
-/

namespace Hovered

/-- the value -/
def document : Document := .record [
  ("primitives", .record [
    ("gray", .list [.text "#000000", .text "#000000", .text "#ffffff"])]),
  ("themes", .record [("night", .record [("ramp", .text "gray"), ("step", .int 0)])]),
  ("foreground", .record [
    ("ink", .record [("ramp", .text "gray"), ("defaultStep", .int 2),
      ("interactions", .record [("hover", .record [("step", .int 1)])])])]),
  ("config", .record [
    ("stacks", .record [("root", .int 0)]),
    ("cvd", .record [("enabled", .bool false)])])]

theorem isKeyed_document : document.isKeyed = true := by decide

/-- the specification -/
def spec : Spec := (Spec.compile document).toOption.get (by decide)

theorem compile_document : Spec.compile document = .ok spec := eq_ok_get _

/-- the registry -/
def registry : Registry := (spec.build Wcag.engine "now").toOption.get (by decide)

theorem build_spec : spec.build Wcag.engine "now" = .ok registry := eq_ok_get _

theorem engine_mem : (Wcag.engine.id, Wcag.engine) ∈ Engines.builtin := List.mem_cons_self

theorem toList_variants : registry.variants.toList = spec.entries Wcag.engine :=
  Spec.toList_variants_of_build (Spec.names_of_compile isKeyed_document compile_document).1
    (Spec.coherent_of_compile isKeyed_document compile_document) build_spec

/-- does a variant of a color fail without need, where nothing overrides it? -/
def failsUnasked (t : Atom × Semantic) (y : VariantKey × Variant) : Bool :=
  !y.2.evaluation.passed && !spec.isOverridden y.1 &&
    match registry.themes.lookup y.1.theme, registry.ramps.lookup y.2.ramp with
    | some theme, some ramp =>
      match theme.surfaces.lookup y.1.stack with
      | some surface => ramp.colors.any fun h => (Wcag.engine.evaluate h surface.hex
          ⟨FontSize.px y.1.fontSize, t.2.target, spec.config.level⟩).passed
      | none => false
    | _, _ => false

theorem exists_failing :
    ∃ y ∈ registry.variants.toList, y.2.evaluation.passed = false ∧
      spec.Avoidable Wcag.engine registry y ∧ spec.isOverridden y.1 = false := by
  have hfails : spec.semantics.any (fun t =>
      (t.2.written spec Wcag.engine).any (failsUnasked t)) = true := by decide +kernel
  obtain ⟨t, ht, hfails⟩ := List.any_eq_true.1 hfails
  obtain ⟨y, hy, hfails⟩ := List.any_eq_true.1 hfails
  rw [failsUnasked, Bool.and_eq_true, Bool.and_eq_true, Bool.not_eq_true',
    Bool.not_eq_true'] at hfails
  obtain ⟨⟨hpassed, ho⟩, h⟩ := hfails
  have hmem : y ∈ registry.variants.toList := by
    rw [toList_variants, Spec.entries, Spec.written_eq]
    exact List.mem_append_left _ (List.mem_flatMap.2 ⟨t, ht, hy⟩)
  have hn : y.1.token ∈ t.2.names :=
    Semantic.token_of_owns (Semantic.owns_of_mem_written (List.mem_map_of_mem hy))
  refine ⟨y, hmem, hpassed, ⟨t, ht, hn, ?_⟩, ho⟩
  split at h
  case h_2 => exact Bool.noConfusion h
  case h_1 theme ramp htheme hramp =>
    split at h
    case h_2 => exact Bool.noConfusion h
    case h_1 surface hsurface =>
      exact ⟨theme, surface, ramp, htheme, hsurface, hramp, List.any_eq_true.1 h⟩

end Hovered

/-- the state that leaves the steps that pass follows its color -/
theorem Spec.traced_of_build_hovered :
    ∃ y ∈ Hovered.registry.variants.toList, y.2.evaluation.passed = false ∧
      Hovered.spec.Follows Hovered.registry y := by
  obtain ⟨y, hy, hfails, havoidable, ho⟩ := Hovered.exists_failing
  obtain ⟨_, htraced⟩ := traced_of_build Hovered.isKeyed_document Hovered.compile_document
    Hovered.engine_mem Hovered.build_spec
  refine ⟨y, hy, hfails, (htraced y hy hfails havoidable).resolve_left ?_⟩
  rw [ho]
  exact Bool.false_ne_true

/-- so not all that fails without need is overridden -/
theorem Spec.not_overridden_hovered :
    Hovered.document.isKeyed = true ∧ compile Hovered.document = .ok Hovered.spec ∧
      (Wcag.engine.id, Wcag.engine) ∈ Engines.builtin ∧
      Hovered.spec.build Wcag.engine "now" = .ok Hovered.registry ∧
      ¬∀ y ∈ Hovered.registry.variants.toList, y.2.evaluation.passed = false →
        Hovered.spec.Avoidable Wcag.engine Hovered.registry y →
          Hovered.spec.isOverridden y.1 = true := by
  refine ⟨Hovered.isKeyed_document, Hovered.compile_document, Hovered.engine_mem,
    Hovered.build_spec, fun h => ?_⟩
  obtain ⟨y, hy, hfails, havoidable, ho⟩ := Hovered.exists_failing
  exact Bool.noConfusion (ho.symm.trans (h y hy hfails havoidable))

end Palette
