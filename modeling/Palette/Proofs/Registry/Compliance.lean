import Palette.Proofs.Registry.Built

/-!
# Builds comply where they can

Wherever no override of a pass interferes, the step that is recorded passes on the surface if any
step of the ramp passes there, and is the default step of the pass if none does. This holds of any
engine and any ramp: the steps that pass need not be neighbors, nor lie where the engine points.

* `Pass.exempt`       the exception: decorative colors are mirrored without a test;
* `Pass.Complies`     what is recorded for a pass on a surface;
* `Pass.complies_stepAt`   the step of a pass at a site complies;
* `Spec.complies_of_build`   so does what a build returns, for every pass in every context.
-/

namespace Palette

/-- is the color of a pass mirrored on a theme without a test? -/
def Pass.exempt (q : Pass) (p : Spec) (x : Theme) : Bool :=
  p.config.strategy.mirrors && x.elevation == .lighter && q.target == .decorative

/-- what is recorded for a pass on a surface of a theme at a font size -/
structure Pass.Complies (q : Pass) (p : Spec) (e : Engine) (x : Theme) (u : Surface) (f : Atom)
    (v : Variant) : Prop where
  ramp : v.ramp = q.ramp.name
  hex : q.ramp.color? v.step.index = some v.hex
  evaluation : v.evaluation = e.evaluate v.hex u.hex ⟨FontSize.px f, q.target, p.config.level⟩
  /-- a color that is not exempt passes exactly where some color of the ramp does -/
  passed : q.exempt p x = false → (v.evaluation.passed = true ↔ ∃ h ∈ q.ramp.colors,
    (e.evaluate h u.hex ⟨FontSize.px f, q.target, p.config.level⟩).passed = true)
  /-- where none does, it keeps its default step -/
  default : q.exempt p x = false → (∀ h ∈ q.ramp.colors,
    (e.evaluate h u.hex ⟨FontSize.px f, q.target, p.config.level⟩).passed = false) →
      v.step = q.default
  mirrored : q.exempt p x = true → v.step.index = q.ramp.last - q.default.index

namespace Pass
variable {q : Pass} {p : Spec} {e : Engine} {s : Site}

theorem complies_stepAt (hq : q.Fits) (hp : p.Coherent) (hs : s ∈ p.sites)
    (ho : ∀ o ∈ q.overrides, o.covers s.setting = false) (manual : Bool) :
    q.Complies p e s.theme s.surface s.fontSize
      (Record.of p e q.token q.vision q.target q.ramp s (q.stepAt p e s) manual).variant := by
  have hstep := hasStep_stepAt (e := e) (s := s) hq hp
  have hindex := index_stepAt (e := e) hp hs ho
  have hpassed : (Record.of p e q.token q.vision q.target q.ramp s (q.stepAt p e s)
      manual).variant.evaluation.passed =
        q.ramp.passesAt (s.passes e q.target p.config.level) (q.stepAt p e s).index := by
    rw [Ramp.passesAt, hstep]
    rfl
  have hchosen (hx : q.exempt p s.theme = false) :=
    Ramp.passesAt_getD_chosen? (s.passes e q.target p.config.level) (s.direction e) hq.default hx
  exact {
    ramp := rfl
    hex := Ramp.color?_eq_some_of_hasStep q.ramp _ hstep
    evaluation := rfl
    passed := fun hx => by
      rw [hpassed, hindex]
      exact (hchosen hx).1.trans Ramp.exists_passesAt
    default := fun hx hn => by
      refine stepAt_eq_default hp hs ho ((hchosen hx).2 fun i => ?_)
      rw [← Bool.not_eq_true]
      intro hi
      obtain ⟨h, hm, hpass⟩ := Ramp.exists_passesAt.1 ⟨i, hi⟩
      exact Bool.noConfusion (hpass.symm.trans (hn h hm))
    mirrored := fun hx => by
      have hm : s.mirrored p.config.strategy = true ∧ (q.target == .decorative) = true := by
        rw [← Bool.and_eq_true]
        exact hx
      show (q.stepAt p e s).index = _
      rw [hindex]
      show (q.ramp.chosen? _ q.default.index (s.mirrored p.config.strategy)
        (q.target == .decorative) _).getD _ = _
      rw [hm.1, hm.2, Ramp.chosen?_mirrored]
      rfl }

end Pass

theorem Semantic.mem_records_of_pass {t : Semantic} {p : Spec} {e : Engine} {q : Pass}
    (hq : q ∈ t.passes) {s : Site} (hs : s ∈ p.sites) :
    Record.of p e q.token q.vision q.target q.ramp s (q.stepAt p e s) (isManual q.overrides s) ∈
      t.records p e := by
  have hrow : Record.of p e q.token q.vision q.target q.ramp s (q.stepAt p e s)
      (isManual q.overrides s) ∈ q.records p e (q.steps p e) := by
    rw [Pass.records_eq]
    exact List.mem_map.2 ⟨s, hs, rfl⟩
  rw [records, List.mem_append, List.mem_append]
  rcases List.mem_cons.1 hq with rfl | hq
  · exact .inl (.inl hrow)
  · obtain ⟨v, hv, rfl⟩ := List.mem_map.1 hq
    exact .inr (List.mem_flatMap.2 ⟨v, hv, hrow⟩)

/-- a pass has a record at each site -/
theorem Spec.mem_records_of_pass {p : Spec} {e : Engine} {t : Atom × Semantic}
    (ht : t ∈ p.semantics) {q : Pass} (hq : q ∈ t.2.passes) {s : Site} (hs : s ∈ p.sites) :
    q.recordAt p e s ∈ p.records e :=
  List.mem_flatMap.2 ⟨t, ht, Semantic.mem_records_of_pass hq hs⟩

/-- in every context that no override of a pass covers, a build has recorded what complies -/
theorem Spec.complies_of_build {d : Document} (hd : d.isKeyed = true) {p : Spec}
    (hc : compile d = .ok p) {e : Engine} {generatedAt : String} {r : Registry}
    (hb : p.build e generatedAt = .ok r) {t : Atom × Semantic} (ht : t ∈ p.semantics) {q : Pass}
    (hq : q ∈ t.2.passes) {x : Atom × Theme} (hx : x ∈ p.themes) {k : Atom}
    (hk : k ∈ p.layers.keys) {f : Atom} (hf : f ∈ FontSize.names)
    (ho : ∀ o ∈ q.overrides, o.covers ⟨x.1, f, k⟩ = false) :
    ∃ u v, x.2.surfaces.lookup k = some u ∧
      r.variants.get? ⟨q.token, f, x.1, k, q.vision⟩ = some v ∧ q.Complies p e x.2 u f v := by
  have hu := (names_of_compile hd hc).1
  have hp := coherent_of_compile hd hc
  obtain ⟨u, hl, hs⟩ := hp.exists_site hx hk hf
  have hrecord : Record.of p e q.token q.vision q.target q.ramp ⟨x.1, x.2, k, u, f⟩
      (q.stepAt p e ⟨x.1, x.2, k, u, f⟩) (isManual q.overrides ⟨x.1, x.2, k, u, f⟩) ∈
        p.records e :=
    List.mem_flatMap.2 ⟨t, ht, Semantic.mem_records_of_pass hq hs⟩
  refine ⟨u, _, hl, get?_of_record hu hp hb hrecord, ?_⟩
  exact Pass.complies_stepAt ((hp.semantic t ht).passes q hq) hp hs ho _

/-- the small specification, where the default step fails, the mirrored step fails, and the only
step that passes lies on the other side than the engine says -/
theorem Spec.complies_of_build_sample :
    ∃ v, Sample.registry.variants.get?
        ⟨.text "a-b", .text "16px", .text "day", .text "root", VariantKey.plainVision⟩ = some v ∧
      v.evaluation.passed = true := by
  have ht : 1 < Sample.spec.semantics.length := by decide
  have hx : 0 < Sample.spec.themes.length := by decide
  have hk : 0 < Sample.spec.layers.keys.length := by decide
  have hf : 2 < FontSize.names.length := by decide
  obtain ⟨u, v, hl, hv, h⟩ := complies_of_build Sample.isKeyed_document Sample.compile_document
    Sample.build_spec (List.getElem_mem ht) List.mem_cons_self (List.getElem_mem hx)
    (List.getElem_mem hk) (List.getElem_mem hf) (fun o ho => absurd ho List.not_mem_nil)
  have hcolors : Sample.spec.semantics[1].2.basePass.ramp.colors =
      [⟨255, 255, 255⟩, Hex.black, ⟨255, 255, 255⟩] := rfl
  have hwhite : Sample.spec.themes[0].2.surfaces.lookup Sample.spec.layers.keys[0] =
      some ⟨3, ⟨255, 255, 255⟩⟩ := rfl
  refine ⟨v, hv, (h.passed rfl).2 ⟨Hex.black, ?_, ?_⟩⟩
  · rw [hcolors]
    exact List.mem_cons_of_mem _ List.mem_cons_self
  · rw [← Option.some.inj (hwhite.symm.trans hl)]
    rfl

end Palette
