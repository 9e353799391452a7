import Palette.Proofs.Contrast.Graded
import Palette.Proofs.Registry.Compliance
import Palette.Proofs.Spec.Choices
import Palette.Proofs.Turns

/-!
# Strictness costs contrast and nothing else

With an engine that compares a value with a requirement, more strictness never makes a variant pass
that fails without it, and a variant that passes at a stricter demand has at least the value of the
one at the laxer demand. Demands are stricter at the higher level and at smaller sizes.

* `Variant.Eases`      a variant at a stricter demand against one at a laxer demand;
* `Pass.variantAt`     the variant of a pass at a site;
* `Pass.eases_variantAt`   what a pass takes at two demands;
* `Spec.eases_of_build`    what builds return at two levels, and one build at two sizes.
-/

namespace Palette

/-- where the first of two variants passes, so does the second, with no greater value -/
def Variant.Eases {κ : Type} [LE κ] (value : Evaluation → κ) (strict lax : Variant) : Prop :=
  strict.evaluation.passed = true →
    lax.evaluation.passed = true ∧ value lax.evaluation ≤ value strict.evaluation

namespace Spec
variable {p : Spec}

theorem Coherent.atLevel (h : p.Coherent) (l : Level) : (p.atLevel l).Coherent :=
  h.withConfig _

theorem Unambiguous.atLevel (h : p.Unambiguous) (l : Level) : (p.atLevel l).Unambiguous :=
  h.withConfig _

end Spec

namespace Pass

/-- the variant at a site -/
def variantAt (q : Pass) (p : Spec) (e : Engine) (s : Site) : Variant :=
  let step := q.stepAt p e s
  (Record.of p e q.token q.vision q.target q.ramp s step (isManual q.overrides s)).variant

variable {q : Pass} {p : Spec} {e : Engine}

theorem passed_variantAt (hq : q.Fits) (hp : p.Coherent) {s : Site} :
    (q.variantAt p e s).evaluation.passed =
      q.ramp.passesAt (s.passes e q.target p.config.level) (q.stepAt p e s).index := by
  rw [Ramp.passesAt, hasStep_stepAt hq hp]
  rfl

/-- at one place of a theme, a stricter demand against a laxer one -/
theorem eases_variantAt {κ : Type} [LE κ] [Scale κ] {value : Evaluation → κ} {need : Context → κ}
    (hg : e.Graded value need) (hq : q.Fits) (hp : p.Coherent) {n k : Atom} {x : Theme}
    {u : Surface} {f f' : Atom} {l l' : Level}
    (hs : ⟨n, x, k, u, f⟩ ∈ p.sites) (hs' : ⟨n, x, k, u, f'⟩ ∈ p.sites)
    (ho : ∀ o ∈ q.overrides, o.covers ⟨n, f, k⟩ = false)
    (ho' : ∀ o ∈ q.overrides, o.covers ⟨n, f', k⟩ = false)
    (hn : need ⟨FontSize.px f', q.target, l'⟩ ≤ need ⟨FontSize.px f, q.target, l⟩) :
    (q.variantAt (p.atLevel l) e ⟨n, x, k, u, f⟩).Eases value
      (q.variantAt (p.atLevel l') e ⟨n, x, k, u, f'⟩) := by
  intro hpass
  have hi := index_stepAt (e := e) (hp.atLevel l) hs ho
  have hj := index_stepAt (e := e) (hp.atLevel l') hs' ho'
  have hlax (h : Hex) (hh : e.passes u.hex ⟨FontSize.px f, q.target, l⟩ h = true) :
      e.passes u.hex ⟨FontSize.px f', q.target, l'⟩ h = true :=
    hg.passes_of_laxer ⟨FontSize.px f, q.target, l⟩ ⟨FontSize.px f', q.target, l'⟩ rfl hn hh
  rw [passed_variantAt hq (hp.atLevel l), hi] at hpass
  -- the two searches begin at one step and go in one order, and differ in the test alone
  obtain ⟨hlater, hfirst⟩ :
      q.ramp.passesAt (e.passes u.hex ⟨FontSize.px f', q.target, l'⟩)
          (q.stepAt (p.atLevel l') e ⟨n, x, k, u, f'⟩).index = true ∧
        (q.ramp.passesAt (e.passes u.hex ⟨FontSize.px f, q.target, l⟩)
            (q.stepAt (p.atLevel l') e ⟨n, x, k, u, f'⟩).index = true →
          (q.stepAt (p.atLevel l') e ⟨n, x, k, u, f'⟩).index =
            (q.stepAt (p.atLevel l) e ⟨n, x, k, u, f⟩).index) := by
    rw [hi, hj]
    exact Ramp.of_laxer hlax hq.default hpass
  rw [← hi] at hpass
  have color_passes {test : Hex → Bool} {i : Int} (h : q.ramp.passesAt test i = true) :
      test (q.ramp.color i) = true := by
    rw [Ramp.passesAt, Bool.and_eq_true] at h
    exact h.2
  refine ⟨color_passes hlater, ?_⟩
  refine hg.value_le_of_laxer ⟨FontSize.px f, q.target, l⟩ ⟨FontSize.px f', q.target, l'⟩ rfl
    (color_passes hpass) (color_passes hlater) fun hboth => ?_
  refine congrArg q.ramp.color (hfirst ?_)
  rw [Ramp.passesAt, hasStep_stepAt hq (hp.atLevel l'), Bool.true_and]
  exact hboth

end Pass

namespace Spec

/-- a build has recorded the variant of each pass at each site -/
theorem get?_of_pass {p : Spec} (hu : p.Unambiguous) (hp : p.Coherent) {e : Engine}
    {generatedAt : String} {r : Registry} (hb : p.build e generatedAt = .ok r)
    {t : Atom × Semantic} (ht : t ∈ p.semantics) {q : Pass} (hq : q ∈ t.2.passes) {s : Site}
    (hs : s ∈ p.sites) :
    r.variants.get? ⟨q.token, s.fontSize, s.themeName, s.stack, q.vision⟩ =
      some (q.variantAt p e s) :=
  get?_of_record hu hp hb (mem_records_of_pass ht hq hs)

/-- The engines of this library compare a value with a requirement. For any such engine, in every
context that no override of a pass covers: of the builds from one value at the two levels, that at
the higher level is no laxer, and in one build smaller sizes are no laxer than larger ones. -/
theorem eases_of_build :
    (∀ x ∈ Engines.builtin, ∃ need, x.2.Graded Evaluation.value need) ∧
    ∀ {κ : Type} [LE κ] [Scale κ] {e : Engine} {value : Evaluation → κ} {need : Context → κ},
      e.Graded value need →
    ∀ {d : Document}, d.isKeyed = true → ∀ {p : Spec}, compile d = .ok p →
    ∀ {t : Atom × Semantic}, t ∈ p.semantics → ∀ {q : Pass}, q ∈ t.2.passes →
    ∀ {x : Atom × Theme}, x ∈ p.themes → ∀ {k : Atom}, k ∈ p.layers.keys →
      (compile (d.atLevel .aa) = .ok (p.atLevel .aa) ∧
        compile (d.atLevel .aaa) = .ok (p.atLevel .aaa) ∧
        ∀ {time time' : String} {r r' : Registry}, (p.atLevel .aa).build e time = .ok r →
          (p.atLevel .aaa).build e time' = .ok r' → ∀ {f : Atom}, f ∈ FontSize.names →
          (∀ o ∈ q.overrides, o.covers ⟨x.1, f, k⟩ = false) →
          ∃ v v', r.variants.get? ⟨q.token, f, x.1, k, q.vision⟩ = some v ∧
            r'.variants.get? ⟨q.token, f, x.1, k, q.vision⟩ = some v' ∧ v'.Eases value v) ∧
      ∀ {time : String} {r : Registry}, p.build e time = .ok r →
        ∀ {f f' : Atom}, f ∈ FontSize.names → f' ∈ FontSize.names →
        FontSize.px f ≤ FontSize.px f' →
        (∀ o ∈ q.overrides, o.covers ⟨x.1, f, k⟩ = false) →
        (∀ o ∈ q.overrides, o.covers ⟨x.1, f', k⟩ = false) →
        ∃ v v', r.variants.get? ⟨q.token, f, x.1, k, q.vision⟩ = some v ∧
          r.variants.get? ⟨q.token, f', x.1, k, q.vision⟩ = some v' ∧ v.Eases value v' := by
  refine ⟨fun x hx => Engines.graded hx, ?_⟩
  intro κ _ _ e value need hg d hd p hc t ht q hq x hx k hk
  have hu := (names_of_compile hd hc).1
  have hp := coherent_of_compile hd hc
  have hfits : q.Fits := (hp.semantic t ht).passes q hq
  have hsite {f : Atom} (hf : f ∈ FontSize.names) {u : Surface}
      (hl : x.2.surfaces.lookup k = some u) : ⟨x.1, x.2, k, u, f⟩ ∈ p.sites :=
    mem_sites.2 ⟨hx, hk, hl, hf⟩
  obtain ⟨u, hl⟩ := hp.exists_surface hx hk
  refine ⟨⟨compile_atLevel hc (.inl rfl), compile_atLevel hc (.inr rfl), ?_⟩, ?_⟩
  · intro time time' r r' hb hb' f hf ho
    refine ⟨_, _, get?_of_pass (hu.atLevel .aa) (hp.atLevel .aa) hb ht hq (hsite hf hl),
      get?_of_pass (hu.atLevel .aaa) (hp.atLevel .aaa) hb' ht hq (hsite hf hl), ?_⟩
    exact Pass.eases_variantAt hg hfits hp (hsite hf hl) (hsite hf hl) ho ho (hg.level _ _)
  · intro time r hb f f' hf hf' hle ho ho'
    refine ⟨_, _, get?_of_pass hu hp hb ht hq (hsite hf hl),
      get?_of_pass hu hp hb ht hq (hsite hf' hl), ?_⟩
    exact Pass.eases_variantAt hg hfits hp (hsite hf hl) (hsite hf' hl) ho ho'
      (hg.size _ _ _ p.config.level hle)

end Spec

/-! ## the small specification at two levels -/

namespace Sample

/-- what is needed of the difference in red -/
def need (c : Context) : Float :=
  if 24 ≤ c.fontPx then (if c.level.strict then 150.0 else 50.0)
  else (if c.level.strict then 250.0 else 120.0)

/-- the difference in red -/
def measure (a b : Hex) : Float :=
  (max a.red.toNat b.red.toNat - min a.red.toNat b.red.toNat).toFloat

/-- an engine that compares the two -/
def grader : Engine where
  id := "graded red"
  exempts _ := false
  admits _ := .ok ()
  evaluate color background c :=
    { passed := need c ≤ measure color background, metric := "red"
      value := measure color background, required := some (need c), polarity := none }
  preferred := some fun background => if 128 ≤ background.red.toNat then .lighter else .darker

theorem graded_grader : grader.Graded Evaluation.value need where
  passed _ _ _ := decide_eq_true_iff
  value_eq _ _ _ _ _ := rfl
  level px t := by
    show (if 24 ≤ px then 50.0 else 120.0 : Float) ≤ if 24 ≤ px then 150.0 else 250.0
    split <;> decide
  size px px' t l hle := by
    have hlarge : 24 ≤ px → 24 ≤ px' := fun h => h.trans hle
    simp only [need]
    cases l.strict
    · exact ite_le_of_imp' hlarge (by decide) (by decide) (by decide)
    · exact ite_le_of_imp' hlarge (by decide) (by decide) (by decide)

/-- the registry at the lower level -/
def lower : Registry := ((spec.atLevel .aa).build grader "now").toOption.get (by decide +kernel)

theorem build_lower : (spec.atLevel .aa).build grader "now" = .ok lower := Outcome.eq_ok_get _

/-- the registry at the higher level -/
def higher : Registry :=
  ((spec.atLevel .aaa).build grader "now").toOption.get (by decide +kernel)

theorem build_higher : (spec.atLevel .aaa).build grader "now" = .ok higher := Outcome.eq_ok_get _

theorem one_lt_themes : 1 < spec.themes.length := by decide

theorem zero_lt_semantics : 0 < spec.semantics.length := by decide

/-- the pass of the first color -/
def pass : Pass := spec.semantics[0].2.basePass

/-- the dark theme at the base level, at a size -/
def dark (size : String) : Site :=
  ⟨.text "night", spec.themes[1].2, .text "root", ⟨0, Hex.black⟩, .text size⟩

/-- the first color there -/
def darkKey (size : String) : VariantKey :=
  ⟨.text "a", .text size, .text "night", .text "root", VariantKey.plainVision⟩

theorem dark_mem_sites {size : String} (h : Atom.text size ∈ FontSize.names) :
    dark size ∈ spec.sites :=
  Spec.mem_sites.2 ⟨List.getElem_mem one_lt_themes, List.mem_cons_self, rfl, h⟩

theorem get?_dark {l : Level} {r : Registry} (hb : (spec.atLevel l).build grader "now" = .ok r)
    {size : String} (h : Atom.text size ∈ FontSize.names) :
    r.variants.get? (darkKey size) = some (pass.variantAt (spec.atLevel l) grader (dark size)) := by
  have hu := (Spec.names_of_compile isKeyed_document compile_document).1
  have hp := Spec.coherent_of_compile isKeyed_document compile_document
  exact Spec.get?_of_pass (hu.atLevel l) (hp.atLevel l) hb (List.getElem_mem zero_lt_semantics)
    List.mem_cons_self (dark_mem_sites h)

end Sample

/-- on the dark theme the higher level takes white, and the lower one the step before, or at a large
size the step before that -/
theorem Spec.eases_of_build_sample :
    (∃ v v', Sample.lower.variants.get? (Sample.darkKey "16px") = some v ∧
      Sample.higher.variants.get? (Sample.darkKey "16px") = some v' ∧
      v'.evaluation.passed = true ∧ v.evaluation.passed = true ∧
      v.evaluation.value ≤ v'.evaluation.value) ∧
    ∃ v v', Sample.lower.variants.get? (Sample.darkKey "16px") = some v ∧
      Sample.lower.variants.get? (Sample.darkKey "32px") = some v' ∧
      v.evaluation.passed = true ∧ v'.evaluation.passed = true ∧
      v'.evaluation.value ≤ v.evaluation.value := by
  have h16 : Atom.text "16px" ∈ FontSize.names := by simp [FontSize.names, FontSize.all]
  have h32 : Atom.text "32px" ∈ FontSize.names := by simp [FontSize.names, FontSize.all]
  have huncovered (size : String) : ∀ o ∈ Sample.pass.overrides,
      o.covers ⟨.text "night", .text size, .text "root"⟩ = false := by
    intro o ho
    obtain rfl := List.mem_singleton.1 ho
    rfl
  have hk : Atom.text "root" ∈ Sample.spec.layers.keys := List.mem_cons_self
  have hstrict : (Sample.pass.variantAt (Sample.spec.atLevel .aaa) Sample.grader
      (Sample.dark "16px")).evaluation.passed = true := by decide +kernel
  have hsmall : (Sample.pass.variantAt (Sample.spec.atLevel .aa) Sample.grader
      (Sample.dark "16px")).evaluation.passed = true := by decide +kernel
  have hkeyed : (Sample.document.atLevel .aa).isKeyed = true := by decide
  constructor
  · obtain ⟨v, v', hv, hv', h⟩ := (eases_of_build.2 Sample.graded_grader Sample.isKeyed_document
      Sample.compile_document (List.getElem_mem Sample.zero_lt_semantics) List.mem_cons_self
      (List.getElem_mem Sample.one_lt_themes) hk).1.2.2 Sample.build_lower Sample.build_higher h16
      (huncovered "16px")
    obtain rfl := Option.some.inj (hv'.symm.trans (Sample.get?_dark Sample.build_higher h16))
    exact ⟨v, _, hv, hv', hstrict, h hstrict⟩
  · obtain ⟨v, v', hv, hv', h⟩ := (eases_of_build.2 Sample.graded_grader hkeyed
      (compile_atLevel Sample.compile_document (.inl rfl))
      (List.getElem_mem Sample.zero_lt_semantics) List.mem_cons_self
      (List.getElem_mem Sample.one_lt_themes) hk).2 Sample.build_lower h16 h32 (by decide)
      (huncovered "16px") (huncovered "32px")
    obtain rfl := Option.some.inj (hv.symm.trans (Sample.get?_dark Sample.build_lower h16))
    exact ⟨_, v', hv, hv', hsmall, h hsmall⟩

end Palette
