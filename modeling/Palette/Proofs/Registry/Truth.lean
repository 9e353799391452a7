import Palette.Proofs.Registry.Moved

/-!
# Every variant tells the truth

Whoever made a variant (a pass, a state moved with its color, an override of a state, a
correction), it names a ramp of its color, a step on that ramp and the color of that step, and it
has the evaluation of this color on the surface of its theme at its stack.

* `Track.Belongs`      a track of a semantic color: its names, its target, and one of its ramps;
* `Variant.Truth`      what a variant says about a theme, a surface and a ramp;
* `Spec.exists_belongs`      what a build has is recorded on tracks of declared colors;
* `Variant.truth_of_holds`   a record of a track of a color tells the truth;
* `Spec.truth_of_build`      so do all variants of a build, each about the color that has its name,
                       whatever the measure of its corrections.
-/

namespace Palette

/-- does a track belong to a semantic color? The ramp is that of the entry for the deficiency where
there is one, and else that of the color. -/
structure Track.Belongs (c : Track) (t : Semantic) (ramps : Ramps) : Prop where
  token : c.token ∈ t.names
  target : c.target = t.target
  ramp : ramps.lookup c.ramp.name = some c.ramp
  base : (∀ (m : Deficiency) w, c.vision = .text m.name → (.text m.name, w) ∉ t.vision) →
    c.ramp = t.ramp
  own : ∀ (m : Deficiency) w, c.vision = .text m.name → (.text m.name, w) ∈ t.vision →
    c.ramp = w.ramp

/-- is what a variant says so? It is about a semantic color, a theme, a surface and a ramp. -/
structure Variant.Truth (p : Spec) (e : Engine) (r : Registry) (k : VariantKey) (v : Variant)
    (t : Semantic) (x : Theme) (u : Surface) (c : Ramp) : Prop where
  size : k.fontSize ∈ FontSize.names
  theme : r.themes.lookup k.theme = some x
  stack : k.stack ∈ r.layers.keys
  surface : x.surfaces.lookup k.stack = some u
  ramp : r.ramps.lookup v.ramp = some c
  base : (∀ (m : Deficiency) w, k.vision = .text m.name → (.text m.name, w) ∉ t.vision) →
    c = t.ramp
  own : ∀ (m : Deficiency) w, k.vision = .text m.name → (.text m.name, w) ∈ t.vision → c = w.ramp
  step : 0 ≤ v.step.index ∧ v.step.index < c.length
  hex : c.colors[v.step.index.toNat]? = some v.hex
  evaluation :
    v.evaluation = e.evaluate v.hex u.hex ⟨FontSize.px k.fontSize, t.target, p.config.level⟩

namespace Semantic
variable {t : Semantic} {ramps : Ramps}

theorem belongs_of_mem_tracks (h : t.Fits ramps) {c : Track} (hc : c ∈ t.tracks) :
    c.Belongs t ramps := by
  have hn := token_mem_names hc
  rcases List.mem_append.1 hc with hc | hc
  · obtain ⟨n, _, rfl⟩ := List.mem_map.1 hc
    exact ⟨hn, rfl, h.ramp, fun _ => rfl, fun m _ hv => absurd hv (plain_ne_name m)⟩
  · obtain ⟨v, hv, rfl⟩ := List.mem_map.1 hc
    have hmem := mem_ownVision.1 hv
    refine ⟨hn, rfl, (h.vision _ hmem).ramp, fun hx => absurd hmem (hx v.1 v.2 rfl), ?_⟩
    intro m w hm hw
    have hl := Entries.lookup_of_mem h.distinct_vision hmem
    have hm : Atom.text v.1.name = .text m.name := hm
    rw [hm, Entries.lookup_of_mem h.distinct_vision hw] at hl
    exact congrArg VisionEntry.ramp (Option.some.inj hl).symm

theorem belongs_movedTrack (h : t.Fits ramps) {m : Deficiency} (hm : t.Lacks m) :
    (t.movedTrack m).Belongs t ramps := by
  refine ⟨List.mem_cons_self, rfl, h.ramp, fun _ => rfl, fun m' w hv hw => ?_⟩
  have hmm : m = m' := Deficiency.name_injective (Atom.text.inj hv)
  rw [← hmm] at hw
  exact absurd rfl (hm (m, w) (mem_ownVision.2 hw))

end Semantic

theorem Variant.truth_of_holds {p : Spec} {e : Engine} {r : Registry} (hp : p.Coherent)
    (hthemes : r.themes = p.themes) (hlayers : r.layers = p.layers) (hramps : r.ramps = p.ramps)
    {c : Track} {s : Site} (hs : s ∈ p.sites) {t : Semantic} (hc : c.Belongs t p.ramps)
    {y : Record} (hy : Track.Holds p e (c, s) y) :
    Truth p e r y.key y.variant t s.theme s.surface c.ramp := by
  obtain ⟨step, manual, hstep, rfl⟩ := hy
  obtain ⟨ht, hk, hu, hf⟩ := Spec.mem_sites.1 hs
  have hrange := (c.ramp.hasStep_iff _).1 hstep
  exact {
    size := hf
    theme := by
      rw [hthemes]
      exact Entries.lookup_of_mem hp.distinct_themes ht
    stack := by
      rw [hlayers]
      exact hk
    surface := hu
    ramp := by
      rw [hramps]
      exact hc.ramp
    base := hc.base
    own := hc.own
    step := hrange
    hex := by
      have hcolor := Ramp.color?_eq_some_of_hasStep c.ramp _ hstep
      rw [Ramp.color?, if_pos hrange.1] at hcolor
      exact hcolor
    evaluation := by
      rw [← hc.target]
      rfl }

namespace Spec
variable {p : Spec}

/-- two semantic colors share no name -/
theorem Unambiguous.beq_names (hu : p.Unambiguous) {t t' : Atom × Semantic} (ht : t ∈ p.semantics)
    (ht' : t' ∈ p.semantics) (hne : t ≠ t') :
    ∀ n ∈ t.2.names, ∀ n' ∈ t'.2.names, (n == n') = false := by
  have : Std.Symm fun a b : Atom × Semantic =>
      ∀ x ∈ a.2.names, ∀ y ∈ b.2.names, (x == y) = false :=
    ⟨fun _ _ h x hx y hy => BEq.symm_false (h y hy x hx)⟩
  exact (List.pairwise_flatMap.1 hu.pairwise_names).2.forall ht ht' hne

/-- a name belongs to one semantic color only -/
theorem Unambiguous.eq_of_mem_names (hu : p.Unambiguous) {t t' : Atom × Semantic}
    (ht : t ∈ p.semantics) (ht' : t' ∈ p.semantics) {n : Atom} (hn : n ∈ t.2.names)
    (hn' : n ∈ t'.2.names) : t = t' := by
  by_contra hne
  have hfalse := hu.beq_names ht ht' hne n hn n hn'
  rw [BEq.rfl] at hfalse
  cases hfalse

section
variable {κ : Type} [LT κ] [DecidableLT κ] [LE κ] [DecidableLE κ] [Sub κ] [Mul κ]
variable {e : Engine} {gauge : Deficiency → Gauge Hex κ}

/-- whichever way an entry came about, it is a record of a track of a declared color -/
theorem exists_belongs (hu : p.Unambiguous) (hp : p.Coherent) {x : VariantKey × Variant}
    (hx : x ∈ p.entriesIn e gauge) :
    ∃ t ∈ p.semantics, ∃ c : Track, c.Belongs t.2 p.ramps ∧ ∃ s ∈ p.sites, ∃ y,
      Track.Holds p e (c, s) y ∧ x = (y.key, y.variant) := by
  obtain ⟨c, s, hs, ⟨y, hy, rfl⟩, hc⟩ := exists_of_mem_entriesIn hu hp hx
  rcases hc with hc | ⟨t, ht, m, hm, rfl⟩
  · obtain ⟨t, ht, hc⟩ := List.mem_flatMap.1 hc
    have hbelongs := Semantic.belongs_of_mem_tracks (hp.semantic t ht) hc
    exact ⟨t, ht, c, hbelongs, s, hs, y, hy, rfl⟩
  · have hbelongs := Semantic.belongs_movedTrack (hp.semantic t ht) hm
    exact ⟨t, ht, _, hbelongs, s, hs, y, hy, rfl⟩

/-- does a variant tell the truth about the one color that has its name? -/
def Truthful (p : Spec) (e : Engine) (r : Registry) (x : VariantKey × Variant) : Prop :=
  ∃ t ∈ p.semantics, x.1.token ∈ t.2.names ∧ (∀ t' ∈ p.semantics, x.1.token ∈ t'.2.names → t' = t) ∧
    ∃ theme surface ramp, Variant.Truth p e r x.1 x.2 t.2 theme surface ramp

theorem truthful_of_mem_entriesIn (hu : p.Unambiguous) (hp : p.Coherent) {generatedAt : String}
    {r : Registry} (hb : p.build e generatedAt = .ok r) {x : VariantKey × Variant}
    (hx : x ∈ p.entriesIn e gauge) : p.Truthful e r x := by
  obtain ⟨t, ht, c, hc, s, hs, y, hy, rfl⟩ := exists_belongs hu hp hx
  have hkey : y.key.token = c.token := by
    obtain ⟨_, _, _, rfl⟩ := hy
    rfl
  refine ⟨t, ht, hkey ▸ hc.token, fun t' ht' hn => ?_, s.theme, s.surface, c.ramp, ?_⟩
  · exact hu.eq_of_mem_names ht' ht hn (hkey ▸ hc.token)
  · obtain ⟨_, failures, _, _, rfl⟩ := build_ok.1 hb
    exact Variant.truth_of_holds hp rfl rfl rfl hs hc hy

end

/-- Every variant of a build tells the truth about the one color that has its name, and so does
every one that a build by any other measure of colors has. -/
theorem truth_of_build {d : Document} (hd : d.isKeyed = true) (hc : compile d = .ok p)
    {e : Engine} {generatedAt : String} {r : Registry} (hb : p.build e generatedAt = .ok r) :
    (∀ x ∈ r.variants.toList, p.Truthful e r x) ∧
      r.variants.toList = p.entriesIn e (Correction.gauge p.config.correction) ∧
      ∀ {κ : Type} [LT κ] [DecidableLT κ] [LE κ] [DecidableLE κ] [Sub κ] [Mul κ]
        (gauge : Deficiency → Gauge Hex κ), ∀ x ∈ p.entriesIn e gauge, p.Truthful e r x := by
  have hu := (names_of_compile hd hc).1
  have hp := coherent_of_compile hd hc
  have hlist : r.variants.toList = p.entriesIn e (Correction.gauge p.config.correction) :=
    toList_variants_of_build hu hp hb
  refine ⟨fun x hx => ?_, hlist, fun gauge x hx => truthful_of_mem_entriesIn hu hp hb hx⟩
  rw [hlist] at hx
  exact truthful_of_mem_entriesIn hu hp hb hx

/-- the small specification, at an entry for a deficiency, on a ramp that repeats a color, and a
color of it that a correction moves -/
theorem truth_of_build_sample :
    (∃ x ∈ Sample.registry.variants.toList,
      x.1 = ⟨.text "a", .text "12px", .text "day", .text "root", .text "deuteranopia"⟩ ∧
        ∃ t ∈ Sample.spec.semantics, x.1.token ∈ t.2.names ∧
          ∃ theme surface ramp, ramp.colors.length = 3 ∧
            Variant.Truth Sample.spec Sample.engine Sample.registry x.1 x.2 t.2 theme surface
              ramp) ∧
      ∃ x ∈ Sample.spec.correctionsIn Sample.engine Sample.gauge
          (Record.variants (Sample.spec.records Sample.engine)),
        x.1.token.text? = some "stop" ∧ x.1.vision.text? = some "deuteranopia" ∧
          x.2.hex = ⟨0, 0, 255⟩ ∧ Sample.spec.Truthful Sample.engine Sample.registry x := by
  have hd := Sample.isKeyed_document
  have hc := Sample.compile_document
  obtain ⟨htruth, hlist, hany⟩ := truth_of_build hd hc Sample.build_spec
  constructor
  · have hlength : 48 < (Sample.spec.written Sample.engine).length := by decide +kernel
    have hx : (Sample.spec.written Sample.engine)[48] ∈ Sample.registry.variants.toList := by
      rw [hlist]
      exact List.mem_append_left _ (List.getElem_mem hlength)
    obtain ⟨t, ht, hn, _, theme, surface, ramp, h⟩ := htruth _ hx
    refine ⟨_, hx, rfl, t, ht, hn, theme, surface, ramp, ?_, h⟩
    have hramp := h.ramp
    have hsand : (Sample.registry.ramps.lookup (.text "sand")).map (fun c => c.colors.length) =
        some 3 := by decide
    have hname : (Sample.spec.written Sample.engine)[48].2.ramp = .text "sand" := rfl
    rw [hname] at hramp
    rw [hramp] at hsand
    exact Option.some.inj hsand
  · obtain ⟨x, hx, hmoved⟩ := Sample.exists_moved
    simp only [Bool.and_eq_true, beq_iff_eq] at hmoved
    exact ⟨x, hx, hmoved.1.1, hmoved.1.2, hmoved.2,
      hany Sample.gauge x (List.mem_append_right _ hx)⟩

end Spec
end Palette
