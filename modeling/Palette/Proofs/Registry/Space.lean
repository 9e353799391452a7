import Palette.Proofs.Registry.Moved

/-!
# The space of variants

A registry has a variant for each name in each context, one for each context under each deficiency
for which a color has colors of its own, and corrections; nothing else, and nothing twice.

* `Spec.HasContext`   a key with a font size, a theme and a stack of the specification;
* `Spec.mem_grid`     the keys of the grid: a track and a context;
* `Spec.length_tracks`   how many tracks there are;
* `Spec.Exact`        what a registry has;
* `Spec.exact_entriesIn`   whatever the measure of corrections, this is there;
* `Spec.exact_of_build`  every build that returns has this.
-/

namespace Palette.Spec
variable {p : Spec} {e : Engine}

/-- does the specification have the font size, the theme and the stack of a key? -/
def HasContext (p : Spec) (k : VariantKey) : Prop :=
  k.fontSize ∈ FontSize.names ∧ k.theme ∈ p.themes.keys ∧ k.stack ∈ p.layers.keys

theorem hasContext_atSite {s : Site} (hs : s ∈ p.sites) (n v : Atom) :
    p.HasContext (VariantKey.atSite n v s) := by
  obtain ⟨ht, hk, _, hf⟩ := mem_sites.1 hs
  exact ⟨hf, Entries.mem_keys_of_mem ht, hk⟩

theorem mem_grid (hp : p.Coherent) {k : VariantKey} :
    k ∈ p.grid.map Track.key ↔
      (∃ c ∈ p.tracks, c.token = k.token ∧ c.vision = k.vision) ∧ p.HasContext k := by
  rw [List.mem_map]
  constructor
  · rintro ⟨⟨c, s⟩, hcs, rfl⟩
    obtain ⟨hc, hs⟩ := List.mem_product.1 hcs
    exact ⟨⟨c, hc, rfl, rfl⟩, hasContext_atSite hs _ _⟩
  · obtain ⟨n, f, x, k, v⟩ := k
    rintro ⟨⟨c, hc, rfl, rfl⟩, hf, hx, hk⟩
    obtain ⟨t, ht⟩ := Entries.mem_keys.1 hx
    obtain ⟨u, _, hs⟩ := hp.exists_site ht hk hf
    exact ⟨(c, _), List.mem_product.2 ⟨hc, hs⟩, rfl⟩

/-! ## names -/

theorem Unambiguous.mem_names (hu : p.Unambiguous) {n : Atom} :
    n ∈ p.names ↔ ∃ t ∈ p.semantics, n ∈ t.2.names := by
  rw [names, List.mem_append, Entries.keys, List.mem_map, derived, List.mem_flatMap]
  constructor
  · rintro (⟨t, ht, rfl⟩ | ⟨t, ht, hn⟩)
    · refine ⟨t, ht, ?_⟩
      rw [Semantic.names, hu.named t ht]
      exact List.mem_cons_self
    · refine ⟨t, ht, List.mem_cons_of_mem _ ?_⟩
      rw [hu.named t ht]
      exact hn
  · rintro ⟨t, ht, hn⟩
    rw [Semantic.names, hu.named t ht] at hn
    rcases List.mem_cons.1 hn with rfl | hn
    · exact .inl ⟨t, ht, rfl⟩
    · exact .inr ⟨t, ht, hn⟩

theorem Unambiguous.mem_plainTracks (hu : p.Unambiguous) {n : Atom} :
    (∃ c ∈ p.tracks, c.token = n ∧ c.vision = VariantKey.plainVision) ↔ n ∈ p.names := by
  rw [hu.mem_names]
  constructor
  · rintro ⟨c, hc, rfl, hv⟩
    obtain ⟨t, ht, hc⟩ := List.mem_flatMap.1 hc
    exact ⟨t, ht, Semantic.token_mem_names hc⟩
  · rintro ⟨t, ht, hn⟩
    refine ⟨⟨n, VariantKey.plainVision, t.2.target, t.2.ramp⟩, ?_, rfl, rfl⟩
    exact List.mem_flatMap.2 ⟨t, ht, List.mem_append_left _ (List.mem_map.2 ⟨n, hn, rfl⟩)⟩

theorem exists_of_mem_tracks {c : Track} (hc : c ∈ p.tracks)
    (hv : c.vision ≠ VariantKey.plainVision) :
    ∃ t ∈ p.semantics, ∃ v ∈ t.2.ownVision, c = t.2.ownTrack v := by
  obtain ⟨t, ht, hc⟩ := List.mem_flatMap.1 hc
  rcases List.mem_append.1 hc with hc | hc
  · obtain ⟨n, _, rfl⟩ := List.mem_map.1 hc
    exact absurd rfl hv
  · obtain ⟨v, hm, rfl⟩ := List.mem_map.1 hc
    exact ⟨t, ht, v, hm, rfl⟩

/-! ## numbers -/

theorem length_tracks :
    p.tracks.length = p.semantics.length + p.derived.length +
      (p.semantics.flatMap fun t => t.2.ownVision).length := by
  rw [tracks, derived]
  induction p.semantics with
  | nil => rfl
  | cons t ts ih =>
    have ht : t.2.tracks.length = t.2.interactions.length + 1 + t.2.ownVision.length := by
      rw [Semantic.tracks, Semantic.plainTracks, Semantic.names, List.length_append,
        List.length_map, List.length_map, List.length_cons, List.length_map]
    rw [List.flatMap_cons, List.flatMap_cons, List.flatMap_cons, List.length_append,
      List.length_append, List.length_append, ih, ht, List.length_map, List.length_cons]
    omega

theorem length_written (hp : p.Coherent) :
    (p.written e).length = p.themes.length * p.layers.length * 6 * p.tracks.length := by
  rw [← Entries.length_keys, keys_written hp, List.length_map, grid, List.length_product,
    hp.length_sites, Nat.mul_comm]

/-! ## the space -/

/-- what the variants of a specification are, with those that corrections have added, and how many
there are in all -/
structure Exact (p : Spec) (e : Engine) (variants added : Entries VariantKey Variant)
    (total : Nat) : Prop where
  /-- without deficiency, each name in each context and nothing else -/
  plain : ∀ k : VariantKey, k.vision = VariantKey.plainVision →
    (k ∈ variants.keys ↔ k.token ∈ p.names ∧ p.HasContext k)
  /-- each context under a deficiency for which there is an entry -/
  own : ∀ t ∈ p.semantics, ∀ (m : Deficiency) (w : VisionEntry), (.text m.name, w) ∈ t.2.vision →
    ∀ k : VariantKey, k.token = t.1 → k.vision = .text m.name → p.HasContext k →
      k ∈ variants.keys
  /-- the rest are corrections of declared colors, under deficiencies without an entry -/
  others : ∀ x ∈ variants, x.1.vision ≠ VariantKey.plainVision →
    ∃ t ∈ p.semantics, ∃ m : Deficiency,
      x.1.token = t.1 ∧ x.1.vision = .text m.name ∧ p.HasContext x.1 ∧
        ((∃ w, (.text m.name, w) ∈ t.2.vision) ∨
          (∀ w, (.text m.name, w) ∉ t.2.vision) ∧ x ∈ added)
  /-- no two records have one key -/
  once : ((p.records e).map Record.key).Pairwise fun a b => (a == b) = false
  /-- each record is kept as it was made, and so is each correction -/
  kept : variants = (p.records e).map (fun y => (y.key, y.variant)) ++ added
  total : total =
    p.themes.length * p.layers.length * 6 *
      (p.semantics.length + p.derived.length +
        (p.semantics.flatMap fun t => t.2.ownVision).length) + added.length

section
variable (hu : p.Unambiguous) (hp : p.Coherent)
variable {κ : Type} [LT κ] [DecidableLT κ] [LE κ] [DecidableLE κ] [Sub κ] [Mul κ]
variable {gauge : Deficiency → Gauge Hex κ}
include hu hp

theorem mem_keys_entriesIn_of_plain {k : VariantKey} (hk : k.vision = VariantKey.plainVision) :
    k ∈ (p.entriesIn e gauge).keys ↔ k.token ∈ p.names ∧ p.HasContext k := by
  rw [entriesIn, Entries.keys_append, List.mem_append, keys_written hp, mem_grid hp, hk,
    hu.mem_plainTracks]
  constructor
  · rintro (h | h)
    · exact h
    · obtain ⟨v, hv⟩ := Entries.mem_keys.1 h
      obtain ⟨t, _, m, _, s, _, y, ⟨_, _, _, rfl⟩, hx⟩ := exists_of_mem_correctionsIn hu hp hv
      obtain ⟨rfl, _⟩ := Prod.mk.inj hx
      exact absurd hk.symm (Semantic.plain_ne_name m)
  · exact .inl

theorem mem_keys_entriesIn_of_own {t : Atom × Semantic} (ht : t ∈ p.semantics) {m : Deficiency}
    {w : VisionEntry} (hw : (.text m.name, w) ∈ t.2.vision) {k : VariantKey}
    (hn : k.token = t.1) (hv : k.vision = .text m.name) (hk : p.HasContext k) :
    k ∈ (p.entriesIn e gauge).keys := by
  rw [entriesIn, Entries.keys_append, List.mem_append, keys_written hp, mem_grid hp]
  have hc : t.2.ownTrack (m, w) ∈ p.tracks := by
    refine List.mem_flatMap.2 ⟨t, ht, List.mem_append_right _ (List.mem_map.2 ⟨(m, w), ?_, rfl⟩)⟩
    exact Semantic.mem_ownVision.2 hw
  exact .inl ⟨⟨_, hc, (hu.named t ht).trans hn.symm, hv.symm⟩, hk⟩

theorem exists_of_mem_entriesIn_of_deficiency {x : VariantKey × Variant}
    (hx : x ∈ p.entriesIn e gauge) (hv : x.1.vision ≠ VariantKey.plainVision) :
    ∃ t ∈ p.semantics, ∃ m : Deficiency,
      x.1.token = t.1 ∧ x.1.vision = .text m.name ∧ p.HasContext x.1 ∧
        ((∃ w, (.text m.name, w) ∈ t.2.vision) ∨
          (∀ w, (.text m.name, w) ∉ t.2.vision) ∧
            x ∈ p.correctionsIn e gauge (Record.variants (p.records e))) := by
  rcases List.mem_append.1 hx with h | h
  · have hk := Entries.mem_keys_of_mem h
    rw [keys_written hp, mem_grid hp] at hk
    obtain ⟨⟨c, hc, hn, hcv⟩, hk⟩ := hk
    rw [← hcv] at hv
    obtain ⟨t, ht, v, hm, rfl⟩ := exists_of_mem_tracks hc hv
    exact ⟨t, ht, v.1, hn.symm.trans (hu.named t ht), hcv.symm, hk,
      .inl ⟨v.2, Semantic.mem_ownVision.1 hm⟩⟩
  · obtain ⟨t, ht, m, hm, s, hs, y, ⟨_, _, _, rfl⟩, rfl⟩ := exists_of_mem_correctionsIn hu hp h
    refine ⟨t, ht, m, hu.named t ht, rfl, hasContext_atSite hs _ _, .inr ⟨fun w hw => ?_, h⟩⟩
    exact hm (m, w) (Semantic.mem_ownVision.2 hw) rfl

/-- whatever the measure, the whole space is there and nothing beyond it -/
theorem exact_entriesIn :
    p.Exact e (p.entriesIn e gauge) (p.correctionsIn e gauge (Record.variants (p.records e)))
      (p.entriesIn e gauge).length where
  plain _ hk := mem_keys_entriesIn_of_plain hu hp hk
  own _ ht _ _ hw _ hn hv hk := mem_keys_entriesIn_of_own hu hp ht hw hn hv hk
  others _ hx hv := exists_of_mem_entriesIn_of_deficiency hu hp hx hv
  once := by
    rw [keys_records hp, List.pairwise_map]
    exact hu.pairwise_grid hp
  kept := rfl
  total := by rw [entriesIn, List.length_append, length_written hp, length_tracks]

end

/-- A build that returns has recorded the whole space and nothing beyond it, each place once, and so
has one by any other measure of colors. The names are those that the value declares and derives. -/
theorem exact_of_build {d : Document} (hd : d.isKeyed = true) (hc : compile d = .ok p)
    {generatedAt : String} {r : Registry} (hb : p.build e generatedAt = .ok r) :
    p.Exact e r.variants.toList (p.corrections e (Record.variants (p.records e)))
        r.info.totalVariants ∧
      p.semantics.keys = declared d ∧
      p.derived = (derivations (membersOf d)).map (fun n => .text n.2) ∧
      ∀ {κ : Type} [LT κ] [DecidableLT κ] [LE κ] [DecidableLE κ] [Sub κ] [Mul κ]
        (gauge : Deficiency → Gauge Hex κ),
        p.Exact e (p.entriesIn e gauge) (p.correctionsIn e gauge (Record.variants (p.records e)))
          (p.entriesIn e gauge).length := by
  obtain ⟨hu, hkeys, hderived⟩ := names_of_compile hd hc
  have hp := coherent_of_compile hd hc
  have hl := toList_variants_of_build hu hp hb
  have htotal : r.info.totalVariants = (p.entries e).length := by
    obtain ⟨_, failures, _, _, rfl⟩ := build_ok.1 hb
    show OrderedMap.size _ = _
    rw [← OrderedMap.length_toList]
    exact congrArg List.length hl
  refine ⟨?_, hkeys, hderived, fun gauge => exact_entriesIn hu hp⟩
  rw [hl, htotal]
  exact exact_entriesIn hu hp

/-- the registry of the small specification: seven names, one of them of a color and a state with
hyphens, and a deficiency; by a measure without green there is a correction too -/
theorem exact_of_build_sample :
    Sample.registry.info.totalVariants = 2 * 2 * 6 * (5 + 2 + 1) +
        (Sample.spec.corrections Sample.engine
          (Record.variants (Sample.spec.records Sample.engine))).length ∧
      ⟨.text "a-b-c", .text "12px", .text "night", .text "card", VariantKey.plainVision⟩ ∈
        Sample.registry.variants.toList.keys ∧
      ⟨.text "a-b-c", .text "12px", .text "dusk", .text "card", VariantKey.plainVision⟩ ∉
        Sample.registry.variants.toList.keys ∧
      ⟨.text "a", .text "12px", .text "day", .text "root", .text "deuteranopia"⟩ ∈
        Sample.registry.variants.toList.keys ∧
      ∃ x ∈ Sample.spec.entriesIn Sample.engine Sample.gauge,
        x.1.token.text? = some "stop" ∧ x.1.vision.text? = some "deuteranopia" ∧
          ∃ t ∈ Sample.spec.semantics, x.1.token = t.1 ∧ ∀ m : Deficiency, ∀ w,
            x.1.vision = .text m.name → (.text m.name, w) ∉ t.2.vision := by
  obtain ⟨h, _, _, hany⟩ :=
    exact_of_build Sample.isKeyed_document Sample.compile_document Sample.build_spec
  have hnames : Sample.spec.names =
      [.text "a", .text "a-b", .text "rule", .text "stop", .text "go", .text "a-b-c",
        .text "a-b-d"] := rfl
  have hthemes : Sample.spec.themes.keys = [.text "day", .text "night"] := rfl
  have hlayers : Sample.spec.layers.keys = [.text "root", .text "card"] := rfl
  have hsizes : Atom.text "12px" ∈ FontSize.names := List.mem_cons_self
  refine ⟨?_, (h.plain _ rfl).2 ⟨?_, hsizes, ?_, ?_⟩, fun hk => ?_, ?_, ?_⟩
  · have hlengths : Sample.spec.themes.length = 2 ∧ Sample.spec.layers.length = 2 ∧
        Sample.spec.semantics.length = 5 ∧ Sample.spec.derived.length = 2 ∧
        (Sample.spec.semantics.flatMap fun t => t.2.ownVision).length = 1 := by decide
    obtain ⟨ht, hl, hs, hi, hv⟩ := hlengths
    have htotal := h.total
    rw [ht, hl, hs, hi, hv] at htotal
    exact htotal
  · rw [hnames]
    simp
  · rw [hthemes]
    simp
  · rw [hlayers]
    simp
  · have hx := ((h.plain _ rfl).1 hk).2.2.1
    rw [hthemes] at hx
    simp at hx
  · have hown : ∃ t ∈ Sample.spec.semantics, t.1 = .text "a" ∧
        ∃ w, (.text Deficiency.deuteranopia.name, w) ∈ t.2.vision :=
      ⟨_, List.getElem_mem (by decide : 0 < Sample.spec.semantics.length), rfl, _,
        List.mem_cons_self⟩
    obtain ⟨t, ht, hn, w, hw⟩ := hown
    refine h.own t ht .deuteranopia w hw _ hn.symm rfl ⟨hsizes, ?_, ?_⟩
    · rw [hthemes]
      exact List.mem_cons_self
    · rw [hlayers]
      exact List.mem_cons_self
  · obtain ⟨x, hx, hmoved⟩ := Sample.exists_moved
    simp only [Bool.and_eq_true, beq_iff_eq] at hmoved
    have hmem : x ∈ Sample.spec.entriesIn Sample.engine Sample.gauge :=
      List.mem_append_right _ hx
    have hplain : x.1.vision ≠ VariantKey.plainVision := fun hv => by
      have hvision := hmoved.1.2
      rw [hv] at hvision
      exact absurd hvision (by decide)
    have hentry : ∀ t ∈ Sample.spec.semantics, t.1.text? = some "stop" → t.2.vision = [] := by
      decide
    obtain ⟨t, ht, _, hn, _⟩ := (hany Sample.gauge).others x hmem hplain
    refine ⟨x, hmem, hmoved.1.1, hmoved.1.2, t, ht, hn, fun m w _ hw => ?_⟩
    rw [hentry t ht (by rw [← hn]; exact hmoved.1.1)] at hw
    cases hw

end Palette.Spec
