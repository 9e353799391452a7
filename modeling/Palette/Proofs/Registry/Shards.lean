import Palette.Proofs.Registry.Reported
import Palette.Proofs.Registry.Replacement
import Palette.Proofs.Registry.Truth
import Palette.Proofs.Spec.Kept

/-!
# Builds fall apart by colors

A build writes the variants of all colors into one map. The keys of a color are its own, and what
it writes there looks at no other color; only corrections look at several. So a build of one color
alone has all of it, but for corrections.

* `Spec.only`            the specification with one of its colors alone;
* `Semantic.Owns`        the keys of a color: of its names, and of its entries for deficiencies;
* `Unambiguous.only`, `Coherent.only`   a color alone fits together;
* `Spec.corrections_only`    there is nothing to correct about it;
* `Spec.lookup_entries`, `Spec.lookup_defaults`   what a build has under the keys of a color;
* `Spec.sharded_of_build`    a build of the color alone has the same.
-/

namespace Palette
open Outcome

/-- the specification with one color alone -/
def Spec.only (p : Spec) (t : Atom × Semantic) : Spec := { p with semantics := [t] }

/-- is a key that of a name of a color, or of the color under a deficiency for which it has an
entry? -/
def Semantic.Owns (t : Semantic) (k : VariantKey) : Prop :=
  k.vision = VariantKey.plainVision ∧ k.token ∈ t.names ∨
    ∃ (m : Deficiency) (w : VisionEntry), (.text m.name, w) ∈ t.vision ∧ k.token = t.name ∧
      k.vision = .text m.name

/-- these are the keys of its tracks -/
theorem Semantic.owns_iff {t : Semantic} {k : VariantKey} :
    t.Owns k ↔ ∃ c ∈ t.tracks, c.token = k.token ∧ c.vision = k.vision := by
  constructor
  · rintro (⟨hv, hn⟩ | ⟨m, w, hw, hn, hv⟩)
    · exact ⟨⟨k.token, VariantKey.plainVision, t.target, t.ramp⟩,
        List.mem_append_left _ (List.mem_map.2 ⟨_, hn, rfl⟩), rfl, hv.symm⟩
    · exact ⟨t.ownTrack (m, w),
        List.mem_append_right _ (List.mem_map_of_mem (mem_ownVision.2 hw)), hn.symm, hv.symm⟩
  · rintro ⟨c, hc, hn, hv⟩
    rcases List.mem_append.1 hc with hc | hc
    · obtain ⟨n, hm, rfl⟩ := List.mem_map.1 hc
      exact .inl ⟨hv.symm, hn ▸ hm⟩
    · obtain ⟨v, hm, rfl⟩ := List.mem_map.1 hc
      exact .inr ⟨v.1, v.2, mem_ownVision.1 hm, hn.symm, hv.symm⟩

theorem Track.beq_key_of_apart {a b : Track} (h : a.Apart b) {k : VariantKey}
    (hn : a.token = k.token) (hv : a.vision = k.vision) (s : Site) :
    (k == key (b, s)) = false := by
  rw [← Bool.not_eq_true, VariantKey.beq_iff_parts]
  rintro ⟨htoken, _, _, _, hvision⟩
  rw [Apart, hn, hv, Bool.and_eq_false_iff] at h
  rcases h with h | h
  · exact Bool.noConfusion (h.symm.trans htoken)
  · exact Bool.noConfusion (h.symm.trans hvision)

/-- the entries that the records of a color write -/
def Semantic.written (t : Semantic) (p : Spec) (e : Engine) : Entries VariantKey Variant :=
  (t.records p e).map fun y => (y.key, y.variant)

/-- they are under keys of the color -/
theorem Semantic.owns_of_mem_written {t : Semantic} {p : Spec} {e : Engine} {k : VariantKey}
    (hk : k ∈ (t.written p e).keys) : t.Owns k := by
  obtain ⟨v, hv⟩ := Entries.mem_keys.1 hk
  obtain ⟨y, hy, hyv⟩ := List.mem_map.1 hv
  obtain ⟨rfl, rfl⟩ := Prod.mk.inj hyv
  obtain ⟨c, hc, s, _, hkey, _⟩ := exists_source hy
  rw [owns_iff, hkey]
  refine ⟨c.track, ?_, rfl, rfl⟩
  rw [← map_track_sources]
  exact List.mem_map_of_mem hc

theorem Semantic.token_of_owns {t : Semantic} {k : VariantKey} (h : t.Owns k) :
    k.token ∈ t.names := by
  obtain ⟨c, hc, hn, _⟩ := owns_iff.1 h
  exact hn ▸ token_mem_names hc

theorem Semantic.keys_defaults (t : Semantic) : Entries.keys t.defaults = t.names := by
  rw [defaults, names, Entries.keys, List.map_cons, List.map_map]
  rfl

namespace Spec
variable {p : Spec} {e : Engine} {t : Atom × Semantic}

/-! ## a color alone -/

theorem Coherent.only (hp : p.Coherent) (ht : t ∈ p.semantics) : (p.only t).Coherent :=
  { hp with
    distinct_semantics := List.pairwise_singleton _ _
    semantic := fun x hx => by
      rw [List.mem_singleton.1 hx]
      exact hp.semantic t ht }

theorem Unambiguous.only (hu : p.Unambiguous) (ht : t ∈ p.semantics) : (p.only t).Unambiguous where
  named x hx := by
    rw [List.mem_singleton.1 hx]
    exact hu.named t ht
  distinct := by
    have hnames : (p.only t).names = t.2.names := by
      show t.1 :: (_ ++ []) = _
      rw [List.append_nil, Semantic.names, hu.named t ht]
    rw [hnames]
    exact (List.pairwise_flatMap.1 hu.pairwise_names).1 t ht

/-- a value that declares the color alone compiles to this -/
theorem Coherent.keeping_eq (hp : p.Coherent) (ht : t ∈ p.semantics) :
    p.keeping (· == t.1) = p.only t := by
  rw [keeping, Entries.filter_beq hp.distinct_semantics ht]
  rfl

theorem records_only : (p.only t).records e = t.2.records p e := List.append_nil _

theorem written_only : (p.only t).written e = t.2.written p e := by
  rw [written, records_only]
  rfl

theorem written_eq : p.written e = p.semantics.flatMap fun t => t.2.written p e := by
  rw [written, records, List.map_flatMap]
  rfl

/-- a single color is never confused with another one -/
theorem corrections_only {base : OrderedMap VariantKey Variant} :
    (p.only t).corrections e base = [] := by
  refine List.eq_nil_iff_forall_not_mem.2 fun x hx => ?_
  rw [corrections] at hx
  split at hx
  · obtain ⟨m, s, _, c, hc, _⟩ := Correction.mem_all.1 hx
    have hone : ((p.only t).request e base).semantics.Distinct := List.pairwise_singleton _ _
    obtain ⟨a, ha, b, hb, hne, _⟩ := Correction.exists_confused_of_mem_moves hone hc
    obtain ⟨ha, _⟩ := Correction.mem_scene.1 ha
    obtain ⟨hb, _⟩ := Correction.mem_scene.1 hb
    rw [List.mem_singleton.1 ha, List.mem_singleton.1 hb, BEq.rfl] at hne
    cases hne
  · cases hx

theorem entries_only : (p.only t).entries e = t.2.written p e := by
  rw [entries, corrections_only, List.append_nil, written_only]

/-! ## the keys of a color -/

section
variable (hu : p.Unambiguous) (ht : t ∈ p.semantics)
include hu ht

/-- a key of one color is not that of another -/
theorem beq_of_owns {t' : Atom × Semantic} (ht' : t' ∈ p.semantics) (hne : t' ≠ t)
    {k k' : VariantKey} (hk : t.2.Owns k) (hk' : t'.2.Owns k') : (k == k') = false := by
  have hnames := hu.beq_names ht ht' (Ne.symm hne) _ (Semantic.token_of_owns hk) _
    (Semantic.token_of_owns hk')
  rw [← Bool.not_eq_true, VariantKey.beq_iff_parts]
  rintro ⟨htoken, _⟩
  exact Bool.noConfusion (hnames.symm.trans htoken)

theorem lookup_written {k : VariantKey} (hk : t.2.Owns k) :
    (p.written e).lookup k = (t.2.written p e).lookup k := by
  rw [written_eq]
  exact Entries.lookup_flatMap_of_mem ht fun t' ht' hne k' hk' =>
    beq_of_owns hu ht ht' hne hk (Semantic.owns_of_mem_written hk')

/-- what corrections add is under no key of a color -/
theorem lookup_entries (hp : p.Coherent) {k : VariantKey} (hk : t.2.Owns k) :
    (p.entries e).lookup k = (t.2.written p e).lookup k := by
  have hnone : (p.corrections e (Record.variants (p.records e))).lookup k = none := by
    refine Entries.lookup_eq_none fun k' hk' => ?_
    obtain ⟨v, hv⟩ := Entries.mem_keys.1 hk'
    obtain ⟨t', ht', m, hm, s, _, y, ⟨_, _, _, rfl⟩, hx⟩ := exists_of_mem_corrections hu hp hv
    obtain ⟨rfl, _⟩ := Prod.mk.inj hx
    obtain ⟨c, hc, hn, hv⟩ := Semantic.owns_iff.1 hk
    have htrack : c ∈ p.tracks := List.mem_flatMap.2 ⟨t, ht, hc⟩
    exact Track.beq_key_of_apart (hu.toNamed.apart_movedTrack hp ht' hm htrack) hn hv s
  rw [entries, List.lookup_append, hnone, Option.or_none, lookup_written hu ht hk]

theorem distinct_defaults : Entries.Distinct t.2.defaults := by
  rw [Entries.Distinct, Semantic.keys_defaults]
  exact (List.pairwise_flatMap.1 hu.pairwise_names).1 t ht

theorem lookup_defaults {n : Atom} (hn : n ∈ t.2.names) :
    (Entries.ofList (p.semantics.flatMap fun t => t.2.defaults)).lookup n =
      (Entries.ofList t.2.defaults).lookup n := by
  have hdistinct : Entries.Distinct (p.semantics.flatMap fun t => t.2.defaults) := by
    rw [Entries.Distinct, Entries.keys, List.map_flatMap]
    have hnames := hu.pairwise_names
    simp only [← Semantic.keys_defaults] at hnames
    exact hnames
  rw [Entries.ofList_of_distinct hdistinct, Entries.ofList_of_distinct (distinct_defaults hu ht)]
  refine Entries.lookup_flatMap_of_mem ht fun t' ht' hne n' hn' => ?_
  rw [Semantic.keys_defaults] at hn'
  exact hu.beq_names ht ht' (Ne.symm hne) n hn n' hn'

end

/-! ## builds -/

/-- where the whole is built, a color alone is built too, if failing overrides are no errors -/
theorem exists_build_only (ht : t ∈ p.semantics) (hw : p.config.policy = .warn)
    {generatedAt : String} {r : Registry} (hb : p.build e generatedAt = .ok r) :
    ∃ r', (p.only t).build e generatedAt = .ok r' := by
  obtain ⟨hcheck, failures, hfailures, _, _⟩ := build_ok.1 hb
  have hsublist : (t.2.records p e).Sublist (p.records e) := by
    obtain ⟨front, back, hl⟩ := List.append_of_mem ht
    rw [records, hl, List.flatMap_append, List.flatMap_cons]
    exact (List.sublist_append_left _ _).trans (List.sublist_append_right _ _)
  obtain ⟨own, hown, _⟩ := sublist_of_mapM (hsublist.filter _) hfailures
  refine ⟨_, build_ok.2 ⟨?_, own, ?_, ?_, rfl⟩⟩
  · refine forM_ok.2 fun x hx => ?_
    rw [List.mem_singleton.1 hx]
    exact forM_ok.1 hcheck t ht
  · rw [records_only]
    exact hown
  · show (p.config.policy.fatal && _) = false
    rw [hw]
    rfl

/-- What a build has of a color, of its states and under the deficiencies for which it has entries,
is what a build of the color alone has, which has nothing else. -/
theorem sharded_of_build {d : Document} (hd : d.isKeyed = true) (hc : compile d = .ok p)
    (hw : p.config.policy = .warn) {generatedAt : String} {r : Registry}
    (hb : p.build e generatedAt = .ok r) (ht : t ∈ p.semantics) :
    compile (d.keeping (· == t.1)) = .ok (p.only t) ∧
      ∃ r', (p.only t).build e generatedAt = .ok r' ∧
        (∀ k, t.2.Owns k → r.variants.get? k = r'.variants.get? k) ∧
        (∀ k ∈ r'.variants.toList.keys, t.2.Owns k) ∧
        ∀ n ∈ t.2.names, r.defaults.lookup n = r'.defaults.lookup n := by
  have hu := (names_of_compile hd hc).1
  have hp := coherent_of_compile hd hc
  obtain ⟨r', hb'⟩ := exists_build_only ht hw hb
  have hlist := toList_variants_of_build hu hp hb
  have hlist' := toList_variants_of_build (hu.only ht) (hp.only ht) hb'
  rw [entries_only] at hlist'
  refine ⟨hp.keeping_eq ht ▸ compile_keeping hd hc _, r', hb', fun k hk => ?_, fun k hk => ?_,
    fun n hn => ?_⟩
  · rw [← OrderedMap.lookup_toList, ← OrderedMap.lookup_toList, hlist, hlist']
    exact lookup_entries hu ht hp hk
  · rw [hlist'] at hk
    exact Semantic.owns_of_mem_written hk
  · obtain ⟨_, failures, _, _, rfl⟩ := build_ok.1 hb
    obtain ⟨_, failures', _, _, rfl⟩ := build_ok.1 hb'
    show (Entries.ofList _).lookup n = (Entries.ofList (t.2.defaults ++ [])).lookup n
    rw [List.append_nil]
    exact lookup_defaults hu ht hn

/-- the first color of the small specification, with a state and an entry for a deficiency, alone -/
theorem sharded_of_build_sample :
    ∃ t ∈ Sample.spec.semantics, ∃ r',
      compile (Sample.document.keeping (· == t.1)) = .ok (Sample.spec.only t) ∧
      (Sample.spec.only t).build Sample.engine "now" = .ok r' ∧
      Sample.registry.variants.get?
          ⟨.text "a-b-c", .text "12px", .text "day", .text "root", VariantKey.plainVision⟩ =
        r'.variants.get?
          ⟨.text "a-b-c", .text "12px", .text "day", .text "root", VariantKey.plainVision⟩ ∧
      Sample.registry.variants.get?
          ⟨.text "a", .text "12px", .text "day", .text "root", .text "deuteranopia"⟩ =
        r'.variants.get?
          ⟨.text "a", .text "12px", .text "day", .text "root", .text "deuteranopia"⟩ := by
  have ht : 0 < Sample.spec.semantics.length := by decide
  obtain ⟨hc, r', hb, hget, _⟩ := sharded_of_build Sample.isKeyed_document
    Sample.compile_document rfl Sample.build_spec (List.getElem_mem ht)
  have hstate : Atom.text "a-b-c" ∈ Sample.spec.semantics[0].2.names :=
    List.mem_cons_of_mem _ List.mem_cons_self
  have hentry : ∃ w, (Atom.text Deficiency.deuteranopia.name, w) ∈
      Sample.spec.semantics[0].2.vision := ⟨_, List.mem_cons_self⟩
  obtain ⟨w, hw⟩ := hentry
  exact ⟨_, List.getElem_mem ht, r', hc, hb, hget _ (.inl ⟨rfl, hstate⟩),
    hget _ (.inr ⟨.deuteranopia, w, hw, rfl, rfl⟩)⟩

end Spec
end Palette
