import Mathlib.Data.List.Perm.Basic
import Mathlib.Data.List.ProdSigma
import Palette.Proofs.Registry.Passes
import Palette.Proofs.Spec.Names

/-!
# Tracks

A track is a color on one ramp under one vision: that of a semantic color, of a state of it, or of
a deficiency for which it has colors of its own. The records of a specification are its tracks at
its sites.

* `Semantic.tracks`, `Spec.tracks`   the tracks, color by color;
* `Spec.grid`            each track at each site, with `Track.key` the key there;
* `Track.Holds`          a record has a step of the track at the site, and tells the truth about it;
* `Spec.forall₂_records` the records are those of the grid, in its order;
* `Spec.pairwise_grid`   no two places of the grid have one key, if no name stands for two.
-/

namespace Palette

/-- a color on a ramp under a vision -/
structure Track where
  token : Atom
  vision : Atom
  target : Target
  ramp : Ramp

namespace Track

/-- the key of a track at a site -/
def key (c : Track × Site) : VariantKey := VariantKey.atSite c.1.token c.1.vision c.2

/-- is a record that of a step of the track at the site? -/
def Holds (p : Spec) (e : Engine) (c : Track × Site) (r : Record) : Prop :=
  ∃ step manual, c.1.ramp.hasStep step.index = true ∧
    r = Record.of p e c.1.token c.1.vision c.1.target c.1.ramp c.2 step manual

end Track

/-- the name of a semantic color and those that its states derive -/
def Semantic.names (t : Semantic) : List Atom :=
  t.name :: t.interactions.map fun i => .text (Spec.derivedName t.name i.1)

/-- the tracks without deficiency -/
def Semantic.plainTracks (t : Semantic) : List Track :=
  t.names.map fun n => ⟨n, VariantKey.plainVision, t.target, t.ramp⟩

/-- the track under a deficiency for which there are colors of its own -/
def Semantic.ownTrack (t : Semantic) (v : Deficiency × VisionEntry) : Track :=
  ⟨t.name, .text v.1.name, t.target, v.2.ramp⟩

/-- the tracks of a semantic color -/
def Semantic.tracks (t : Semantic) : List Track := t.plainTracks ++ t.ownVision.map t.ownTrack

namespace Spec

/-- the tracks of a specification -/
def tracks (p : Spec) : List Track := p.semantics.flatMap fun t => t.2.tracks

/-- each track at each site -/
def grid (p : Spec) : List (Track × Site) := p.tracks ×ˢ p.sites

end Spec

/-! ## records -/

namespace Semantic
open List (Forall₂)
variable {t : Semantic} {p : Spec} {e : Engine}

/-- the sites of a track -/
def row (p : Spec) (c : Track) : List (Track × Site) := p.sites.map (Prod.mk c)

theorem forall₂_row {c : Track} {f : Site → Record} (h : ∀ s, Track.Holds p e (c, s) (f s)) :
    Forall₂ (Track.Holds p e) (row p c) (p.sites.map f) := by
  rw [row, List.forall₂_map_left_iff, List.forall₂_map_right_iff, List.forall₂_same]
  exact fun s _ => h s

theorem forall₂_pass {q : Pass} (hq : q.Fits) (hp : p.Coherent) :
    Forall₂ (Track.Holds p e) (row p ⟨q.token, q.vision, q.target, q.ramp⟩)
      (q.records p e (q.steps p e)) := by
  rw [Pass.records_eq]
  exact forall₂_row fun s =>
    ⟨q.stepAt p e s, isManual q.overrides s, Pass.hasStep_stepAt hq hp, rfl⟩

/-- the records of a state, whatever the steps of the color itself -/
theorem forall₂_state (ht : t.Fits p.ramps) (f : Site → Choice) {state : Atom} {i : Interaction}
    (hi : i.Fits t.ramp) :
    Forall₂ (Track.Holds p e)
      (row p ⟨.text (Spec.derivedName t.name state), VariantKey.plainVision, t.target, t.ramp⟩)
      (t.stateRecords p e (p.sites.map fun s => (s, f s)) state i) := by
  rw [stateRecords, List.map_map]
  refine forall₂_row fun s => ?_
  cases h : (Override.patch [] (i.overrides.map Override.named) p.axes).lookup s.setting with
  | some c =>
    refine ⟨c, true, ?_, by simp [h]⟩
    rcases Override.exists_of_lookup_patch h with ⟨_, hr, _⟩ | ⟨o, ho, _, rfl⟩
    · cases hr
    · obtain ⟨o', ho', rfl⟩ := List.mem_map.1 ho
      exact hi.overrides o' ho'
  | none =>
    refine ⟨.number (t.shifted i s (f s).index), false, ?_, by simp [h]⟩
    have hd := (t.ramp.hasStep_iff _).1 ht.default
    exact t.ramp.clamp_mem _ (by omega)

theorem forall₂_records (ht : t.Fits p.ramps) (hp : p.Coherent) :
    Forall₂ (Track.Holds p e) (t.tracks.flatMap (row p)) (t.records p e) := by
  have hpass := ht.passes
  have hbase := forall₂_pass (e := e) (hpass t.basePass List.mem_cons_self) hp
  have hstates : Forall₂ (Track.Holds p e)
      (t.interactions.flatMap fun i => row p
        ⟨.text (Spec.derivedName t.name i.1), VariantKey.plainVision, t.target, t.ramp⟩)
      (t.interactions.flatMap fun i =>
        t.stateRecords p e (t.basePass.steps p e) i.1 i.2) :=
    Outcome.forall₂_flatMap fun i hi => forall₂_state ht (t.basePass.stepAt p e) (ht.states i hi)
  have hown : Forall₂ (Track.Holds p e) (t.ownVision.flatMap fun v => row p (t.ownTrack v))
      (t.ownVision.flatMap fun v =>
        (t.visionPass v.1 v.2).records p e ((t.visionPass v.1 v.2).steps p e)) :=
    Outcome.forall₂_flatMap fun v hv =>
      forall₂_pass (hpass _ (List.mem_cons_of_mem _ (List.mem_map_of_mem hv))) hp
  rw [tracks, plainTracks, names, List.map_cons, List.flatMap_append, List.flatMap_cons,
    List.map_map, List.flatMap_map, List.flatMap_map]
  exact List.rel_append (List.rel_append hbase hstates) hown

end Semantic

namespace Spec
variable {p : Spec} {e : Engine}

theorem grid_eq : p.grid = p.semantics.flatMap fun t => t.2.tracks.flatMap (Semantic.row p) := by
  show (p.semantics.flatMap _).flatMap (Semantic.row p) = _
  rw [List.flatMap_assoc]

theorem forall₂_records (hp : p.Coherent) :
    List.Forall₂ (Track.Holds p e) p.grid (p.records e) := by
  rw [grid_eq, records]
  exact Outcome.forall₂_flatMap fun t ht => Semantic.forall₂_records (hp.semantic t ht) hp

end Spec

/-! ## keys -/

theorem VariantKey.beq_iff_parts {a b : VariantKey} :
    (a == b) = true ↔ (a.token == b.token) = true ∧ (a.fontSize == b.fontSize) = true ∧
      (a.theme == b.theme) = true ∧ (a.stack == b.stack) = true ∧
      (a.vision == b.vision) = true := by
  rw [beq_iff, normal, normal]
  simp only [Prod.mk.injEq, Atom.beq_iff]

theorem VariantKey.atSite_beq {n v n' v' : Atom} {s s' : Site} :
    (atSite n v s == atSite n' v' s') = (n == n' && v == v' && s.setting == s'.setting) := by
  rw [Bool.eq_iff_iff, beq_iff_parts]
  simp only [atSite, Site.setting, Bool.and_eq_true, Setting.beq_iff]
  constructor
  · rintro ⟨hn, hf, ht, hk, hv⟩
    exact ⟨⟨hn, hv⟩, ht, hf, hk⟩
  · rintro ⟨⟨hn, hv⟩, ht, hf, hk⟩
    exact ⟨hn, hf, ht, hk, hv⟩

/-- do two tracks differ in name or vision? -/
def Track.Apart (a b : Track) : Prop := (a.token == b.token && a.vision == b.vision) = false

theorem Track.Apart.symm {a b : Track} (h : a.Apart b) : b.Apart a := by
  rw [Apart, BEq.comm (a := b.token), BEq.comm (a := b.vision)]
  exact h

theorem Track.apart_of_token {a b : Track} (h : (a.token == b.token) = false) : a.Apart b := by
  rw [Apart, h]
  rfl

theorem Track.apart_of_vision {a b : Track} (h : (a.vision == b.vision) = false) : a.Apart b := by
  rw [Apart, h, Bool.and_false]

theorem Track.key_beq_of_apart {a b : Track} (h : a.Apart b) (s s' : Site) :
    (key (a, s) == key (b, s')) = false := by
  rw [key, key, VariantKey.atSite_beq, h]
  rfl

namespace Semantic
variable {t : Semantic} {ramps : Ramps}

theorem token_mem_names {c : Track} (h : c ∈ t.tracks) : c.token ∈ t.names := by
  rcases List.mem_append.1 h with h | h
  · obtain ⟨n, hn, rfl⟩ := List.mem_map.1 h
    exact hn
  · obtain ⟨v, _, rfl⟩ := List.mem_map.1 h
    exact List.mem_cons_self

/-- no deficiency is named like the vision without one -/
theorem plain_beq_name (m : Deficiency) : (VariantKey.plainVision == .text m.name) = false := by
  cases m <;> decide

theorem plain_ne_name (m : Deficiency) : VariantKey.plainVision ≠ .text m.name := by
  intro h
  have hb := plain_beq_name m
  rw [h, BEq.rfl] at hb
  cases hb

theorem pairwise_ownVision (h : t.Fits ramps) :
    t.ownVision.Pairwise fun a b => (Atom.text a.1.name == .text b.1.name) = false := by
  refine (List.pairwise_map.1 h.distinct_vision).filterMap _ ?_
  intro a b hab x hx y hy
  rw [key_of_own hx, key_of_own hy] at hab
  exact hab

theorem pairwise_tracks (h : t.Fits ramps)
    (hn : t.names.Pairwise fun a b => (a == b) = false) : t.tracks.Pairwise Track.Apart := by
  rw [tracks, List.pairwise_append, plainTracks, List.pairwise_map, List.pairwise_map]
  refine ⟨hn.imp Track.apart_of_token, (pairwise_ownVision h).imp Track.apart_of_vision, ?_⟩
  intro a ha b hb
  obtain ⟨n, _, rfl⟩ := List.mem_map.1 ha
  obtain ⟨v, _, rfl⟩ := List.mem_map.1 hb
  exact Track.apart_of_vision (plain_beq_name v.1)

end Semantic

namespace Spec
variable {p : Spec}

namespace Unambiguous

theorem pairwise_names (hu : p.Unambiguous) :
    (p.semantics.flatMap fun t => t.2.names).Pairwise fun a b => (a == b) = false := by
  have hnames : p.semantics.flatMap (fun t => t.2.names) = p.semantics.flatMap fun t =>
      t.1 :: t.2.interactions.map fun i => .text (derivedName t.1 i.1) := by
    refine List.flatMap_congr fun t ht => ?_
    rw [Semantic.names, hu.named t ht]
  -- the check looks at the declared names first and then at all derived ones
  rw [hnames, ← (List.map_append_flatMap_perm _ _ _).pairwise_iff fun h => BEq.symm_false h]
  exact hu.distinct

theorem pairwise_tracks (hu : p.Unambiguous) (hp : p.Coherent) :
    p.tracks.Pairwise Track.Apart := by
  have hn := List.pairwise_flatMap.1 hu.pairwise_names
  rw [tracks, List.pairwise_flatMap]
  refine ⟨fun t ht => Semantic.pairwise_tracks (hp.semantic t ht) (hn.1 t ht), ?_⟩
  refine hn.2.imp fun h a ha b hb => Track.apart_of_token ?_
  exact h _ (Semantic.token_mem_names ha) _ (Semantic.token_mem_names hb)

theorem pairwise_grid (hu : p.Unambiguous) (hp : p.Coherent) :
    p.grid.Pairwise fun a b => (Track.key a == Track.key b) = false := by
  show (p.tracks.flatMap fun c => p.sites.map (Prod.mk c)).Pairwise _
  rw [List.pairwise_flatMap]
  constructor
  · intro c _
    rw [List.pairwise_map]
    refine hp.pairwise_sites.imp fun h => ?_
    rw [Track.key, Track.key, VariantKey.atSite_beq, h, Bool.and_false]
  · refine (hu.pairwise_tracks hp).imp fun h a ha b hb => ?_
    obtain ⟨s, _, rfl⟩ := List.mem_map.1 ha
    obtain ⟨s', _, rfl⟩ := List.mem_map.1 hb
    exact Track.key_beq_of_apart h s s'

end Unambiguous

theorem keys_records {e : Engine} (hp : p.Coherent) :
    (p.records e).map Record.key = p.grid.map Track.key := by
  have h := forall₂_records (e := e) hp
  rw [← List.forall₂_eq_eq_eq, List.forall₂_map_left_iff, List.forall₂_map_right_iff]
  refine h.flip.imp fun r c hr => ?_
  obtain ⟨step, manual, _, rfl⟩ := hr
  rfl

/-- the entries that records write -/
def written (p : Spec) (e : Engine) : Entries VariantKey Variant :=
  (p.records e).map fun r => (r.key, r.variant)

theorem keys_written {e : Engine} (hp : p.Coherent) :
    (p.written e).keys = p.grid.map Track.key := by
  rw [← keys_records (e := e) hp, written, Entries.keys, List.map_map]
  rfl

theorem distinct_written {e : Engine} (hu : p.Unambiguous) (hp : p.Coherent) :
    (p.written e).Distinct := by
  rw [Entries.Distinct, keys_written hp, List.pairwise_map]
  exact hu.pairwise_grid hp

theorem toList_variants_records {e : Engine} (hu : p.Unambiguous) (hp : p.Coherent) :
    (Record.variants (p.records e)).toList = p.written e := by
  rw [Record.variants, OrderedMap.toList_ofList]
  exact Entries.ofList_of_distinct (distinct_written hu hp)

end Spec
end Palette
