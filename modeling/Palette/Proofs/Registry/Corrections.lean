import Palette.Proofs.Registry.Tracks

/-!
# Corrections add what is not there

A correction moves a declared color at a site, under a deficiency for which the color has no colors
of its own, to a step of the ramp of the color. So it writes to no key that a record has, and no
two corrections write to one key.

* `Ramp.of_indexOf?`         the step of a color is on the ramp and has the color;
* `Correction.mem_all`, `Correction.distinct_all`   the entries of a correction, whatever its
                             measure;
* `Spec.correctionsIn`, `Spec.entriesIn`   corrections and builds by any measure;
* `Spec.exists_move`         each correction comes from a search at a site;
* `Spec.exists_of_mem_correctionsIn`   and is a record that tells the truth, with its color and the
                             deficiency;
* `Spec.distinct_entriesIn`  records and corrections together have distinct keys.
-/

set_option linter.unusedSectionVars false

namespace Palette

/-- the number of a color is that of its first step -/
theorem Ramp.first_of_indexOf? {r : Ramp} {h : Hex} {i : Int} (hi : r.indexOf? h = some i) :
    ∃ n : Nat, i = n ∧ r.colors[n]? = some h ∧ ∀ k < n, r.colors[k]? ≠ some h := by
  obtain ⟨j, hj, rfl⟩ := Option.map_eq_some_iff.1 hi
  obtain ⟨n, hn, hj⟩ := Option.bind_eq_some_iff.1 hj
  obtain rfl := Option.some.inj hj
  obtain ⟨hlt, hh, hfirst⟩ := List.idxOf?_eq_some_iff.1 hn
  refine ⟨n, rfl, List.getElem?_eq_some_iff.2 ⟨hlt, hh⟩, fun k hk he => ?_⟩
  obtain ⟨_, hk'⟩ := List.getElem?_eq_some_iff.1 he
  exact hfirst k hk hk'

theorem Ramp.of_indexOf? {r : Ramp} {h : Hex} {i : Int} (hi : r.indexOf? h = some i) :
    r.hasStep i = true ∧ r.color i = h := by
  obtain ⟨n, rfl, hn, _⟩ := first_of_indexOf? hi
  obtain ⟨hlt, hh⟩ := List.getElem?_eq_some_iff.1 hn
  have hc : ((n : Int), h) ∈ r.cells := by
    rw [cells, List.mem_mapIdx]
    exact ⟨n, hlt, by rw [hh]⟩
  exact mem_cells.1 hc

namespace Correction

theorem of_mem_scene {color? : VariantKey → Option Hex} {n : Atom} {s : Site} {c : Atom × Hex}
    (h : ((color? (VariantKey.atSite n VariantKey.plainVision s)).map fun x => (n, x)) = some c) :
    c.1 = n := by
  obtain ⟨x, _, rfl⟩ := Option.map_eq_some_iff.1 h
  rfl

variable {κ : Type} [LT κ] [DecidableLT κ] [LE κ] [DecidableLE κ] [Sub κ] [Mul κ]
variable {q : Request κ} {m : Deficiency} {s : Site} {sites : List Site}

theorem of_mem_moves {c : Atom × Hex} (h : c ∈ moves q m s) :
    c.1 ∈ q.semantics.keys ∧ q.explicit.contains (c.1, m) = false := by
  obtain ⟨hc, hp⟩ := List.mem_filter.1 h
  obtain ⟨n, hn, hx⟩ := List.mem_filterMap.1 hc
  rw [Bool.and_eq_true, Bool.not_eq_true'] at hp
  rw [of_mem_scene hx]
  rw [of_mem_scene hx] at hp
  exact ⟨hn, hp.2⟩

theorem pairwise_moves (hq : q.semantics.Distinct) :
    (moves q m s).Pairwise fun a b => (a.1 == b.1) = false := by
  refine List.Pairwise.filter _ ?_
  refine List.Pairwise.filterMap _ ?_ hq
  intro a b hab x hx y hy
  rw [of_mem_scene hx, of_mem_scene hy]
  exact hab

/-- the variant that moves a color has the color of the search, on its first step -/
theorem exists_replacement_of_move? {c : Atom × Hex} {x : VariantKey × Variant}
    (h : move? q m s c = some x) :
    ∃ t best step, q.semantics.lookup c.1 = some t ∧
      (q.gauge m).replacement? (passing q t s) c.2
        (((scene q.color? q.semantics.keys s).filter fun o => o.1.differs c.1).map
          fun o => (q.gauge m).look o.2) = some best ∧
      t.ramp.indexOf? best = some step ∧
      x = (VariantKey.atSite c.1 (.text m.name) s,
        { ramp := t.ramp.name, step := .number step, hex := best
          evaluation := q.engine.evaluate best s.surface.hex (s.context t.target q.level) }) := by
  obtain ⟨t, ht, h⟩ := Option.bind_eq_some_iff.1 h
  obtain ⟨best, hbest, h⟩ := Option.bind_eq_some_iff.1 h
  obtain ⟨step, hs, h⟩ := Option.bind_eq_some_iff.1 h
  exact ⟨t, best, step, ht, hbest, hs, (Option.some.inj h).symm⟩

theorem of_move? {c : Atom × Hex} {x : VariantKey × Variant} (h : move? q m s c = some x) :
    ∃ t step, q.semantics.lookup c.1 = some t ∧ t.ramp.hasStep step = true ∧
      x = (VariantKey.atSite c.1 (.text m.name) s,
        { ramp := t.ramp.name, step := .number step, hex := t.ramp.color step
          evaluation := q.engine.evaluate (t.ramp.color step) s.surface.hex
            (s.context t.target q.level) }) := by
  obtain ⟨t, best, step, ht, _, hs, rfl⟩ := exists_replacement_of_move? h
  obtain ⟨hstep, hcolor⟩ := Ramp.of_indexOf? hs
  exact ⟨t, step, ht, hstep, by rw [hcolor]⟩

theorem mem_all {x : VariantKey × Variant} :
    x ∈ all q sites ↔ ∃ m, ∃ s ∈ sites, ∃ c ∈ moves q m s, move? q m s c = some x := by
  constructor
  · intro h
    obtain ⟨m, _, h⟩ := List.mem_flatMap.1 h
    obtain ⟨s, hs, h⟩ := List.mem_flatMap.1 h
    obtain ⟨c, hc, h⟩ := List.mem_filterMap.1 h
    exact ⟨m, s, hs, c, hc, h⟩
  · rintro ⟨m, s, hs, c, hc, h⟩
    refine List.mem_flatMap.2 ⟨m, m.mem_all, List.mem_flatMap.2 ⟨s, hs, ?_⟩⟩
    exact List.mem_filterMap.2 ⟨c, hc, h⟩

theorem key_of_move? {c : Atom × Hex} {x : VariantKey × Variant} (h : move? q m s c = some x) :
    x.1 = VariantKey.atSite c.1 (.text m.name) s := by
  obtain ⟨t, step, _, _, rfl⟩ := of_move? h
  rfl

theorem distinct_all (hq : q.semantics.Distinct)
    (hs : sites.Pairwise fun a b => (a.setting == b.setting) = false) :
    Entries.Distinct (all q sites) := by
  have hm : Deficiency.all.Pairwise fun a b =>
      (Atom.text a.name == .text b.name) = false := by decide
  rw [Entries.Distinct, Entries.keys, List.pairwise_map, all, List.pairwise_flatMap]
  constructor
  · intro m _
    rw [List.pairwise_flatMap]
    constructor
    · intro s _
      refine (pairwise_moves hq).filterMap _ ?_
      intro a b hab x hx y hy
      rw [key_of_move? hx, key_of_move? hy, VariantKey.atSite_beq, hab]
      rfl
    · refine hs.imp fun hab x hx y hy => ?_
      obtain ⟨c, _, hx⟩ := List.mem_filterMap.1 hx
      obtain ⟨d, _, hy⟩ := List.mem_filterMap.1 hy
      rw [key_of_move? hx, key_of_move? hy, VariantKey.atSite_beq, hab, Bool.and_false]
  · refine hm.imp fun hab x hx y hy => ?_
    obtain ⟨s, _, hx⟩ := List.mem_flatMap.1 hx
    obtain ⟨s', _, hy⟩ := List.mem_flatMap.1 hy
    obtain ⟨c, _, hx⟩ := List.mem_filterMap.1 hx
    obtain ⟨d, _, hy⟩ := List.mem_filterMap.1 hy
    rw [key_of_move? hx, key_of_move? hy, VariantKey.atSite_beq, hab, Bool.and_false]
    rfl

end Correction

/-- the track on which a correction moves a semantic color -/
def Semantic.movedTrack (t : Semantic) (m : Deficiency) : Track :=
  ⟨t.name, .text m.name, t.target, t.ramp⟩

/-- has a semantic color no colors of its own under a deficiency? -/
def Semantic.Lacks (t : Semantic) (m : Deficiency) : Prop := ∀ v ∈ t.ownVision, v.1 ≠ m

namespace Spec
variable {p : Spec} {e : Engine} {variants : OrderedMap VariantKey Variant}

/-! ## other measures -/

section
variable {κ : Type} [LT κ] [DecidableLT κ] [LE κ] [DecidableLE κ] [Sub κ] [Mul κ]
variable (p) (e) (gauge : Deficiency → Gauge Hex κ)

/-- the request for corrections by a measure of any kind -/
def requestIn (variants : OrderedMap VariantKey Variant) : Correction.Request κ :=
  { p.request e variants with gauge }

/-- the variants that corrections by a measure of any kind add -/
def correctionsIn (variants : OrderedMap VariantKey Variant) : List (VariantKey × Variant) :=
  if p.config.correction.enabled.truthy then
    Correction.all (p.requestIn e gauge variants) p.sites
  else []

/-- the variants of a build by a measure of any kind -/
def entriesIn : Entries VariantKey Variant :=
  p.written e ++ p.correctionsIn e gauge (Record.variants (p.records e))

/-- the request of a build, which looks colors up in the list of its records -/
def requestOfRecords : Correction.Request κ :=
  { p.requestIn e gauge OrderedMap.empty with
    color? := fun k => ((p.written e).lookup k).map (·.hex) }

end

/-- the measure of a build in which colors look and differ otherwise -/
def gaugeBy (p : Spec) (look : Deficiency → Hex → Hex) (distance : Hex → Hex → Float)
    (m : Deficiency) : Gauge Hex Float :=
  { Correction.gauge p.config.correction m with look := look m, distance }

/-- the variants of a build in which colors look and differ otherwise -/
def entriesBy (p : Spec) (e : Engine) (look : Deficiency → Hex → Hex)
    (distance : Hex → Hex → Float) : Entries VariantKey Variant :=
  p.entriesIn e (p.gaugeBy look distance)

section
variable {κ : Type} [LT κ] [DecidableLT κ] [LE κ] [DecidableLE κ] [Sub κ] [Mul κ]
variable {gauge : Deficiency → Gauge Hex κ} {x : VariantKey × Variant}

/-- what corrections add comes from a search for a declared color at a site, under a deficiency for
which it has no colors of its own -/
theorem exists_move (hn : p.Named) (hx : x ∈ p.correctionsIn e gauge variants) :
    ∃ t ∈ p.semantics, ∃ m, t.2.Lacks m ∧ ∃ s ∈ p.sites, ∃ h,
      (t.1, h) ∈ Correction.moves (p.requestIn e gauge variants) m s ∧
        Correction.move? (p.requestIn e gauge variants) m s (t.1, h) = some x := by
  rw [correctionsIn] at hx
  split at hx
  · obtain ⟨m, s, hs, c, hc, hx⟩ := Correction.mem_all.1 hx
    obtain ⟨hkey, hexplicit⟩ := Correction.of_mem_moves hc
    obtain ⟨t, ht⟩ := Entries.mem_keys.1 hkey
    refine ⟨_, ht, m, fun v hv hvm => ?_, s, hs, c.2, hc, hx⟩
    have hmem : (t.name, m) ∈ p.semantics.flatMap fun t => t.2.explicit :=
      List.mem_flatMap.2 ⟨_, ht, List.mem_map.2 ⟨v, hv, by rw [hvm]⟩⟩
    rw [List.contains_eq_any_beq, List.any_eq_false] at hexplicit
    refine hexplicit _ hmem ?_
    show (c.1 == t.name && m == m) = true
    rw [BEq.comm, hn _ ht, beq_self_eq_true]
    rfl
  · cases hx

/-- what comes from a search is a record of the color on its ramp -/
theorem holds_of_move? (hp : p.Coherent) {t : Atom × Semantic} (ht : t ∈ p.semantics)
    {m : Deficiency} {s : Site} {h : Hex}
    (hx : Correction.move? (p.requestIn e gauge variants) m s (t.1, h) = some x) :
    ∃ r, Track.Holds p e (⟨t.1, .text m.name, t.2.target, t.2.ramp⟩, s) r ∧
      x = (r.key, r.variant) := by
  obtain ⟨t', step, hl, hstep, rfl⟩ := Correction.of_move? hx
  obtain rfl : t.2 = t' :=
    Option.some.inj ((Entries.lookup_of_mem hp.distinct_semantics ht).symm.trans hl)
  exact ⟨_, ⟨.number step, false, hstep, rfl⟩, rfl⟩

/-- an entry that corrections add is a record of a declared color at a site, on its ramp, under a
deficiency for which it has no colors of its own -/
theorem exists_of_mem_correctionsIn (hu : p.Unambiguous) (hp : p.Coherent)
    (hx : x ∈ p.correctionsIn e gauge variants) :
    ∃ t ∈ p.semantics, ∃ m, t.2.Lacks m ∧ ∃ s ∈ p.sites, ∃ r,
      Track.Holds p e (t.2.movedTrack m, s) r ∧ x = (r.key, r.variant) := by
  obtain ⟨t, ht, m, hm, s, hs, h, _, hmove⟩ := exists_move hu.toNamed hx
  have hholds := holds_of_move? hp ht hmove
  rw [← hu.named t ht] at hholds
  exact ⟨t, ht, m, hm, s, hs, hholds⟩

theorem exists_of_mem_corrections (hu : p.Unambiguous) (hp : p.Coherent)
    (hx : x ∈ p.corrections e variants) :
    ∃ t ∈ p.semantics, ∃ m, t.2.Lacks m ∧ ∃ s ∈ p.sites, ∃ r,
      Track.Holds p e (t.2.movedTrack m, s) r ∧ x = (r.key, r.variant) :=
  exists_of_mem_correctionsIn hu hp hx

theorem distinct_correctionsIn (hp : p.Coherent) :
    Entries.Distinct (p.correctionsIn e gauge variants) := by
  rw [correctionsIn]
  split
  · exact Correction.distinct_all hp.distinct_semantics hp.pairwise_sites
  · exact Entries.distinct_nil

/-- a track that corrections move is no track of the specification -/
theorem Named.apart_movedTrack (hn : p.Named) (hp : p.Coherent) {t : Atom × Semantic}
    (ht : t ∈ p.semantics) {m : Deficiency} (hm : t.2.Lacks m) {c : Track} (hc : c ∈ p.tracks) :
    c.Apart (t.2.movedTrack m) := by
  obtain ⟨t', ht', hc⟩ := List.mem_flatMap.1 hc
  rcases List.mem_append.1 hc with hc | hc
  · obtain ⟨n, _, rfl⟩ := List.mem_map.1 hc
    exact Track.apart_of_vision (Semantic.plain_beq_name m)
  · obtain ⟨v, hv, rfl⟩ := List.mem_map.1 hc
    by_cases hvm : v.1 = m
    -- colors that have their own under this deficiency are other colors, so they have other names
    · refine Track.apart_of_token ?_
      rw [← Bool.not_eq_true]
      intro hb
      have hk : (t'.1 == t.1) = true :=
        BEq.trans (BEq.symm (hn t' ht')) (BEq.trans hb (hn t ht))
      have hl := Entries.lookup_congr p.semantics hk
      rw [Entries.lookup_of_mem hp.distinct_semantics ht',
        Entries.lookup_of_mem hp.distinct_semantics ht] at hl
      rw [Option.some.inj hl] at hv
      exact hm v hv hvm
    · refine Track.apart_of_vision ?_
      show (Atom.text v.1.name == .text m.name) = false
      rw [Atom.text_beq]
      exact beq_false_of_ne fun h => hvm (Deficiency.name_injective h)

/-- corrections write to no key of a record -/
theorem Named.beq_of_mem_correctionsIn (hn : p.Named) (hp : p.Coherent)
    (hx : x ∈ p.correctionsIn e gauge variants) :
    ∀ k ∈ (p.written e).keys, (k == x.1) = false := by
  intro k hk
  rw [keys_written hp] at hk
  obtain ⟨⟨c, s⟩, hcs, rfl⟩ := List.mem_map.1 hk
  obtain ⟨t, ht, m, hm, s', _, h, _, hmove⟩ := exists_move hn hx
  rw [Correction.key_of_move? hmove]
  have hname : (VariantKey.atSite t.2.name (.text m.name) s' ==
      VariantKey.atSite t.1 (.text m.name) s') = true := by
    rw [VariantKey.atSite_beq, hn t ht, BEq.rfl, BEq.rfl]
    rfl
  rw [← BEq.congr_right hname]
  exact Track.key_beq_of_apart (hn.apart_movedTrack hp ht hm (List.mem_product.1 hcs).1) s s'

theorem requestIn_records (hu : p.Unambiguous) (hp : p.Coherent) :
    p.requestIn e gauge (Record.variants (p.records e)) = p.requestOfRecords e gauge := by
  have hcolor : (fun k => ((Record.variants (p.records e)).get? k).map (·.hex)) =
      fun k => ((p.written e).lookup k).map (·.hex) := by
    funext k
    rw [← OrderedMap.lookup_toList, toList_variants_records hu hp]
  rw [requestIn, request, hcolor]
  rfl

/-- what is found at one site is among the corrections -/
theorem exists_correction (hu : p.Unambiguous) (hp : p.Coherent)
    (henabled : p.config.correction.enabled.truthy = true) {m : Deficiency} {s : Site}
    (hs : s ∈ p.sites) {f : VariantKey × Variant → Bool}
    (h : ((Correction.moves (p.requestOfRecords e gauge) m s).filterMap
      (Correction.move? (p.requestOfRecords e gauge) m s)).any f = true) :
    ∃ x ∈ p.correctionsIn e gauge (Record.variants (p.records e)), f x = true := by
  obtain ⟨x, hx, hf⟩ := List.any_eq_true.1 h
  obtain ⟨c, hc, hmove⟩ := List.mem_filterMap.1 hx
  refine ⟨x, ?_, hf⟩
  rw [correctionsIn, if_pos henabled, requestIn_records hu hp]
  exact Correction.mem_all.2 ⟨m, s, hs, c, hc, hmove⟩

theorem distinct_entriesIn (hu : p.Unambiguous) (hp : p.Coherent) :
    (p.entriesIn e gauge).Distinct := by
  rw [entriesIn, Entries.distinct_append]
  refine ⟨distinct_written hu hp, distinct_correctionsIn hp, fun k hk k' hk' => ?_⟩
  obtain ⟨v, hv⟩ := Entries.mem_keys.1 hk'
  exact hu.toNamed.beq_of_mem_correctionsIn hp hv k hk

end

end Spec
end Palette
