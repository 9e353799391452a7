import Palette.Proofs.Registry.Corrections

/-!
# What a build returns

A build that returns has recorded every place of the grid and then added corrections, and the
registry has all of it.

* `Spec.build_ok`                when a build returns, and what;
* `Spec.entries`                 the records and the corrections after them;
* `Spec.Named.toList_variants`   corrections stand after what is there without them;
* `Spec.toList_variants_of_build`  so these are the variants of the registry, in this order;
* `Spec.get?_of_record`          so each record is found under its key;
* `Spec.exists_of_mem_entriesIn`   and each variant is a record of a track or of a moved one;
* `Sample`                       a small specification with its registry.
-/

namespace Palette.Spec
open Outcome
variable {p : Spec} {e : Engine} {generatedAt : String} {r : Registry}

theorem build_ok :
    p.build e generatedAt = .ok r ↔
      p.checkRecords e = .ok () ∧ ∃ failures, Record.failures (p.records e) = .ok failures ∧
        (p.config.policy.fatal && !failures.isEmpty) = false ∧
        p.assemble e generatedAt (p.records e) failures = r := by
  rw [build, bind_ok]
  constructor
  · rintro ⟨_, hc, h⟩
    obtain ⟨failures, hf, h⟩ := bind_ok.1 h
    refine ⟨hc, failures, hf, ?_⟩
    cases hx : p.config.policy.fatal && !failures.isEmpty with
    | true =>
      rw [hx] at h
      cases h
    | false =>
      rw [hx] at h
      exact ⟨rfl, pure_ok.1 h⟩
  · rintro ⟨hc, failures, hf, hx, rfl⟩
    refine ⟨(), hc, bind_ok.2 ⟨failures, hf, ?_⟩⟩
    rw [hx]
    rfl

/-- the records with the corrections that they call for -/
def entries (p : Spec) (e : Engine) : Entries VariantKey Variant :=
  p.written e ++ p.corrections e (Record.variants (p.records e))

section
variable {κ : Type} [LT κ] [DecidableLT κ] [LE κ] [DecidableLE κ] [Sub κ] [Mul κ]
variable {gauge : Deficiency → Gauge Hex κ}

/-- a key of a variant is one that a record writes, so corrections do not write to it -/
theorem Named.beq_of_mem_variants (hn : p.Named) (hp : p.Coherent) {x : VariantKey × Variant}
    (hx : x ∈ p.correctionsIn e gauge (Record.variants (p.records e))) :
    ∀ k ∈ (Record.variants (p.records e)).toList.keys, (k == x.1) = false := by
  intro k hk
  obtain ⟨v, hv⟩ := Entries.mem_keys.1 hk
  rw [Record.variants, OrderedMap.toList_ofList] at hv
  obtain ⟨y, hy, hbeq, _⟩ := Entries.exists_of_mem_ofList hv
  rw [← BEq.congr_left hbeq]
  exact hn.beq_of_mem_correctionsIn hp hx _ (Entries.mem_keys_of_mem hy)

end

/-- corrections stand after the variants that are there without them -/
theorem Named.toList_variants (hn : p.Named) (hp : p.Coherent)
    (hb : p.build e generatedAt = .ok r) :
    r.variants.toList = (Record.variants (p.records e)).toList ++
      p.corrections e (Record.variants (p.records e)) := by
  obtain ⟨_, failures, _, _, rfl⟩ := build_ok.1 hb
  show ((Record.variants (p.records e)).insertAll _).toList = _
  rw [OrderedMap.toList_insertAll]
  refine Entries.putAll_of_distinct _ _ ((Entries.distinct_append _ _).2 ?_)
  refine ⟨OrderedMap.distinct_toList _, distinct_correctionsIn hp, fun k hk k' hk' => ?_⟩
  obtain ⟨v, hv⟩ := Entries.mem_keys.1 hk'
  exact hn.beq_of_mem_variants hp hv k hk

section
variable (hu : p.Unambiguous) (hp : p.Coherent) (hb : p.build e generatedAt = .ok r)
include hu hp hb

theorem toList_variants_of_build : r.variants.toList = p.entries e := by
  rw [hu.toNamed.toList_variants hp hb, toList_variants_records hu hp]
  rfl

theorem get?_of_record {x : Record} (hx : x ∈ p.records e) :
    r.variants.get? x.key = some x.variant := by
  refine r.variants.get?_of_mem ?_
  rw [toList_variants_of_build hu hp hb, entries]
  exact List.mem_append_left _ (List.mem_map.2 ⟨x, hx, rfl⟩)

end

section
variable {κ : Type} [LT κ] [DecidableLT κ] [LE κ] [DecidableLE κ] [Sub κ] [Mul κ]
variable {gauge : Deficiency → Gauge Hex κ}

/-- whatever the measure, what is there is a record of a track or of a moved one -/
theorem exists_of_mem_entriesIn (hu : p.Unambiguous) (hp : p.Coherent) {x : VariantKey × Variant}
    (hx : x ∈ p.entriesIn e gauge) :
    ∃ c, ∃ s ∈ p.sites, (∃ y, Track.Holds p e (c, s) y ∧ x = (y.key, y.variant)) ∧
      (c ∈ p.tracks ∨ ∃ t ∈ p.semantics, ∃ m, t.2.Lacks m ∧ c = t.2.movedTrack m) := by
  rcases List.mem_append.1 hx with hx | hx
  · obtain ⟨y, hy, rfl⟩ := List.mem_map.1 hx
    obtain ⟨⟨c, s⟩, hcs, hc⟩ := exists_of_mem_right (forall₂_records hp) hy
    obtain ⟨hc', hs⟩ := List.mem_product.1 hcs
    exact ⟨c, s, hs, ⟨y, hc, rfl⟩, .inl hc'⟩
  · obtain ⟨t, ht, m, hm, s, hs, y, hy, rfl⟩ := exists_of_mem_correctionsIn hu hp hx
    exact ⟨_, s, hs, ⟨y, hy, rfl⟩, .inr ⟨t, ht, m, hm, rfl⟩⟩

end

theorem exists_of_mem_entries (hu : p.Unambiguous) (hp : p.Coherent) {x : VariantKey × Variant}
    (hx : x ∈ p.entries e) :
    ∃ c, ∃ s ∈ p.sites, (∃ y, Track.Holds p e (c, s) y ∧ x = (y.key, y.variant)) ∧
      (c ∈ p.tracks ∨ ∃ t ∈ p.semantics, ∃ m, t.2.Lacks m ∧ c = t.2.movedTrack m) :=
  exists_of_mem_entriesIn hu hp hx

end Palette.Spec

/-! ## a small specification

Names that run into one another, a ramp that repeats a color and turns back, a theme on which steps
are mirrored, overrides, a deficiency with colors of its own and an entry for none, and two colors
that differ in green. The engine looks at red alone and points away from the colors that pass. -/

namespace Palette.Sample

/-- the value -/
def document : Document := .record [
  ("primitives", .record [
    ("gray", .list [.text "#000000", .text "#777777", .text "#bbbbbb", .text "#ffffff"]),
    ("sand", .list [.text "#ffffff", .text "#000000", .text "#ffffff"]),
    ("red", .list [.text "#0000ff", .text "#640000"]),
    ("green", .list [.text "#65c000"])]),
  ("themes", .record [
    ("day", .record [("ramp", .text "gray"), ("step", .int 3)]),
    ("night", .record [("ramp", .text "gray"), ("step", .int 0)])]),
  ("foreground", .record [
    ("a", .record [("ramp", .text "gray"), ("defaultStep", .int 1),
      ("overrides", .list [.record [("bg", .text "day"), ("step", .int 0)]]),
      ("interactions", .record [("b-c", .record [("step", .int 2)])]),
      ("vision", .record [
        ("deuteranopia", .record [("ramp", .text "sand"), ("defaultStep", .int 0)]),
        ("dusk", .record [])])]),
    ("a-b", .record [("ramp", .text "sand"), ("defaultStep", .int 2),
      ("interactions", .record [("d", .record [("step", .int 1),
        ("overrides", .list [.record [("fontSize", .text "12px"), ("step", .int 0)]])])])])]),
  ("nonText", .record [
    ("rule", .record [("ramp", .text "gray"), ("defaultStep", .int 2),
      ("decorative", .bool true)]),
    ("stop", .record [("ramp", .text "red"), ("defaultStep", .int 0), ("decorative", .bool true)]),
    ("go", .record [("ramp", .text "green"), ("defaultStep", .int 0),
      ("decorative", .bool true)])]),
  ("config", .record [
    ("stacks", .record [("root", .int 0), ("card", .int 1)]),
    ("stepSelectionStrategy", .text "mirror-closest")])]

/-- the engine -/
def engine : Engine where
  id := "red"
  exempts _ := false
  admits _ := .ok ()
  evaluate color background _ :=
    { passed := 100 + min color.red.toNat background.red.toNat ≤
        max color.red.toNat background.red.toNat
      metric := "red", value := 0.0, required := none, polarity := none }
  preferred := some fun background => if 128 ≤ background.red.toNat then .lighter else .darker

theorem isKeyed_document : document.isKeyed = true := by decide

/-- the specification -/
def spec : Spec := (Spec.compile document).toOption.get (by decide)

theorem compile_document : Spec.compile document = .ok spec := Outcome.eq_ok_get _

/-- the registry -/
def registry : Registry := (spec.build engine "now").toOption.get (by decide)

theorem build_spec : spec.build engine "now" = .ok registry := Outcome.eq_ok_get _

end Palette.Sample
