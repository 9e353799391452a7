import Palette.Proofs.Archive.Codec
import Palette.Proofs.Registry.Built
import Palette.Proofs.Text.Hexadecimal

/-!
# Archives survive transport

Whatever archive there is, made from a registry or read from any document, is written to a document
that is read as the same archive. What a document says in other ways than archives are written
(keys twice, keys of four parts, null members, texts for lists) is settled by the first reading.

* `Archive.normal_of_ofDocument`   what is read is in normal form;
* `Registry.normal_archive`        so is the stored form of a registry;
* `Registry.same_of_archive`       it keeps every field of the registry;
* `Archive.Obtained`               the archives that there are;
* `Archive.Obtained.exists_same`   they survive transport.
-/

namespace Palette
open Outcome

/-! ## what is read -/

theorem Archive.distinct_of_entriesOf {α : Type} {f : Document → Except Fault α} {d : Document}
    {m : Entries Atom α} (h : entriesOf f d = .ok m) : m.Distinct := by
  obtain ⟨_, _, h⟩ := bind_ok.1 h
  obtain ⟨ws, _, h⟩ := bind_ok.1 h
  rw [← pure_ok.1 h]
  exact Entries.distinct_ofList ws

theorem Archive.exists_of_entriesOf {α : Type} {f : Document → Except Fault α} {d : Document}
    {m : Entries Atom α} (h : entriesOf f d = .ok m) {e : Atom × α} (he : e ∈ m) :
    ∃ v, f v = .ok e.2 := by
  obtain ⟨_, _, h⟩ := bind_ok.1 h
  obtain ⟨ws, hw, h⟩ := bind_ok.1 h
  rw [← pure_ok.1 h] at he
  obtain ⟨w, hm, _, hv⟩ := Entries.exists_of_mem_ofList he
  obtain ⟨p, _, hp⟩ := exists_of_mem_right (mapM_ok.1 hw) hm
  obtain ⟨⟨k, v⟩, _, hp⟩ := bind_ok.1 hp
  obtain ⟨x, hx, hp⟩ := bind_ok.1 hp
  obtain ⟨_, _, hp⟩ := bind_ok.1 hp
  rw [← hv, ← pure_ok.1 hp]
  exact ⟨v, hx⟩

theorem StoredTheme.distinct_of_ofDocument {d : Document} {t : StoredTheme}
    (h : ofDocument d = .ok t) : t.surfaces.Distinct := by
  obtain ⟨_, _, h⟩ := bind_ok.1 h
  obtain ⟨surfaces, hs, h⟩ := bind_ok.1 h
  obtain ⟨name, _, h⟩ := bind_ok.1 h
  obtain ⟨ramp, _, h⟩ := bind_ok.1 h
  obtain ⟨step, _, h⟩ := bind_ok.1 h
  obtain ⟨hex, _, h⟩ := bind_ok.1 h
  obtain ⟨luminance, _, h⟩ := bind_ok.1 h
  obtain ⟨_, _, h⟩ := bind_ok.1 h
  obtain ⟨fallback, _, h⟩ := bind_ok.1 h
  obtain ⟨_, _, h⟩ := bind_ok.1 h
  obtain ⟨aliases, _, h⟩ := bind_ok.1 h
  obtain ⟨elevation, _, h⟩ := bind_ok.1 h
  obtain rfl := pure_ok.1 h
  exact Archive.distinct_of_entriesOf hs

theorem StoredEvaluation.normal_of_ofDocument {d : Document} {v : StoredEvaluation}
    (h : ofDocument d = .ok v) : v.Normal := by
  have hpresent {name : String} {o : Option Document} (hp : present d name = .ok o) :
      ∀ x ∈ o, x.isNull = false := by
    obtain ⟨o', _, hp⟩ := bind_ok.1 hp
    intro x hx
    rw [← pure_ok.1 hp, Option.mem_filter_iff] at hx
    exact Bool.not_eq_true' _ ▸ hx.2
  obtain ⟨_, _, h⟩ := bind_ok.1 h
  obtain ⟨_, _, h⟩ := bind_ok.1 h
  obtain ⟨_, _, h⟩ := bind_ok.1 h
  obtain ⟨_, _, h⟩ := bind_ok.1 h
  obtain ⟨required, hr, h⟩ := bind_ok.1 h
  obtain ⟨polarity, hp, h⟩ := bind_ok.1 h
  obtain rfl := pure_ok.1 h
  exact ⟨hpresent hr, hpresent hp⟩

theorem StoredVariant.normal_of_ofDocument {d : Document} {v : StoredVariant}
    (h : ofDocument d = .ok v) : v.evaluation.Normal := by
  obtain ⟨_, _, h⟩ := bind_ok.1 h
  obtain ⟨_, _, h⟩ := bind_ok.1 h
  obtain ⟨_, _, h⟩ := bind_ok.1 h
  obtain ⟨_, _, h⟩ := bind_ok.1 h
  obtain ⟨evaluation, he, h⟩ := bind_ok.1 h
  obtain rfl := pure_ok.1 h
  exact StoredEvaluation.normal_of_ofDocument he

theorem Document.distinct_of_dictionary {d : Document} (hd : d.isKeyed = true)
    {m : Entries Atom Document} (h : d.dictionary = .ok m) : m.Distinct := by
  have hrows {d : Document} (h : (do
      let rows ← d.elements
      let ws ← rows.zipIdx.mapM fun r : Document × Nat => entryAt r.2 r.1
      return Entries.ofList ws) = .ok m) : m.Distinct := by
    obtain ⟨_, _, h⟩ := bind_ok.1 h
    obtain ⟨ws, _, h⟩ := bind_ok.1 h
    rw [← pure_ok.1 h]
    exact Entries.distinct_ofList ws
  cases d with
  | map members =>
    obtain rfl := Except.ok.inj h
    exact ((isKeyed_map _).1 hd).1
  | _ => exact hrows h

namespace Archive

theorem normal_of_parts {d : Document} (hd : d.isKeyed = true) {a : Archive}
    (h : parts d = .ok a) : a.Normal := by
  obtain ⟨_, _, h⟩ := bind_ok.1 h
  obtain ⟨_, _, h⟩ := bind_ok.1 h
  obtain ⟨variants, hv, h⟩ := bind_ok.1 h
  obtain ⟨_, _, h⟩ := bind_ok.1 h
  obtain ⟨ramps, hr, h⟩ := bind_ok.1 h
  obtain ⟨_, _, h⟩ := bind_ok.1 h
  obtain ⟨themes, ht, h⟩ := bind_ok.1 h
  obtain ⟨_, _, h⟩ := bind_ok.1 h
  obtain ⟨fallbacks, hf, h⟩ := bind_ok.1 h
  obtain ⟨_, _, h⟩ := bind_ok.1 h
  obtain ⟨layers, hl, h⟩ := bind_ok.1 h
  obtain ⟨_, hn, h⟩ := bind_ok.1 h
  obtain ⟨defaults, hdef, h⟩ := bind_ok.1 h
  obtain ⟨_, _, h⟩ := bind_ok.1 h
  obtain ⟨info, _, h⟩ := bind_ok.1 h
  obtain ⟨_, _, h⟩ := bind_ok.1 h
  obtain ⟨warnings, _, h⟩ := bind_ok.1 h
  obtain rfl := pure_ok.1 h
  exact {
    ramps := distinct_of_entriesOf hr
    themes := distinct_of_entriesOf ht
    surfaces := fun e he => by
      obtain ⟨v, hv⟩ := exists_of_entriesOf ht he
      exact StoredTheme.distinct_of_ofDocument hv
    fallbacks := distinct_of_entriesOf hf
    layers := distinct_of_entriesOf hl
    defaults := Document.distinct_of_dictionary (Document.isKeyed_of_need hd hn) hdef
    evaluations := fun e he => by
      rw [OrderedMap.toList_ofList] at he
      obtain ⟨w, hm, _, hw⟩ := Entries.exists_of_mem_ofList he
      obtain ⟨x, _, hx⟩ := exists_of_mem_right (mapM_ok.1 hv) hm
      obtain ⟨⟨k, v⟩, _, hx⟩ := bind_ok.1 hx
      obtain ⟨_, _, hx⟩ := bind_ok.1 hx
      obtain ⟨_, _, hx⟩ := bind_ok.1 hx
      obtain ⟨v', hv', hx⟩ := bind_ok.1 hx
      obtain ⟨_, _, hx⟩ := bind_ok.1 hx
      rw [← hw, ← pure_ok.1 hx]
      exact StoredVariant.normal_of_ofDocument hv' }

theorem normal_of_ofDocument {d : Document} (hd : d.isKeyed = true) {a : Archive}
    (h : ofDocument d = .ok a) : a.Normal := by
  obtain ⟨version, _, h⟩ := bind_ok.1 h
  dsimp only at h
  split at h
  · cases h
  · cases hp : parts d with
    | error f =>
      rw [hp] at h
      cases h
    | ok b =>
      rw [hp] at h
      obtain rfl := Except.ok.inj h
      exact normal_of_parts hd hp

end Archive

/-! ## what is built -/

theorem Archive.distinct_mapped {α β : Type} (f : α → β) {m : Entries Atom α} (h : m.Distinct) :
    (mapped f m).Distinct := by
  refine (Entries.distinct_congr ?_).1 h
  rw [mapped, Entries.keys, Entries.keys, List.map_map]
  rfl

theorem Evaluation.normal_stored (v : Evaluation) : v.stored.Normal := by
  constructor
  · intro d hd
    obtain ⟨x, _, rfl⟩ := Option.map_eq_some_iff.1 hd
    rfl
  · intro d hd
    obtain ⟨x, _, rfl⟩ := Option.map_eq_some_iff.1 hd
    rfl

/-- does each map that a registry takes from a specification hold each key once? -/
structure Spec.Keyed (p : Spec) : Prop where
  ramps : p.ramps.Distinct
  themes : p.themes.Distinct
  surfaces : ∀ e ∈ p.themes, e.2.surfaces.Distinct
  layers : p.layers.Distinct

theorem Spec.Coherent.keyed {p : Spec} (hp : p.Coherent) : p.Keyed where
  ramps := hp.distinct_ramps
  themes := hp.distinct_themes
  surfaces := fun e he =>
    (Entries.distinct_congr (hp.theme e he).2.keys_surfaces).2 hp.distinct_layers
  layers := hp.distinct_layers

theorem Registry.normal_archive {p : Spec} (hp : p.Keyed) {e : Engine} {generatedAt : String}
    {r : Registry} (hb : p.build e generatedAt = .ok r) : r.archive.Normal := by
  obtain ⟨_, failures, _, _, rfl⟩ := Spec.build_ok.1 hb
  exact {
    ramps := Archive.distinct_mapped _ hp.ramps
    themes := Archive.distinct_mapped _ hp.themes
    surfaces := fun x hx => by
      obtain ⟨t, ht, rfl⟩ := List.mem_map.1 hx
      exact Archive.distinct_mapped _ (hp.surfaces t ht)
    fallbacks := Archive.distinct_mapped _ hp.themes
    layers := Archive.distinct_mapped _ hp.layers
    defaults := Archive.distinct_mapped _ (Entries.distinct_ofList _)
    evaluations := fun x hx => by
      rw [archive, OrderedMap.toList_ofList] at hx
      obtain ⟨w, hm, _, hw⟩ := Entries.exists_of_mem_ofList hx
      obtain ⟨y, _, rfl⟩ := List.mem_map.1 hm
      rw [← hw]
      exact Evaluation.normal_stored y.2.evaluation }

/-! ## what the stored form keeps -/

theorem Atom.document_injective : Function.Injective Atom.document := fun a b h =>
  Option.some.inj ((atom?_document a).symm.trans (congrArg Document.atom? h |>.trans
    (atom?_document b)))

theorem Choice.document_injective : Function.Injective Choice.document := fun a b h =>
  Option.some.inj ((ofDocument?_document a).symm.trans (congrArg ofDocument? h |>.trans
    (ofDocument?_document b)))

theorem Hex.document_injective : Function.Injective Hex.document := fun _ _ h =>
  text_injective (Document.text.inj h)

theorem Entries.map_injective {κ α β : Type} {f : α → β} (hf : f.Injective) :
    Function.Injective fun m : Entries κ α => m.map fun e => (e.1, f e.2) :=
  List.map_injective_iff.2 fun _ _ h => Prod.ext (Prod.mk.inj h).1 (hf (Prod.mk.inj h).2)

theorem Archive.mapped_injective {α β : Type} {f : α → β} (hf : f.Injective) :
    Function.Injective (mapped f) := Entries.map_injective hf

theorem Elevation.name_injective : Function.Injective Elevation.name := by
  intro a b
  cases a <;> cases b <;> decide

theorem Polarity.name_injective : Function.Injective Polarity.name := by
  intro a b
  cases a <;> cases b <;> decide

theorem Ramp.stored_injective : Function.Injective Ramp.stored := by
  have hcolors (r : Ramp) : r.stored.steps.map StoredStep.hex = r.colors.map Hex.document := by
    refine List.ext_getElem (by simp [stored, steps]) fun n _ _ => ?_
    simp [stored, steps, Step.stored]
  intro r r' h
  have hsteps := congrArg (fun s : StoredRamp => s.steps.map StoredStep.hex) h
  rw [hcolors, hcolors, Hex.document_injective.list_map.eq_iff] at hsteps
  obtain ⟨hname, _⟩ := StoredRamp.mk.inj h
  cases r
  cases r'
  exact Ramp.mk.injEq .. ▸ ⟨Atom.document_injective hname, hsteps⟩

theorem Surface.stored_injective : Function.Injective Surface.stored := by
  intro ⟨step, hex⟩ ⟨step', hex'⟩ h
  simp only [stored, StoredSurface.mk.injEq, Document.int.injEq,
    Hex.document_injective.eq_iff] at h
  obtain ⟨rfl, rfl, _⟩ := h
  rfl

theorem Theme.stored_injective : Function.Injective Theme.stored := by
  rintro ⟨⟩ ⟨⟩ h
  simp only [stored, StoredTheme.mk.injEq, Document.text.injEq, Atom.document_injective.eq_iff,
    Choice.document_injective.eq_iff, Hex.document_injective.eq_iff,
    Elevation.name_injective.eq_iff,
    (Archive.mapped_injective Surface.stored_injective).eq_iff] at h
  obtain ⟨rfl, rfl, rfl, rfl, _, rfl, rfl, rfl, rfl⟩ := h
  rfl

theorem Evaluation.stored_injective : Function.Injective Evaluation.stored := by
  have hpolarity : Function.Injective fun p : Polarity => Document.text p.name :=
    fun _ _ h => Polarity.name_injective (Document.text.inj h)
  have hfloat : Function.Injective Document.float := fun _ _ => Document.float.inj
  rintro ⟨⟩ ⟨⟩ h
  simp only [stored, StoredEvaluation.mk.injEq, (Option.map_injective hfloat).eq_iff,
    (Option.map_injective hpolarity).eq_iff] at h
  obtain ⟨rfl, rfl, rfl, rfl, rfl⟩ := h
  rfl

theorem Variant.stored_injective : Function.Injective Variant.stored := by
  rintro ⟨⟩ ⟨⟩ h
  simp only [stored, StoredVariant.mk.injEq, Atom.document_injective.eq_iff,
    Choice.document_injective.eq_iff, Hex.document_injective.eq_iff,
    Evaluation.stored_injective.eq_iff] at h
  obtain ⟨rfl, rfl, rfl, rfl⟩ := h
  rfl

/-- equality of registries: the entries of each map are the same, in the same order; of a level its
name counts -/
structure Registry.Same (r r' : Registry) : Prop where
  ramps : r.ramps = r'.ramps
  themes : r.themes = r'.themes
  layers : r.layers = r'.layers
  variants : r.variants.toList = r'.variants.toList
  defaults : r.defaults = r'.defaults
  generatedAt : r.info.generatedAt = r'.info.generatedAt
  totalVariants : r.info.totalVariants = r'.info.totalVariants
  tokenCount : r.info.tokenCount = r'.info.tokenCount
  engine : r.info.engine = r'.info.engine
  level : r.info.level.document = r'.info.level.document
  inputHash : r.info.inputHash = r'.info.inputHash
  warnings : r.warnings = r'.warnings

/-- the archive has the variants of the registry in their order -/
theorem Registry.toList_variants_archive (r : Registry) :
    r.archive.variants.toList = r.variants.toList.map fun e => (e.1, e.2.stored) := by
  rw [archive, OrderedMap.toList_ofList]
  refine Entries.ofList_of_distinct ?_
  rw [Entries.Distinct, Entries.keys, List.map_map]
  exact r.variants.distinct_toList

/-- the stored form of a registry keeps every field: registries with one stored form are the same -/
theorem Registry.same_of_archive {r r' : Registry} (h : r.archive.Same r'.archive) : r.Same r' := by
  have hvariants := h.variants
  rw [toList_variants_archive, toList_variants_archive] at hvariants
  have hinfo := h.info
  simp only [archive, Meta.stored, StoredMeta.mk.injEq, Document.text.injEq, Document.int.injEq,
    Int.natCast_inj] at hinfo
  obtain ⟨hat, htotal, hcount, hengine, hlevel, hhash⟩ := hinfo
  exact {
    ramps := Archive.mapped_injective Ramp.stored_injective h.ramps
    themes := Archive.mapped_injective Theme.stored_injective h.themes
    layers := Archive.mapped_injective (fun _ _ => Document.int.inj) h.layers
    variants := Entries.map_injective Variant.stored_injective hvariants
    defaults := Archive.mapped_injective Hex.document_injective h.defaults
    generatedAt := hat
    totalVariants := htotal
    tokenCount := hcount
    engine := hengine
    level := hlevel
    inputHash := hhash
    warnings := List.map_injective_iff.2 (fun _ _ => Document.text.inj) h.warnings }

/-! ## transport -/

namespace Archive

/-- the archives that there are: those of registries that are built, from any specification and
with any engine, and those that documents hold -/
inductive Obtained : Archive → Prop where
  | built {p : Spec} {e : Engine} {generatedAt : String} {r : Registry} (keyed : p.Keyed)
      (built : p.build e generatedAt = .ok r) : Obtained r.archive
  | read {d : Document} {a : Archive} (keyed : d.isKeyed = true) (read : ofDocument d = .ok a) :
      Obtained a

theorem Obtained.normal {a : Archive} (h : a.Obtained) : a.Normal := by
  cases h with
  | built hp hb => exact Registry.normal_archive hp hb
  | read hd h => exact normal_of_ofDocument hd h

/-- an archive is read from its document as it was, with the entries of each map in order -/
theorem Obtained.exists_same {a : Archive} (h : a.Obtained) :
    ∃ b, ofDocument a.document = .ok b ∧ b.Same a := read_document h.normal

end Archive

/-- an archive edited by hand: a ramp twice, a text and null for lists, keys of four parts, one of
them twice, values of other kinds in an evaluation -/
def Sample.edited : Document := .record [
  ("version", .float 2.0),
  ("meta", .record [("generatedAt", .null), ("totalVariants", .text "few"),
    ("tokenCount", .int 1), ("complianceEngine", .list []), ("wcagTarget", .text "AA"),
    ("inputHash", .text "")]),
  ("ramps", .list [
    .list [.text "gray", .record [("name", .text "gray"), ("steps", .list [])]],
    .list [.text "gray", .record [("name", .int 7), ("steps", .text "")]]]),
  ("themes", .list [.list [.text "day", .record [("name", .text "day"), ("ramp", .text "gray"),
    ("step", .int 0), ("hex", .text "white"), ("relativeLuminance", .int 1),
    ("fallback", .text "ab"), ("aliases", .null), ("elevationDirection", .text "up"),
    ("surfaces", .list [])]]]),
  ("themeFallbacks", .list [.list [.text "day", .text "ab"]]),
  ("stacks", .list [.text "rs", .list [.int 1, .int 2], .list [.bool true, .int 3]]),
  ("variantMap", .list [
    .list [.list [.text "a", .text "12px", .text "day", .text "root"],
      .record [("ramp", .text "gray"), ("step", .int 9), ("hex", .null),
        ("compliance", .record [("pass", .int 1), ("metric", .int 5), ("value", .bool true),
          ("required", .null), ("polarity", .int 0)])]],
    .list [.list [.text "a", .text "12px", .text "day", .text "root", .text "default"],
      .record [("ramp", .text "gray"), ("step", .int 0), ("hex", .null),
        ("compliance", .record [("pass", .text ""), ("metric", .null), ("value", .float 1.5)])]]]),
  ("defaults", .record [("a", .text "black")])]

/-- the archive that it holds -/
def Sample.archive : Archive := (Archive.ofDocument edited).toOption.get (by decide)

/-- the archive of the small specification, and the one edited by hand -/
theorem Archive.Obtained.exists_same_sample :
    (∃ b, ofDocument Sample.registry.archive.document = .ok b ∧ b.Same Sample.registry.archive) ∧
      Sample.archive.ramps.length = 1 ∧ Sample.archive.layers.length = 2 ∧
        ∃ b, ofDocument Sample.archive.document = .ok b ∧ b.Same Sample.archive := by
  have hp := Spec.coherent_of_compile Sample.isKeyed_document Sample.compile_document
  have hedited : ofDocument Sample.edited = .ok Sample.archive := eq_ok_get _
  refine ⟨?_, by decide, by decide, ?_⟩
  · exact (Obtained.built hp.keyed Sample.build_spec).exists_same
  · exact (Obtained.read (by decide) hedited).exists_same

end Palette
