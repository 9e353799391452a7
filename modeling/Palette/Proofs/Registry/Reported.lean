import Palette.Archive.Audit
import Palette.Proofs.Archive.Textual
import Palette.Proofs.Precedence
import Palette.Proofs.Registry.Sentences
import Palette.Proofs.Spec.Choices
import Palette.Proofs.Spec.Textual

/-!
# Failing overrides are reported

Whether an override has set a step is written down record by record while the rules are built, and
is not kept in the registry. It can be told from the key of a variant all the same: the overrides
of the color and the vision of the key either match its context or do not.

* `Engine.Total`             engines that evaluate everywhere, as those of this library do;
* `Source`, `Spec.sources`   the tracks with the overrides that are for them;
* `Spec.isOverridden`        does an override of the track of a key match its context?
* `Spec.manual_eq`           this is what records say, and corrections are never overridden;
* `Spec.failures_eq`         so the sentences of a build are about the variants that fail and are
                             overridden;
* `Registry.audit_archive`   those of an audit are about all that fail;
* `Spec.eq_of_describe`      sentences are told apart;
* `Spec.reported_of_compile` what builds return or refuse under the two policies.
-/

namespace Palette
open Outcome

/-- does an engine evaluate in every context, at either of the two levels? -/
def Engine.Total (e : Engine) : Prop :=
  ∀ c, c.level = .aa ∨ c.level = .aaa → e.admits c = .ok ()

/-- the engines of this library do -/
theorem Engines.total {x : String × Engine} (hx : x ∈ builtin) : x.2.Total := by
  rcases List.mem_cons.1 hx with rfl | hx
  · exact fun _ _ => rfl
  · obtain rfl := List.mem_singleton.1 hx
    rintro ⟨px, target, level⟩ (rfl | rfl) <;> cases target <;> rfl

/-- a track with the overrides that are for it -/
structure Source where
  track : Track
  overrides : List (Override Atom Choice)

/-- does a key belong to the track, and does one of the overrides match its context? -/
def Source.covers (c : Source) (k : VariantKey) : Bool :=
  c.track.token == k.token && c.track.vision == k.vision &&
    c.overrides.any fun o => o.covers ⟨k.theme, k.fontSize, k.stack⟩

def Pass.source (q : Pass) : Source := ⟨⟨q.token, q.vision, q.target, q.ramp⟩, q.overrides⟩

def Semantic.stateSource (t : Semantic) (state : Atom) (i : Interaction) : Source :=
  ⟨⟨.text (Spec.derivedName t.name state), VariantKey.plainVision, t.target, t.ramp⟩,
    i.overrides.map Override.named⟩

/-- the overrides of a semantic color, of its states, and those under deficiencies -/
def Semantic.sources (t : Semantic) : List Source :=
  t.basePass.source :: (t.interactions.map fun i => t.stateSource i.1 i.2) ++
    t.ownVision.map fun v => (t.visionPass v.1 v.2).source

namespace Spec

/-- the overrides of a specification -/
def sources (p : Spec) : List Source := p.semantics.flatMap fun t => t.2.sources

/-- is the context of a key matched by an override that is for the key? -/
def isOverridden (p : Spec) (k : VariantKey) : Bool := p.sources.any fun c => c.covers k

end Spec

/-! ## records and their sources -/

theorem Override.getD_contains {ν : Type} [BEq ν] {filter : Option (List ν)} {axis : List ν}
    {name : ν} (h : axis.contains name = true) :
    (filter.getD axis).contains name = admits filter name := by
  cases filter with
  | none => exact h
  | some names => rfl

/-- at a site, an override applies where its filters admit the names -/
theorem Spec.applies_eq_covers {p : Spec} {s : Site} (hs : s ∈ p.sites) (o : Override Atom Choice) :
    o.applies p.axes s.setting = o.covers s.setting := by
  obtain ⟨ht, hk, _, hf⟩ := mem_sites.1 hs
  have htheme : p.axes.themes.contains s.setting.theme = true :=
    List.elem_eq_true_of_mem (Entries.mem_keys_of_mem ht)
  have hsize : p.axes.fontSizes.contains s.setting.fontSize = true := List.elem_eq_true_of_mem hf
  have hstack : p.axes.layers.contains s.setting.stack = true := List.elem_eq_true_of_mem hk
  rw [Override.applies, Override.covers, Override.getD_contains htheme,
    Override.getD_contains hsize, Override.getD_contains hstack]

/-- a record of a source: at a site of its track, overridden where one of its overrides matches -/
def Source.Wrote (p : Spec) (c : Source) (y : Record) : Prop :=
  ∃ s ∈ p.sites, y.key = Track.key (c.track, s) ∧ y.manual = isManual c.overrides s

theorem Source.covers_key (c : Source) (s : Site) :
    c.covers (Track.key (c.track, s)) = isManual c.overrides s := by
  show (c.track.token == c.track.token && c.track.vision == c.track.vision &&
    isManual c.overrides s) = _
  rw [BEq.rfl, BEq.rfl]
  rfl

theorem Source.covers_of_apart {c : Source} {b : Track} (h : c.track.Apart b) (s : Site) :
    c.covers (Track.key (b, s)) = false := by
  show (c.track.token == b.token && c.track.vision == b.vision && _) = false
  rw [h]
  rfl

namespace Semantic
variable {t : Semantic} {p : Spec} {e : Engine} {y : Record}

theorem map_track_sources (t : Semantic) : t.sources.map Source.track = t.tracks := by
  rw [sources, tracks, plainTracks, names]
  simp only [List.map_append, List.map_cons, List.map_map]
  rfl

theorem wrote_of_pass {q : Pass} (hy : y ∈ q.records p e (q.steps p e)) : q.source.Wrote p y := by
  rw [Pass.records_eq] at hy
  obtain ⟨s, hs, rfl⟩ := List.mem_map.1 hy
  exact ⟨s, hs, rfl, rfl⟩

/-- a record of a state: an override has set its step, or it follows the step of the color -/
theorem of_mem_stateRecords {f : Site → Choice} {state : Atom} {i : Interaction}
    (hy : y ∈ t.stateRecords p e (p.sites.map fun s => (s, f s)) state i) :
    ∃ s ∈ p.sites, ∃ step manual,
      y = Record.of p e (.text (Spec.derivedName t.name state)) VariantKey.plainVision t.target
        t.ramp s step manual ∧
      manual = isManual (i.overrides.map Override.named) s ∧
      (manual = false → step = .number (t.shifted i s (f s).index)) := by
  rw [stateRecords, List.map_map] at hy
  obtain ⟨s, hs, rfl⟩ := List.mem_map.1 hy
  have hsome : ((Override.patch [] (i.overrides.map Override.named) p.axes).lookup
      s.setting).isSome = isManual (i.overrides.map Override.named) s := by
    rw [Override.isSome_lookup_patch_nil]
    exact List.any_congr rfl fun o => Spec.applies_eq_covers hs o
  refine ⟨s, hs, ?_⟩
  cases h : (Override.patch [] (i.overrides.map Override.named) p.axes).lookup s.setting with
  | some step =>
    rw [h] at hsome
    simp only [Function.comp, h]
    exact ⟨step, true, rfl, hsome, fun hf => Bool.noConfusion hf⟩
  | none =>
    rw [h] at hsome
    simp only [Function.comp, h]
    exact ⟨_, false, rfl, hsome, fun _ => rfl⟩

/-- a state is overridden where its overrides alone give a step -/
theorem wrote_of_state {f : Site → Choice} {state : Atom} {i : Interaction}
    (hy : y ∈ t.stateRecords p e (p.sites.map fun s => (s, f s)) state i) :
    (t.stateSource state i).Wrote p y := by
  obtain ⟨s, hs, _, _, rfl, hmanual, _⟩ := of_mem_stateRecords hy
  exact ⟨s, hs, rfl, hmanual⟩

theorem exists_source (hy : y ∈ t.records p e) : ∃ c ∈ t.sources, c.Wrote p y := by
  rw [records, List.mem_append, List.mem_append] at hy
  rcases hy with (hy | hy) | hy
  · exact ⟨_, List.mem_append_left _ List.mem_cons_self, wrote_of_pass hy⟩
  · obtain ⟨i, hi, hy⟩ := List.mem_flatMap.1 hy
    rw [Pass.steps_eq] at hy
    refine ⟨_, List.mem_append_left _ (List.mem_cons_of_mem _ (List.mem_map_of_mem hi)), ?_⟩
    exact wrote_of_state hy
  · obtain ⟨v, hv, hy⟩ := List.mem_flatMap.1 hy
    exact ⟨_, List.mem_append_right _ (List.mem_map_of_mem hv), wrote_of_pass hy⟩

end Semantic

namespace Spec
variable {p : Spec} {e : Engine}

/-! ## overridden keys -/

theorem map_track_sources (p : Spec) : p.sources.map Source.track = p.tracks := by
  rw [sources, tracks, List.map_flatMap]
  exact List.flatMap_congr fun t _ => t.2.map_track_sources

theorem exists_source {y : Record} (hy : y ∈ p.records e) : ∃ c ∈ p.sources, c.Wrote p y := by
  obtain ⟨t, ht, hy⟩ := List.mem_flatMap.1 hy
  obtain ⟨c, hc, h⟩ := Semantic.exists_source hy
  exact ⟨c, List.mem_flatMap.2 ⟨t, ht, hc⟩, h⟩

section
variable (hu : p.Unambiguous) (hp : p.Coherent)
include hu hp

/-- the key of a record is for one source only -/
theorem eq_of_covers {c c' : Source} (hc : c ∈ p.sources) (hc' : c' ∈ p.sources) {s : Site}
    (h : c'.covers (Track.key (c.track, s)) = true) : c' = c := by
  have hpairwise : p.sources.Pairwise fun a b => a.track.Apart b.track := by
    rw [← List.pairwise_map, map_track_sources]
    exact hu.pairwise_tracks hp
  have : Std.Symm fun a b : Source => a.track.Apart b.track := ⟨fun _ _ hab => hab.symm⟩
  -- other sources have other tracks, and no two tracks share a key
  by_contra hne
  rw [Source.covers_of_apart (hpairwise.forall hc' hc hne)] at h
  cases h

/-- a record says whether an override that is for its key matches the context -/
theorem manual_eq {y : Record} (hy : y ∈ p.records e) : y.manual = p.isOverridden y.key := by
  obtain ⟨c, hc, s, _, hkey, hmanual⟩ := exists_source hy
  rw [hkey, hmanual, ← c.covers_key, isOverridden, Bool.eq_iff_iff, List.any_eq_true]
  constructor
  · exact fun h => ⟨c, hc, h⟩
  · rintro ⟨c', hc', h⟩
    obtain rfl := eq_of_covers hu hp hc hc' h
    exact h

/-- no override is for what corrections add -/
theorem isOverridden_movedTrack {t : Atom × Semantic} (ht : t ∈ p.semantics) {m : Deficiency}
    (hm : t.2.Lacks m) (s : Site) : p.isOverridden (Track.key (t.2.movedTrack m, s)) = false := by
  rw [isOverridden, List.any_eq_false]
  intro c hc
  have htrack : c.track ∈ p.tracks := by
    rw [← map_track_sources]
    exact List.mem_map_of_mem hc
  rw [Source.covers_of_apart (hu.toNamed.apart_movedTrack hp ht hm htrack)]
  exact Bool.false_ne_true

/-! ## sentences -/

/-- the sentences of a build are about the variants that fail and are overridden -/
theorem failures_eq :
    Record.failures (p.records e) =
      ((p.entries e).filter fun x => !x.2.evaluation.passed && p.isOverridden x.1).mapM
        fun x => describe x.1 x.2 := by
  have hcorrections : (p.corrections e (Record.variants (p.records e))).filter
      (fun x => !x.2.evaluation.passed && p.isOverridden x.1) = [] := by
    -- what they add is on tracks that no override is for
    refine List.filter_eq_nil_iff.2 fun x hx => ?_
    obtain ⟨t, ht, m, hm, s, _, y, hy, rfl⟩ := exists_of_mem_corrections hu hp hx
    obtain ⟨_, _, _, rfl⟩ := hy
    show ¬(_ && p.isOverridden (Track.key (t.2.movedTrack m, s))) = true
    rw [isOverridden_movedTrack hu hp ht hm, Bool.and_false]
    exact Bool.false_ne_true
  rw [entries, List.filter_append, hcorrections, List.append_nil, written, List.filter_map,
    List.mapM_map, Record.failures]
  refine congrArg _ (List.filter_congr fun y hy => ?_)
  rw [manual_eq hu hp hy, Bool.and_comm]
  rfl

end

end Spec

/-- what is stored of a variant is enough to tell of it -/
theorem Archive.describe_stored (k : VariantKey) (v : Variant) :
    Archive.describe k v.stored = Palette.describe k v := by
  have hrequired : v.stored.evaluation.required = v.evaluation.required.map .float := rfl
  rw [Archive.describe, Palette.describe, hrequired]
  cases v.evaluation.required <;> rfl

/-- the sentences of an audit are about the variants that fail -/
theorem Registry.audit_archive (r : Registry) :
    r.archive.audit = (r.variants.toList.filter fun x => !x.2.evaluation.passed).mapM
      fun x => describe x.1 x.2 := by
  rw [Archive.audit, Archive.failing, toList_variants_archive, List.filter_map, List.mapM_map]
  have hdescribe : (fun x : VariantKey × Variant => Archive.describe x.1 x.2.stored) =
      fun x => describe x.1 x.2 := funext fun x => Archive.describe_stored x.1 x.2
  exact congrArg (fun f => List.mapM f _) hdescribe

namespace Spec
variable {p : Spec} {e : Engine}

theorem exists_describe {k : VariantKey} (hk : ∀ a ∈ k.parts, a.isText = true) (v : Variant) :
    ∃ s, describe k v = .ok s := by
  obtain ⟨key, hkey⟩ := k.text_ok_iff.2 hk
  exact ⟨_, describe_ok_iff.2 ⟨key, hkey, rfl⟩⟩

theorem isText_of_mem_names {t : Semantic} (ht : t.Textual) : ∀ n ∈ t.names, n.isText = true := by
  refine List.forall_mem_cons.2 ⟨ht.name, fun n hn => ?_⟩
  obtain ⟨i, _, rfl⟩ := List.mem_map.1 hn
  rfl

/-- where all names are texts, every variant can be told of -/
theorem exists_describe_of_mem (hu : p.Unambiguous) (hp : p.Coherent) (ht : p.Textual)
    {x : VariantKey × Variant} (hx : x ∈ p.entries e) : ∃ s, describe x.1 x.2 = .ok s := by
  obtain ⟨c, s, hs, ⟨y, hy, rfl⟩, hc⟩ := exists_of_mem_entries hu hp hx
  obtain ⟨_, _, _, rfl⟩ := hy
  have htrack : c.token.isText = true ∧ c.vision.isText = true := by
    rcases hc with hc | ⟨t, htm, m, _, rfl⟩
    · obtain ⟨t, htm, hc⟩ := List.mem_flatMap.1 hc
      refine ⟨isText_of_mem_names (ht.semantic t htm) _ (Semantic.token_mem_names hc), ?_⟩
      rcases List.mem_append.1 hc with hc | hc
      · obtain ⟨_, _, rfl⟩ := List.mem_map.1 hc
        rfl
      · obtain ⟨_, _, rfl⟩ := List.mem_map.1 hc
        rfl
    · exact ⟨(ht.semantic t htm).name, rfl⟩
  obtain ⟨htheme, hstack, _, hsize⟩ := mem_sites.1 hs
  have hsizes : ∀ f ∈ FontSize.names, f.isText = true := by decide
  refine exists_describe (fun a ha => ?_) _
  simp only [VariantKey.parts, List.mem_cons, List.not_mem_nil, or_false] at ha
  rcases ha with rfl | rfl | rfl | rfl | rfl
  · exact htrack.1
  · exact hsizes _ hsize
  · exact ht.themes _ (Entries.mem_keys_of_mem htheme)
  · exact ht.layers _ hstack
  · exact htrack.2

/-- By an engine of this library no two variants have one sentence, if their names have no
underscore. -/
theorem eq_of_describe (hu : p.Unambiguous) (hp : p.Coherent) {id : String}
    (he : (id, e) ∈ Engines.builtin) {x y : VariantKey × Variant} (hx : x ∈ p.entries e)
    (hy : y ∈ p.entries e) (hxp : x.1.Plain) (hyp : y.1.Plain) {s : String}
    (hxs : describe x.1 x.2 = .ok s) (hys : describe y.1 y.2 = .ok s) : x = y := by
  have hmetric {z : VariantKey × Variant} (hz : z ∈ p.entries e) :
      ':' ∉ z.2.evaluation.metric.toList := by
    obtain ⟨c, s, _, ⟨_, ⟨step, manual, _, rfl⟩, rfl⟩, _⟩ := exists_of_mem_entries hu hp hz
    exact Engines.colon_notMem_metric he _ _ _
  have htext := text_eq_of_describe hxs hys (hmetric hx) (hmetric hy)
  obtain ⟨key, hkey, _⟩ := describe_ok_iff.1 hxs
  have hkeys := VariantKey.eq_of_text hxp hyp hkey (htext.symm.trans hkey)
  have hlookup := Entries.lookup_of_mem (distinct_entriesIn hu hp) hx
  rw [hkeys] at hlookup
  have hsome := (Entries.lookup_of_mem (distinct_entriesIn hu hp) hy).symm.trans hlookup
  exact Prod.ext hkeys (Option.some.inj hsome).symm

/-! ## builds -/

/-- what a build does when nothing is refused: it returns the registry, or tells of the overrides
that fail where this is an error -/
theorem build_eq (hc : p.checkRecords e = .ok ()) {failures : List String}
    (hf : Record.failures (p.records e) = .ok failures) (generatedAt : String) :
    p.build e generatedAt =
      if p.config.policy.fatal && !failures.isEmpty then .error (.failingOverrides failures)
      else .ok (p.assemble e generatedAt (p.records e) failures) := by
  rw [build, hc]
  show (Record.failures (p.records e) >>= _) = _
  rw [hf]
  show (if _ then _ else _ : Except Fault Registry) = _
  split <;> rfl

/-- Under the policy to warn, a build returns, and its warnings are those of the compilation and
then a sentence about each variant that fails and is overridden, in the order of the variants. Under
the other policy it returns the same registry where there is no such variant, and else it refuses
with these sentences. -/
theorem reported_of_compile {d : Document} (hd : d.isKeyed = true) (ht : d.isTextual = true)
    {p : Spec} (hc : compile d = .ok p) {e : Engine} (he : e.Total) (generatedAt : String) :
    (p = p.withPolicy .error ∨ p = p.withPolicy .warn) ∧
      compile (d.withPolicy .warn) = .ok (p.withPolicy .warn) ∧
      compile (d.withPolicy .error) = .ok (p.withPolicy .error) ∧
      ∃ r failing sentences audited,
        (p.withPolicy .warn).build e generatedAt = .ok r ∧
        failing = r.variants.toList.filter
          (fun x => !x.2.evaluation.passed && p.isOverridden x.1) ∧
        failing.mapM (fun x => describe x.1 x.2) = .ok sentences ∧
        r.warnings = p.warnings ++ sentences ∧
        r.archive.audit = .ok audited ∧ sentences.Sublist audited ∧
        (p.withPolicy .error).build e generatedAt =
          if failing.isEmpty then .ok r else .error (.failingOverrides sentences) := by
  have hu := (names_of_compile hd hc).1
  have hp := coherent_of_compile hd hc
  have htextual := textual_of_compile ht hc
  have hcheck := checkRecords_of_textual (e := e) htextual fun c hl =>
    he c (by rw [hl]; exact level_of_compile hc)
  have hpolicy : p = p.withPolicy .error ∨ p = p.withPolicy .warn := by
    rcases policy_of_compile hc with h | h
    · left
      rw [withPolicy, ← h]
    · right
      rw [withPolicy, ← h]
  -- all variants that fail can be told of, and those that are overridden are among them
  obtain ⟨audited, haudited⟩ := exists_mapM_ok
    fun x (hx : x ∈ (p.entries e).filter fun x => !x.2.evaluation.passed) =>
      exists_describe_of_mem hu hp htextual (List.mem_filter.1 hx).1
  have hsublist : ((p.entries e).filter
      fun x => !x.2.evaluation.passed && p.isOverridden x.1).Sublist
        ((p.entries e).filter fun x => !x.2.evaluation.passed) := by
    rw [← List.filter_filter]
    exact List.filter_sublist.filter _
  obtain ⟨sentences, hsentences, hsub⟩ := sublist_of_mapM hsublist haudited
  -- the policy plays no part in the records
  have hbuild (q : Policy) : (p.withPolicy q).build e generatedAt =
      if q.fatal && !sentences.isEmpty then .error (.failingOverrides sentences)
      else .ok (p.assemble e generatedAt (p.records e) sentences) :=
    build_eq (p := p.withPolicy q) hcheck ((failures_eq hu hp).trans hsentences) generatedAt
  have hwarn : (p.withPolicy .warn).build e generatedAt =
      .ok (p.assemble e generatedAt (p.records e) sentences) := hbuild .warn
  have hvariants : (p.assemble e generatedAt (p.records e) sentences).variants.toList =
      p.entries e :=
    toList_variants_of_build (p := p.withPolicy .warn) (hu.withConfig _) (hp.withConfig _) hwarn
  refine ⟨hpolicy, compile_withPolicy hc (.inl rfl), compile_withPolicy hc (.inr rfl), _, _,
    sentences, audited, hwarn, rfl, ?_, rfl, ?_, hsub, ?_⟩
  · rw [hvariants]
    exact hsentences
  · rw [Registry.audit_archive, hvariants]
    exact haudited
  · rw [hbuild .error, hvariants, ← isEmpty_of_mapM hsentences]
    cases sentences <;> rfl

/-- in the small specification, an override of a state fails on the lighter theme -/
theorem reported_of_compile_sample :
    Sample.document.isTextual = true ∧ ∃ r sentence rest,
      (Sample.spec.withPolicy .warn).build Sample.engine "now" = .ok r ∧
      r.warnings = Sample.spec.warnings ++ sentence :: rest ∧
      (Sample.spec.withPolicy .error).build Sample.engine "now" =
        .error (.failingOverrides (sentence :: rest)) := by
  have htextual : Sample.document.isTextual = true := by decide
  obtain ⟨_, _, _, r, _, sentences, _, hwarn, rfl, hsentences, hwarnings, _, _, herror⟩ :=
    reported_of_compile Sample.isKeyed_document htextual Sample.compile_document
      (e := Sample.engine) (fun _ _ => rfl) "now"
  have hu := (names_of_compile Sample.isKeyed_document Sample.compile_document).1
  have hp := coherent_of_compile Sample.isKeyed_document Sample.compile_document
  have hvariants : r.variants.toList = Sample.spec.entries Sample.engine :=
    toList_variants_of_build (p := Sample.spec.withPolicy .warn) (hu.withConfig _)
      (hp.withConfig _) hwarn
  have hfails : (Sample.spec.written Sample.engine).any
      (fun x => !x.2.evaluation.passed && Sample.spec.isOverridden x.1) = true := by
    decide
  obtain ⟨x, hx, hfails⟩ := List.any_eq_true.1 hfails
  have hmem : x ∈ r.variants.toList.filter
      fun x => !x.2.evaluation.passed && Sample.spec.isOverridden x.1 := by
    rw [hvariants]
    exact List.mem_filter.2 ⟨List.mem_append_left _ hx, hfails⟩
  have hsome := List.isEmpty_eq_false_iff_exists_mem.2 ⟨x, hmem⟩
  rw [hsome] at herror
  rw [← isEmpty_of_mapM hsentences] at hsome
  cases sentences with
  | nil => cases hsome
  | cons sentence rest => exact ⟨htextual, r, sentence, rest, hwarn, hwarnings, herror⟩

end Spec
end Palette
