import Palette.Proofs.Precedence
import Palette.Proofs.Registry.Compliance
import Palette.Proofs.Registry.Themes

/-!
# States follow their colors

A build goes through the colors in order. It records the steps of a color, and then those of its
states, each of which reads the variant of the color that has just been recorded in its context. An
override of the state may take the place of what it reads.

* `Semantic.readSteps`, `Spec.recordsInTurn`   the records, made by a row of steps of which each
                         one looks at the variants that the steps before it have written;
* `Spec.recordsInTurn_eq`   they are those of the specification: what a state reads is there, and
                         nothing writes to it afterward;
* `Interaction.Takes`    the step of a state where the color has a given step;
* `Variant.Follows`      what a variant of a state says next to the variant of its color;
* `Spec.follows_of_build`   all variants of states do.
-/

namespace Palette

/-! ## one state after the other -/

/-- the steps of a color, read from the variants that have been recorded so far; a site where the
color has no variant is left out -/
def Semantic.readSteps (t : Semantic) (p : Spec) (variants : OrderedMap VariantKey Variant) :
    List (Site × Choice) :=
  p.sites.filterMap fun s =>
    (variants.get? (VariantKey.atSite t.name VariantKey.plainVision s)).map fun b => (s, b.step)

/-- what has been recorded when a color is done: its own records, then those of each state, which
reads what there is by then, then those under deficiencies -/
def Semantic.recordAfter (t : Semantic) (p : Spec) (e : Engine) (rs : List Record) : List Record :=
  let base := rs ++ t.basePass.records p e (t.basePass.steps p e)
  let states := t.interactions.foldl
    (fun rs i => rs ++ t.stateRecords p e (t.readSteps p (Record.variants rs)) i.1 i.2) base
  states ++ t.ownVision.flatMap fun v =>
    let q := t.visionPass v.1 v.2
    q.records p e (q.steps p e)

/-- the records of a specification, color after color -/
def Spec.recordsInTurn (p : Spec) (e : Engine) : List Record :=
  p.semantics.foldl (fun rs t => t.2.recordAfter p e rs) []

/-- A row of steps, each of which appends what it should as long as some records are there and
nothing but the intended ones, appends all of it. -/
theorem foldl_eq_append_flatMap {α β : Type} {f : List β → α → List β} {g : α → List β}
    {needed all : List β} {l : List α} {rs : List β}
    (h : ∀ a ∈ l, ∀ rs, needed ⊆ rs → rs ++ g a <+: all → f rs a = rs ++ g a)
    (hneeded : needed ⊆ rs) (hall : rs ++ l.flatMap g <+: all) :
    l.foldl f rs = rs ++ l.flatMap g := by
  induction l generalizing rs with
  | nil => exact (List.append_nil _).symm
  | cons a l ih =>
    rw [List.flatMap_cons, ← List.append_assoc] at hall
    have hstep := h a List.mem_cons_self rs hneeded ((List.prefix_append _ _).trans hall)
    rw [List.foldl_cons, hstep, List.flatMap_cons, ← List.append_assoc]
    exact ih (fun b hb => h b (List.mem_cons_of_mem _ hb))
      (fun y hy => List.mem_append_left _ (hneeded hy)) hall

namespace Spec
variable {p : Spec} {e : Engine}

section
variable (hu : p.Unambiguous) (hp : p.Coherent)
include hu hp

/-- what has been recorded is found, as long as nothing else than records is written -/
theorem get?_of_prefix {rs : List Record} (hrs : rs <+: p.records e) {y : Record} (hy : y ∈ rs) :
    (Record.variants rs).get? y.key = some y.variant := by
  refine (Record.variants rs).get?_of_mem ?_
  have hd : Entries.Distinct (rs.map fun y => (y.key, y.variant)) :=
    (distinct_written hu hp).sublist ((hrs.sublist.map _).map _)
  rw [Record.variants, OrderedMap.toList_ofList, Entries.ofList_of_distinct hd]
  exact List.mem_map.2 ⟨y, hy, rfl⟩

/-- a state reads what its color has recorded -/
theorem readSteps_eq {t : Semantic} {rs : List Record} (hrs : rs <+: p.records e)
    (hbase : t.basePass.records p e (t.basePass.steps p e) ⊆ rs) :
    t.readSteps p (Record.variants rs) = t.basePass.steps p e := by
  rw [Semantic.readSteps, Pass.steps_eq, ← List.filterMap_eq_map]
  refine List.filterMap_congr fun s hs => ?_
  have hmem : t.basePass.recordAt p e s ∈ rs := by
    rw [Pass.records_eq] at hbase
    exact hbase (List.mem_map_of_mem hs)
  have hget := get?_of_prefix hu hp hrs hmem
  show ((Record.variants rs).get? (t.basePass.recordAt p e s).key).map _ = _
  rw [hget]
  rfl

theorem recordAfter_eq {t : Semantic} {rs : List Record}
    (hrs : rs ++ t.records p e <+: p.records e) : t.recordAfter p e rs = rs ++ t.records p e := by
  rw [Semantic.records, ← List.append_assoc, ← List.append_assoc] at hrs ⊢
  have hstates := (List.prefix_append _ _).trans hrs
  rw [Semantic.recordAfter, foldl_eq_append_flatMap (fun i _ rs hbase hall => ?_)
    (fun y hy => List.mem_append_right _ hy) hstates]
  rw [readSteps_eq hu hp ((List.prefix_append _ _).trans hall) hbase]

/-- the records of a specification are those that are made in turn -/
theorem recordsInTurn_eq : p.recordsInTurn e = p.records e := by
  have hstep : ∀ t ∈ p.semantics, ∀ rs : List Record, [] ⊆ rs →
      rs ++ t.2.records p e <+: p.records e → t.2.recordAfter p e rs = rs ++ t.2.records p e :=
    fun t _ rs _ hall => recordAfter_eq hu hp hall
  exact foldl_eq_append_flatMap hstep (List.nil_subset _) (List.prefix_refl (p.records e))

end
end Spec

/-! ## what is recorded -/

/-- The step of a state in a context of a theme, where the color itself has a step: that of the
override of the state that decides there, or else the step of the color, moved by as much as the
state is from the default step, the other way on themes that rise toward lighter steps, and held on
the ramp. -/
inductive Interaction.Takes (i : Interaction) (t : Semantic) (axes : Axes Atom) (x : Theme)
    (s : Setting Atom) (base : Int) : Choice → Prop
  | override {j : Nat} {o : Override Atom Choice} :
      Override.Decides (i.overrides.map Override.named) axes s j o →
      Takes i t axes x s base o.step
  | moved : (∀ o ∈ i.overrides, o.named.covers s = false) →
      Takes i t axes x s base (.number (t.ramp.clamp (base +
        if x.elevation = .lighter then -(i.step.index - t.default.index)
        else i.step.index - t.default.index)))

/-- what a variant of a state says, next to the variant of its color, on a surface of a theme -/
structure Variant.Follows (p : Spec) (e : Engine) (t : Semantic) (i : Interaction) (x : Theme)
    (u : Surface) (s : Setting Atom) (v b : Variant) : Prop where
  step : i.Takes t p.axes x s b.step.index v.step
  onRamp : t.ramp.hasStep v.step.index = true
  ramp : v.ramp = t.ramp.name
  hex : t.ramp.color? v.step.index = some v.hex
  evaluation :
    v.evaluation = e.evaluate v.hex u.hex ⟨FontSize.px s.fontSize, t.target, p.config.level⟩

theorem Interaction.Takes.hasStep {i : Interaction} {t : Semantic} {ramps : Ramps}
    {axes : Axes Atom} {x : Theme} {s : Setting Atom} {base : Int} {c : Choice} (h : i.Takes t axes x s base c)
    (ht : t.Fits ramps) (hi : i.Fits t.ramp) : t.ramp.hasStep c.index = true := by
  cases h with
  | override h =>
    obtain ⟨o, ho, rfl⟩ := List.mem_map.1 (List.mem_of_getElem? h.mem)
    exact hi.overrides o ho
  | moved _ =>
    have hd := (t.ramp.hasStep_iff _).1 ht.default
    exact t.ramp.clamp_mem _ (by omega)

/-- the step of a state at a site is the one that the step of its color asks for -/
theorem Semantic.takes_stateAt {t : Semantic} {p : Spec} {e : Engine} {i : Atom × Interaction}
    {s : Site} (hs : s ∈ p.sites) :
    i.2.Takes t p.axes s.theme s.setting (t.basePass.stepAt p e s).index
      (t.stateAt p e i.1 i.2 s).variant.step := by
  obtain ⟨y, hy⟩ := Override.exists_settles ([] : List (Setting Atom × Choice))
    (i.2.overrides.map Override.named) p.axes s.setting
  have hlookup := Override.settles_iff.1 hy
  cases hy with
  | override h =>
    simp only [stateAt, hlookup]
    exact .override h
  | rule _ hrules _ _ => exact absurd hrules (by simp)
  | absent ho _ =>
    simp only [stateAt, hlookup]
    refine .moved fun o hm => ?_
    rw [← Spec.applies_eq_covers hs]
    exact ho _ (List.mem_map_of_mem hm)

namespace Spec
variable {p : Spec} {e : Engine}

theorem mem_records_of_state {t : Atom × Semantic} (ht : t ∈ p.semantics) {i : Atom × Interaction}
    (hi : i ∈ t.2.interactions) {s : Site} (hs : s ∈ p.sites) :
    t.2.stateAt p e i.1 i.2 s ∈ p.records e := by
  refine List.mem_flatMap.2 ⟨t, ht, ?_⟩
  rw [Semantic.records_eq]
  refine List.mem_append_left _ (List.mem_append_right _ (List.mem_flatMap.2 ⟨i, hi, ?_⟩))
  exact List.mem_map_of_mem hs

/-- A state that reads what its color has recorded finds it, and it finds what stays: in every
context of a registry, the variant of a state follows the variant of its color. -/
theorem follows_of_build {d : Document} (hd : d.isKeyed = true) (hc : compile d = .ok p)
    (e : Engine) :
    p.recordsInTurn e = p.records e ∧
    ∀ {generatedAt : String} {r : Registry}, p.build e generatedAt = .ok r →
      ∀ t ∈ p.semantics, ∀ i ∈ t.2.interactions, ∀ x ∈ p.themes, ∀ k ∈ p.layers.keys,
        ∀ f ∈ FontSize.names, ∃ u b v, x.2.surfaces.lookup k = some u ∧
          r.variants.get? ⟨t.1, f, x.1, k, VariantKey.plainVision⟩ = some b ∧
          r.variants.get? ⟨.text (derivedName t.1 i.1), f, x.1, k, VariantKey.plainVision⟩ =
            some v ∧
          v.Follows p e t.2 i.2 x.2 u ⟨x.1, f, k⟩ b := by
  have hu := (names_of_compile hd hc).1
  have hp := coherent_of_compile hd hc
  refine ⟨recordsInTurn_eq hu hp, ?_⟩
  intro generatedAt r hb t ht i hi x hx k hk f hf
  obtain ⟨u, hl, hs⟩ := hp.exists_site hx hk hf
  obtain ⟨name, t⟩ := t
  obtain rfl : t.name = name := hu.named _ ht
  have hbase := get?_of_record hu hp hb
    (mem_records_of_pass (e := e) (q := t.basePass) ht List.mem_cons_self hs)
  have hstate := get?_of_record hu hp hb (mem_records_of_state (e := e) ht hi hs)
  have htakes := Semantic.takes_stateAt (e := e) (t := t) (i := i) hs
  have hstep := htakes.hasStep (hp.semantic _ ht) ((hp.semantic _ ht).states i hi)
  exact ⟨u, _, _, hl, hbase, hstate, htakes, hstep, rfl,
    Ramp.color?_eq_some_of_hasStep t.ramp _ hstep, rfl⟩

/-- the small specification: a state without overrides on a theme that rises toward lighter steps,
where it lies one step below its color, and one whose override sets its step in the smallest font
size -/
theorem follows_of_build_sample :
    (∃ b v, Sample.registry.variants.get? ⟨.text "a", .text "12px", .text "day", .text "root",
          VariantKey.plainVision⟩ = some b ∧
        Sample.registry.variants.get? ⟨.text "a-b-c", .text "12px", .text "day", .text "root",
          VariantKey.plainVision⟩ = some v ∧
        v.step = .number (max 0 (min 3 (b.step.index - 1)))) ∧
      ∃ v, Sample.registry.variants.get? ⟨.text "a-b-d", .text "12px", .text "day", .text "root",
          VariantKey.plainVision⟩ = some v ∧ v.step = .number 0 := by
  obtain ⟨_, hfollows⟩ := follows_of_build Sample.isKeyed_document Sample.compile_document
    Sample.engine
  have ht : 1 < Sample.spec.semantics.length := by decide
  have hx : 0 < Sample.spec.themes.length := by decide
  have hk : 0 < Sample.spec.layers.keys.length := by decide
  have hplain : Sample.spec.semantics[0].2.interactions = [(.text "b-c", ⟨.number 2, []⟩)] := rfl
  have hruled : Sample.spec.semantics[1].2.interactions =
      [(.text "d", ⟨.number 1, [⟨.number 0, none, some [.text "12px"], none⟩]⟩)] := rfl
  constructor
  · obtain ⟨u, b, v, _, hb, hv, h⟩ := hfollows Sample.build_spec _
      (List.getElem_mem (Nat.lt_of_succ_lt ht)) _ (hplain ▸ List.mem_cons_self) _
      (List.getElem_mem hx) _ (List.getElem_mem hk) _ List.mem_cons_self
    refine ⟨b, v, hb, hv, ?_⟩
    have htakes := h.step
    generalize v.step = c at htakes ⊢
    cases htakes with
    | override h => cases h.mem
    | moved _ => rfl
  · obtain ⟨u, b, v, _, _, hv, h⟩ := hfollows Sample.build_spec _ (List.getElem_mem ht) _
      (hruled ▸ List.mem_cons_self) _ (List.getElem_mem hx) _ (List.getElem_mem hk) _
      List.mem_cons_self
    refine ⟨v, hv, ?_⟩
    have htakes := h.step
    generalize v.step = c at htakes ⊢
    cases htakes with
    | override h =>
      obtain ⟨o, ho, rfl⟩ := List.mem_map.1 (List.mem_of_getElem? h.mem)
      obtain rfl := List.mem_singleton.1 ho
      rfl
    -- the only override covers the context
    | moved ho =>
      have hcovers := ho _ List.mem_cons_self
      cases hcovers

end Spec
end Palette
