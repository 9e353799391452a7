import Mathlib.Data.List.Pairwise
import Palette.Proofs.Override
import Palette.Proofs.Search
import Palette.Proofs.Sites

/-!
# Steps of a pass

A pass takes one step of its ramp at each site: that of an override, or of a rule, or its default
step.

* `Rules.lookup_auto`        the rule for the context of a site is the rule that was made there;
* `Semantic.passes`          the passes of a semantic color, without deficiency and under the
                             deficiencies for which it has colors of its own;
* `Pass.Fits`                the steps that a pass is given lie on its ramp;
* `Pass.stepAt`, `Pass.recordAt`   what a pass does at a site;
* `Pass.hasStep_stepAt`      its steps lie on its ramp, too;
* `Pass.index_stepAt`        where no override interferes, it is the step that the search takes.
-/

namespace Palette

namespace Rules
variable {d : Demand} {sites : List Site} {s : Site}

theorem key_of_ruleAt? {e : Setting Atom × Int} (h : ruleAt? d s = some e) : e.1 = s.setting := by
  rw [ruleAt?] at h
  split at h
  · split at h
    · cases h
    · obtain rfl := Option.some.inj h
      rfl
  · cases h

/-- a rule says no more than the step that it replaces the default step by -/
theorem getD_ruleAt? : ((ruleAt? d s).map (·.2)).getD d.default = (stepAt? d s).getD d.default := by
  rw [ruleAt?]
  cases stepAt? d s with
  | none => rfl
  | some i =>
    by_cases hi : i = d.default
    · simp [hi]
    · simp [hi]

/-- there is a rule where a step is taken and it is another one than the default step -/
theorem map_ruleAt? : (ruleAt? d s).map (·.2) = (stepAt? d s).filter (· ≠ d.default) := by
  rw [ruleAt?]
  cases stepAt? d s with
  | none => rfl
  | some i =>
    by_cases hi : i = d.default
    · simp [Option.filter_some, hi]
    · simp [Option.filter_some, hi]

/-- where the sites of one context take the same step, a rule that was made there is found -/
theorem lookup_auto_of_alike (hm : s ∈ sites)
    (h : ∀ s' ∈ sites, (s.setting == s'.setting) = true → stepAt? d s' = stepAt? d s) :
    (auto d sites).lookup s.setting = (ruleAt? d s).map (·.2) := by
  rw [auto, Entries.ofList, Entries.lookup_putAll, List.lookup_nil, Option.or_none]
  cases hl : (sites.filterMap (ruleAt? d)).reverse.lookup s.setting with
  | some i =>
    obtain ⟨k, hk, hb⟩ := Entries.exists_of_lookup hl
    obtain ⟨s', hm', hr⟩ := List.mem_filterMap.1 (List.mem_reverse.1 hk)
    obtain rfl : k = s'.setting := key_of_ruleAt? hr
    rw [map_ruleAt?, ← h s' hm' hb, ← map_ruleAt?, hr]
    rfl
  | none =>
    cases hr : ruleAt? d s with
    | none => rfl
    | some e =>
      have he := List.mem_reverse.2 (List.mem_filterMap.2 ⟨s, hm, hr⟩)
      have hne := List.lookup_eq_none_iff.1 hl e he
      rw [key_of_ruleAt? hr, bne, BEq.rfl] at hne
      cases hne

theorem hasStep_of_ruleAt? (hd : d.ramp.hasStep d.default = true) {e : Setting Atom × Int}
    (h : ruleAt? d s = some e) : d.ramp.hasStep e.2 = true := by
  rw [ruleAt?] at h
  split at h
  · next i hi =>
    split at h
    · cases h
    · obtain rfl := Option.some.inj h
      exact Ramp.hasStep_of_chosen? hd hi
  · cases h

section
variable (hs : sites.Pairwise fun a b => (a.setting == b.setting) = false)
include hs

theorem distinct_rules : Entries.Distinct (sites.filterMap (ruleAt? d)) := by
  rw [Entries.Distinct, Entries.keys, List.pairwise_map]
  refine hs.filterMap _ fun a b h x hx y hy => ?_
  rw [key_of_ruleAt? hx, key_of_ruleAt? hy]
  exact h

theorem auto_eq : auto d sites = sites.filterMap (ruleAt? d) :=
  Entries.ofList_of_distinct (distinct_rules hs)

theorem eq_of_setting_beq {s' : Site} (hm : s ∈ sites) (hm' : s' ∈ sites)
    (h : (s.setting == s'.setting) = true) : s = s' := by
  by_contra hne
  have : Std.Symm fun a b : Site => (a.setting == b.setting) = false :=
    ⟨fun _ _ hab => BEq.symm_false hab⟩
  rw [hs.forall hm hm' hne] at h
  cases h

theorem lookup_auto (hm : s ∈ sites) :
    (auto d sites).lookup s.setting = (ruleAt? d s).map (·.2) :=
  lookup_auto_of_alike hm fun s' hm' hb => by rw [eq_of_setting_beq hs hm hm' hb]

end
end Rules

/-! ## passes -/

/-- the passes of a semantic color -/
def Semantic.passes (t : Semantic) : List Pass :=
  t.basePass :: t.ownVision.map fun v => t.visionPass v.1 v.2

namespace Pass

/-- a pass whose steps are on its ramp -/
structure Fits (q : Pass) : Prop where
  default : q.ramp.hasStep q.default.index = true
  overrides : ∀ o ∈ q.overrides, q.ramp.hasStep o.step.index = true

/-- the step at a site -/
def stepAt (q : Pass) (p : Spec) (e : Engine) (s : Site) : Choice :=
  ((q.rules p e).lookup s.setting).getD q.default

theorem steps_eq (q : Pass) (p : Spec) (e : Engine) :
    q.steps p e = p.sites.map fun s => (s, q.stepAt p e s) := rfl

/-- the record at a site -/
def recordAt (q : Pass) (p : Spec) (e : Engine) (s : Site) : Record :=
  Record.of p e q.token q.vision q.target q.ramp s (q.stepAt p e s) (isManual q.overrides s)

theorem records_eq (q : Pass) (p : Spec) (e : Engine) :
    q.records p e (q.steps p e) = p.sites.map (q.recordAt p e) := by
  rw [records, steps_eq, List.map_map]
  rfl

variable {q : Pass} {p : Spec} {e : Engine} {s : Site}

theorem hasStep_stepAt (hq : q.Fits) (hp : p.Coherent) :
    q.ramp.hasStep (q.stepAt p e s).index = true := by
  rw [stepAt]
  cases h : (q.rules p e).lookup s.setting with
  | none => exact hq.default
  | some c =>
    rcases Override.exists_of_lookup_patch h with ⟨r, hr, _, rfl⟩ | ⟨o, ho, _, rfl⟩
    · rw [Rules.auto_eq hp.pairwise_sites] at hr
      obtain ⟨r', hr', rfl⟩ := List.mem_map.1 hr
      obtain ⟨s', _, hs'⟩ := List.mem_filterMap.1 hr'
      exact Rules.hasStep_of_ruleAt? (d := q.demand p e) hq.default hs'
    · exact hq.overrides o ho

/-- the rule at a site is the one that the search makes there -/
theorem lookup_auto (hp : p.Coherent) (hs : s ∈ p.sites) :
    (Entries.ofList ((Rules.auto (q.demand p e) p.sites).map fun r =>
        (r.1, Choice.number r.2))).lookup s.setting =
      (Rules.ruleAt? (q.demand p e) s).map fun r => Choice.number r.2 := by
  have hmap (m : Entries (Setting Atom) Int) (hm : m.Distinct) :
      Entries.Distinct (m.map fun r => (r.1, Choice.number r.2)) := by
    rw [Entries.Distinct, Entries.keys, List.map_map]
    exact hm
  have hauto : (Rules.auto (q.demand p e) p.sites).Distinct := Entries.distinct_ofList _
  rw [Entries.ofList_of_distinct (hmap _ hauto), Entries.lookup_map,
    Rules.lookup_auto hp.pairwise_sites hs, Option.map_map]
  rfl

section
variable (hp : p.Coherent) (hs : s ∈ p.sites) (ho : ∀ o ∈ q.overrides, o.covers s.setting = false)
include hp hs ho

theorem stepAt_of_uncovered :
    q.stepAt p e s =
      ((Rules.ruleAt? (q.demand p e) s).map fun r => Choice.number r.2).getD q.default := by
  rw [stepAt, rules, Override.lookup_patch_of_uncovered ho, lookup_auto hp hs]

theorem index_stepAt :
    (q.stepAt p e s).index = (Rules.stepAt? (q.demand p e) s).getD q.default.index := by
  rw [stepAt_of_uncovered hp hs ho]
  refine Eq.trans ?_ (Rules.getD_ruleAt? (d := q.demand p e))
  cases Rules.ruleAt? (q.demand p e) s with
  | none => rfl
  | some r => rfl

/-- where the search takes no step, the default step stays, as it was written -/
theorem stepAt_eq_default (h : Rules.stepAt? (q.demand p e) s = none) :
    q.stepAt p e s = q.default := by
  rw [stepAt_of_uncovered hp hs ho, Rules.ruleAt?, h]
  rfl

end
end Pass

/-! ## the passes of a semantic color -/

theorem Deficiency.name_of_ofName? {s : String} {m : Deficiency} (h : ofName? s = some m) :
    m.name = s := eq_of_beq (List.find?_some (p := fun m : Deficiency => m.name == s) h)

namespace Semantic
variable {t : Semantic} {ramps : Ramps}

/-- the entry that colors of its own under a deficiency come from -/
theorem key_of_own {e : Atom × VisionEntry} {v : Deficiency × VisionEntry}
    (h : ((e.1.text?.bind Deficiency.ofName?).map fun m => (m, e.2)) = some v) :
    e = (.text v.1.name, v.2) := by
  obtain ⟨m, hm, rfl⟩ := Option.map_eq_some_iff.1 h
  obtain ⟨n, hn, hd⟩ := Option.bind_eq_some_iff.1 hm
  obtain ⟨k, w⟩ := e
  cases k with
  | text s =>
    obtain rfl := Option.some.inj hn
    rw [← Deficiency.name_of_ofName? hd]
  | _ => cases hn

theorem mem_ownVision {v : Deficiency × VisionEntry} :
    v ∈ t.ownVision ↔ (.text v.1.name, v.2) ∈ t.vision := by
  rw [ownVision, List.mem_filterMap]
  constructor
  · rintro ⟨e, hm, h⟩
    rw [← key_of_own h]
    exact hm
  · intro h
    refine ⟨_, h, ?_⟩
    show (Deficiency.ofName? v.1.name).map _ = _
    rw [Deficiency.ofName?_name]
    rfl

theorem Fits.passes (h : t.Fits ramps) : ∀ q ∈ t.passes, q.Fits := by
  have named {r : Ramp} {os : Overrides} (ho : r.Holds os) :
      ∀ o ∈ os.map Override.named, r.hasStep o.step.index = true := by
    intro o hm
    obtain ⟨o', ho', rfl⟩ := List.mem_map.1 hm
    exact ho o' ho'
  intro q hq
  rcases List.mem_cons.1 hq with rfl | hq
  · exact ⟨h.default, named h.overrides⟩
  · obtain ⟨v, hv, rfl⟩ := List.mem_map.1 hq
    have hfits := h.vision _ (mem_ownVision.1 hv)
    exact ⟨hfits.default, named hfits.overrides⟩

end Semantic
end Palette
