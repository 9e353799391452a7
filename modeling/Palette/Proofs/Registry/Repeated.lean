import Palette.Proofs.Override
import Palette.Proofs.Registry.Built
import Palette.Proofs.Spec.Retoned

/-!
# Overrides that come twice

An override that comes again at the end, after others that came again in the same order, sets no
step that it has not set before: among overrides of one specificity the last ones were the last ones
already. Nothing that is built sees that they are there twice.

* `Override.lookup_patch_repeated`   the step of each context;
* `Pass.records_repeated`, `Semantic.Repeats.records_eq`   the records, with what is manual;
* `Correction.all_of_related`   corrections read names, ramps and targets of colors alone;
* `Spec.Repeats.build_eq`  the registry, or why there is none;
* `Spec.exists_same_build`   so a tone may be applied twice.
-/

namespace Palette
open Outcome

/-! ## overrides -/

namespace Override
variable {ν σ : Type}

theorem find?_reverse_repeated {α : Type} {l tail : List α} (h : tail <:+ l) (p : α → Bool) :
    (l ++ tail).reverse.find? p = l.reverse.find? p := by
  obtain ⟨front, rfl⟩ := h
  rw [List.reverse_append, List.reverse_append, List.find?_append, List.find?_append]
  cases tail.reverse.find? p <;> rfl

theorem find?_reverse_flatMap {α β : Type} {l : List α} {f g : α → List β} {p : β → Bool}
    (h : ∀ a, (f a).reverse.find? p = (g a).reverse.find? p) :
    (l.flatMap f).reverse.find? p = (l.flatMap g).reverse.find? p := by
  induction l with
  | nil => rfl
  | cons a l ih =>
    rw [List.flatMap_cons, List.flatMap_cons, List.reverse_append, List.reverse_append,
      List.find?_append, List.find?_append, ih, h]

/-- within each specificity the last overrides come again, so the last one that applies stays -/
theorem lookup_patch_repeated [BEq ν] [EquivBEq ν] {os tail : List (Override ν σ)}
    (h : tail <:+ os) (rules : List (Setting ν × σ)) (axes : Axes ν) (s : Setting ν) :
    (patch rules (os ++ tail) axes).lookup s = (patch rules os axes).lookup s := by
  rw [lookup_patch, lookup_patch, ranked, ranked]
  congr 2
  refine find?_reverse_flatMap fun k => ?_
  rw [List.filter_append]
  exact find?_reverse_repeated (h.filter _) _

end Override

theorem isManual_repeated {os tail : List (Override Atom Choice)} (h : tail <:+ os) (s : Site) :
    isManual (os ++ tail) s = isManual os s := by
  obtain ⟨front, rfl⟩ := h
  rw [isManual, isManual, List.any_append, List.any_append, Bool.or_assoc, Bool.or_self]

/-! ## records -/

namespace Pass
variable {q : Pass} {tail : List (Override Atom Choice)} (h : tail <:+ q.overrides) (p : Spec)
  (e : Engine)
include h

theorem steps_repeated :
    { q with overrides := q.overrides ++ tail }.steps p e = q.steps p e :=
  List.map_congr_left fun s _ => by
    show (s, ((Override.patch _ (q.overrides ++ tail) p.axes).lookup s.setting).getD q.default) = _
    rw [Override.lookup_patch_repeated h]
    rfl

theorem records_repeated (steps : List (Site × Choice)) :
    { q with overrides := q.overrides ++ tail }.records p e steps = q.records p e steps :=
  List.map_congr_left fun c _ => by
    show Record.of p e q.token q.vision q.target q.ramp c.1 c.2
      (isManual (q.overrides ++ tail) c.1) = _
    rw [isManual_repeated h]

end Pass

namespace Semantic.Repeats
variable {t t' : Semantic} (h : t.Repeats t') (p : Spec) (e : Engine)
include h

theorem records_eq : t'.records p e = t.records p e := by
  obtain ⟨tail, hlast, rfl⟩ := h
  have hnamed : tail.map Override.named <:+ t.basePass.overrides := hlast.map _
  have hbase : basePass { t with overrides := t.overrides ++ tail } =
      { t.basePass with overrides := t.basePass.overrides ++ tail.map Override.named } := by
    rw [basePass, List.map_append]
    rfl
  rw [records, records, hbase, Pass.steps_repeated hnamed, Pass.records_repeated hnamed]
  rfl

theorem ramp_eq : t'.ramp = t.ramp := by
  obtain ⟨tail, _, rfl⟩ := h
  rfl

theorem target_eq : t'.target = t.target := by
  obtain ⟨tail, _, rfl⟩ := h
  rfl

theorem defaults_eq : t'.defaults = t.defaults := by
  obtain ⟨tail, _, rfl⟩ := h
  rfl

theorem explicit_eq : t'.explicit = t.explicit := by
  obtain ⟨tail, _, rfl⟩ := h
  rfl

end Semantic.Repeats

/-! ## corrections -/

namespace Correction
variable {κ : Type} [LT κ] [DecidableLT κ] [LE κ] [DecidableLE κ] [Sub κ] [Mul κ]

/-- corrections read the names, the ramps and the targets of colors alone -/
theorem all_of_related {q : Request κ} {semantics : Entries Atom Semantic}
    (h : Related (fun t t' => t'.ramp = t.ramp ∧ t'.target = t.target) q.semantics semantics)
    (sites : List Site) : all { q with semantics } sites = all q sites := by
  have hmoves (m : Deficiency) (s : Site) : moves { q with semantics } m s = moves q m s := by
    rw [moves, moves, h.keys_eq]
  have hmove (m : Deficiency) (s : Site) : move? { q with semantics } m s = move? q m s := by
    funext c
    rw [move?, move?]
    rcases h.lookup c.1 with ⟨hnone, hnone'⟩ | ⟨t, t', hsome, hsome', hramp, htarget⟩
    · rw [hnone, hnone']
      rfl
    · rw [hsome, hsome', h.keys_eq]
      simp only [Option.bind_eq_bind, Option.bind_some, passing, hramp, htarget]
  simp only [all, hmoves, hmove]

end Correction

/-! ## builds -/

namespace Spec

/-- overrides that come again are refused for nothing new -/
theorem checkOverrides_repeated (p : Spec) {os tail : Overrides} (h : tail <:+ os) :
    p.checkOverrides (os ++ tail) = p.checkOverrides os := forM_append_of_subset h.subset

theorem checkSemantic_repeats (p : Spec) (e : Engine) {t t' : Semantic} (h : t.Repeats t') :
    p.checkSemantic e t' = p.checkSemantic e t := by
  have hrecords := h.records_eq p e
  obtain ⟨tail, hlast, rfl⟩ := h
  rw [checkSemantic, checkSemantic, hrecords, checkOverrides_repeated p hlast]
  rfl

namespace Repeats
variable {p p' : Spec} (h : p.Repeats p') (e : Engine)
include h

theorem records_eq : p'.records e = p.records e := by
  obtain ⟨hs, hother⟩ := h
  rw [records, records]
  refine (flatMap_eq hs fun t _ t' ht => ?_).symm
  rw [hother]
  exact (ht.2.records_eq p e).symm

theorem checkRecords_eq : p'.checkRecords e = p.checkRecords e := by
  obtain ⟨hs, hother⟩ := h
  refine (forM_eq hs fun t t' ht => ?_).symm
  rw [hother]
  exact (checkSemantic_repeats p e ht.2).symm

theorem corrections_eq (variants : OrderedMap VariantKey Variant) :
    p'.corrections e variants = p.corrections e variants := by
  obtain ⟨hs, hother⟩ := h
  have hexplicit : (p'.semantics.flatMap fun t => t.2.explicit) =
      p.semantics.flatMap fun t => t.2.explicit :=
    (flatMap_eq hs fun t _ t' ht => ht.2.explicit_eq.symm).symm
  have hrequest : p'.request e variants =
      { p.request e variants with semantics := p'.semantics } := by
    rw [request, hexplicit, hother]
    rfl
  have hall := Correction.all_of_related (q := p.request e variants)
    (hs.imp fun t t' ht => ⟨ht.ramp_eq, ht.target_eq⟩) p.sites
  rw [corrections, hrequest, corrections, ← hall, hother]
  rfl

theorem assemble_eq (generatedAt : String) (rs : List Record) (failures : List String) :
    p'.assemble e generatedAt rs failures = p.assemble e generatedAt rs failures := by
  have hcorrections := h.corrections_eq e
  obtain ⟨hs, hother⟩ := h
  have hdefaults : (p'.semantics.flatMap fun t => t.2.defaults) =
      p.semantics.flatMap fun t => t.2.defaults :=
    (flatMap_eq hs fun t _ t' ht => ht.2.defaults_eq.symm).symm
  rw [assemble, assemble, hcorrections, hdefaults, hs.length_eq, hother]

/-- what is built does not tell whether overrides come twice -/
theorem build_eq (generatedAt : String) : p'.build e generatedAt = p.build e generatedAt := by
  have hfatal : p'.config.policy = p.config.policy := by rw [h.other]
  simp only [build, h.checkRecords_eq, h.records_eq, h.assemble_eq, hfatal]

end Repeats

/-- A specification that compiles under a tone compiles under the tone applied again, and every
engine builds the same registry from both, or refuses both for the same cause. -/
theorem exists_same_build {d d' tone : Document} (ht : Tone.apply d tone = .ok d') {p : Spec}
    (h : compile d' = .ok p) : ∃ d'' p', Tone.apply d' tone = .ok d'' ∧ compile d'' = .ok p' ∧
      ∀ (e : Engine) (generatedAt : String), p'.build e generatedAt = p.build e generatedAt := by
  cases hc : Tone.isChosen tone with
  | true =>
    obtain ⟨d'', p', happly, hcompile, hrepeats⟩ := exists_compile_again hc ht h
    exact ⟨d'', p', happly, hcompile, hrepeats.build_eq⟩
  | false =>
    obtain ⟨members, _, ht⟩ := bind_ok.1 ht
    rw [hc] at ht
    obtain rfl := pure_ok.1 ht
    refine ⟨.map members, p, bind_ok.2 ⟨members, rfl, ?_⟩, h, fun e generatedAt => rfl⟩
    rw [hc]
    rfl

end Spec

/-- a specification whose color has an override of its own, and another under a tone -/
def Sample.tinted : Document := .record [
  ("primitives", .record [
    ("gray", .list [.text "#000000", .text "#777777", .text "#ffffff"])]),
  ("themes", .record [("day", .record [("ramp", .text "gray"), ("step", .int 2),
    ("tone", .record [("vivid", .record [("step", .int 1)])])])]),
  ("foreground", .record [("ink", .record [("ramp", .text "gray"), ("defaultStep", .int 0),
    ("overrides", .list [.record [("bg", .text "day"), ("step", .int 1)]]),
    ("tone", .record [("vivid", .record [
      ("overrides", .list [.record [("bg", .text "day"), ("step", .int 0)]])])])])])]

/-- the specification under its tone -/
def Sample.vivid : Document :=
  (Tone.apply tinted (.text "vivid")).toOption.get (by decide)

/-- the tone adds its override once more, and the same is built -/
theorem Spec.exists_same_build_tinted :
    ∃ p d p', compile Sample.vivid = .ok p ∧ Tone.apply Sample.vivid (.text "vivid") = .ok d ∧
      compile d = .ok p' ∧
      (p.semantics.map fun t => t.2.overrides.length) = [2] ∧
      (p'.semantics.map fun t => t.2.overrides.length) = [3] ∧
      ∀ (e : Engine) (generatedAt : String), p'.build e generatedAt = p.build e generatedAt := by
  have hvivid : Tone.apply Sample.tinted (.text "vivid") = .ok Sample.vivid := eq_ok_get _
  have hs : (compile Sample.vivid).toOption.isSome = true := by decide
  have hp := eq_ok_get hs
  have hcounts : ((Tone.apply Sample.vivid (.text "vivid") >>= compile).toOption.map fun p =>
      p.semantics.map fun t => t.2.overrides.length) = some [3] := by decide
  obtain ⟨d, p', happly, hp', hbuild⟩ := exists_same_build hvivid hp
  refine ⟨_, d, p', hp, happly, hp', rfl, ?_, hbuild⟩
  rw [bind_ok.2 ⟨d, happly, hp'⟩] at hcounts
  exact Option.some.inj hcounts

end Palette
