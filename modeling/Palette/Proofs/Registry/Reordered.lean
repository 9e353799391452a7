import Palette.Proofs.Registry.Separation

/-!
# The order of declarations does not matter

Colors declared in another order are built into the same variants. Records are made color by color.
Corrections look at all colors of a site, but only through which two of them are confused and
through least distances. So the order does not matter where distances are symmetric and in a linear
order. Distances of colors are, as far as a few facts about powers of floats hold, of which nothing
else is known here.

* `Gauge.Linear`              such distances;
* `Gauge.mem_pairs_perm`      pairs of a list are pairs of it in another order, up to a swap;
* `Gauge.separation_perm`     the least distance does not look at the order;
* `Correction.all_perm`       requests that differ in the order of their colors add the same;
* `Correction.linear_gauge`   distances of colors are symmetric and in a linear order;
* `Spec.reordered_of_build`   a build from colors in another order has the same variants.
-/

set_option linter.unusedSectionVars false

namespace Palette
open Outcome

/-! ## measures -/

namespace Gauge
variable {α κ τ : Type}

/-- two places of a list are a pair of it, in either order, wherever they are -/
theorem mem_pairs_perm {l l' : List τ} (h : l.Perm l') {a b : τ} (hp : (a, b) ∈ pairs l) :
    (a, b) ∈ pairs l' ∨ (b, a) ∈ pairs l' := by
  induction h generalizing a b with
  | nil => exact absurd hp List.not_mem_nil
  | cons x h ih =>
    rcases List.mem_append.1 hp with hp | hp
    · obtain ⟨y, hy, heq⟩ := List.mem_map.1 hp
      exact .inl (List.mem_append_left _ (List.mem_map.2 ⟨y, h.mem_iff.1 hy, heq⟩))
    · exact (ih hp).imp (List.mem_append_right _) (List.mem_append_right _)
  | swap x y l =>
    simp only [pairs, List.map_cons, List.mem_append, List.mem_cons, Prod.mk.injEq] at hp ⊢
    tauto
  | trans _ _ ih ih' =>
    rcases ih hp with hp | hp
    · exact ih' hp
    · exact (ih' hp).symm

variable [LT κ] [DecidableLT κ] [LE κ] [DecidableLE κ]

/-- a measure whose distances are symmetric and in a linear order -/
structure Linear (g : Gauge α κ) : Prop where
  symm : ∀ a b, g.distance a b = g.distance b a
  total : ∀ a b c d, g.distance a b ≤ g.distance c d ∨ g.distance c d ≤ g.distance a b
  antisymm : ∀ a b c d, g.distance a b ≤ g.distance c d → g.distance c d ≤ g.distance a b →
    g.distance a b = g.distance c d

variable {g : Gauge α κ} (hg : g.Linear)
include hg

theorem confuses_symm (a b : α) : g.confuses a b = g.confuses b a := by
  rw [confuses, confuses, hg.symm a b, hg.symm (g.look a) (g.look b)]

theorem separation_perm [StrictScale κ] {others others' : List α} (h : others.Perm others')
    (look : α) : g.separation others look = g.separation others' look := by
  have hself (a b : α) : g.distance a b ≤ g.distance a b := (hg.total a b a b).elim id id
  by_cases hne : others = []
  · subst hne
    rw [List.nil_perm.1 h]
  · have hne' : others' ≠ [] := fun hnil => hne (List.perm_nil.1 (hnil ▸ h))
    obtain ⟨o, ho, heq⟩ := exists_separation (g := g) hne look
    obtain ⟨o', ho', heq'⟩ := exists_separation (g := g) hne' look
    have hle := separation_le hself look (h.mem_iff.2 ho')
    have hle' := separation_le hself look (h.mem_iff.1 ho)
    rw [heq] at hle ⊢
    rw [heq'] at hle' ⊢
    exact hg.antisymm _ _ _ _ hle hle'

variable [Sub κ] [Mul κ]

theorem replacement?_perm [StrictScale κ] [DecidableEq α] {others others' : List α}
    (h : others.Perm others') (candidates : List α) (color : α) :
    g.replacement? candidates color others = g.replacement? candidates color others' := by
  have hscore : g.score others = g.score others' := by
    funext present candidate
    rw [score, score, separation_perm hg h]
  rw [replacement?, replacement?, hscore, separation_perm hg h]

end Gauge

/-! ## corrections -/

namespace Correction
variable {κ : Type} [LT κ] [DecidableLT κ] [LE κ] [DecidableLE κ]

/-- distances of colors are symmetric and in a linear order -/
theorem linear_gauge (hp : Light.Powers Light.raised) (o : CorrectionOptions) (m : Deficiency) :
    (gauge o m).Linear where
  symm := Hex.distance_comm hp
  total a b c d := (Hex.upright_distance hp a b).total (Hex.upright_distance hp c d)
  antisymm a b c d := (Hex.upright_distance hp a b).antisymm (Hex.upright_distance hp c d)

theorem involved_of_perm {g : Gauge Hex κ} (hg : g.Linear) {colors colors' : List (Atom × Hex)}
    (h : colors.Perm colors') {n : Atom} (hn : involved (g.confused colors) n = true) :
    involved (g.confused colors') n = true := by
  obtain ⟨x, hx, hn⟩ := List.any_eq_true.1 hn
  obtain ⟨⟨a, b⟩, hab, rfl⟩ := List.mem_map.1 hx
  obtain ⟨hpair, hconfuses⟩ := List.mem_filter.1 hab
  rcases Gauge.mem_pairs_perm h hpair with hpair | hpair
  · exact List.any_eq_true.2
      ⟨_, List.mem_map_of_mem (List.mem_filter.2 ⟨hpair, hconfuses⟩), hn⟩
  · have hswap : g.confuses b.2 a.2 = true := (Gauge.confuses_symm hg b.2 a.2).trans hconfuses
    exact List.any_eq_true.2
      ⟨_, List.mem_map_of_mem (List.mem_filter.2 ⟨hpair, hswap⟩), (Bool.or_comm _ _).trans hn⟩

theorem involved_perm {g : Gauge Hex κ} (hg : g.Linear) {colors colors' : List (Atom × Hex)}
    (h : colors.Perm colors') (n : Atom) :
    involved (g.confused colors) n = involved (g.confused colors') n :=
  Bool.eq_iff_iff.2 ⟨involved_of_perm hg h, involved_of_perm hg h.symm⟩

variable [Sub κ] [Mul κ] [StrictScale κ] {q : Request κ} (hq : q.semantics.Distinct)
  (hg : ∀ m, (q.gauge m).Linear) {semantics : Entries Atom Semantic}
  {explicit : List (Atom × Deficiency)} (hs : q.semantics.Perm semantics)
  (he : q.explicit.Perm explicit)
include hg hs

theorem scene_perm (s : Site) :
    (scene q.color? q.semantics.keys s).Perm (scene q.color? semantics.keys s) :=
  (hs.map Prod.fst).filterMap _

include he

theorem moves_perm (m : Deficiency) (s : Site) :
    (moves q m s).Perm (moves { q with semantics, explicit } m s) := by
  have hcontains (x : Atom × Deficiency) : q.explicit.contains x = explicit.contains x := by
    rw [List.contains_eq_any_beq, List.contains_eq_any_beq]
    exact he.any_eq
  have hscene := scene_perm hg hs s
  rw [moves, moves]
  show List.Perm _ ((scene q.color? semantics.keys s).filter fun c =>
    involved ((q.gauge m).confused (scene q.color? semantics.keys s)) c.1 &&
      !explicit.contains (c.1, m))
  simp only [hcontains, involved_perm (hg m) hscene]
  exact hscene.filter _

include hq

/-- a color is moved in the same way, wherever it was declared -/
theorem move?_perm (m : Deficiency) (s : Site) :
    move? q m s = move? { q with semantics, explicit } m s := by
  funext c
  have hothers := ((scene_perm hg hs s).filter fun o => o.1.differs c.1).map
    fun o => (q.gauge m).look o.2
  rw [move?, move?, Entries.lookup_perm hq hs]
  show (semantics.lookup c.1).bind _ = (semantics.lookup c.1).bind _
  congr 1
  funext t
  dsimp only
  rw [Gauge.replacement?_perm (hg m) hothers]
  rfl

theorem all_perm (sites : List Site) :
    (all q sites).Perm (all { q with semantics, explicit } sites) := by
  refine List.Perm.flatMap_left _ fun m _ => List.Perm.flatMap_left _ fun s _ => ?_
  rw [← move?_perm hq hg hs he m s]
  exact (moves_perm hg hs he m s).filterMap _

end Correction

/-! ## builds -/

namespace Spec
variable {p : Spec} {e : Engine} {ts : Entries Atom Semantic}

/-- the specification with its colors declared otherwise -/
def declaring (p : Spec) (ts : Entries Atom Semantic) : Spec := { p with semantics := ts }

section
variable (hts : p.semantics.Perm ts)
include hts

theorem records_perm : (p.records e).Perm ((p.declaring ts).records e) := hts.flatMap_right _

theorem written_perm : (p.written e).Perm ((p.declaring ts).written e) := (records_perm hts).map _

theorem Unambiguous.declaring (hu : p.Unambiguous) : (p.declaring ts).Unambiguous where
  named := fun t ht => hu.named t (hts.mem_iff.2 ht)
  distinct := by
    have hnames : p.names.Perm (p.declaring ts).names :=
      (hts.map _).append (hts.flatMap_right _)
    exact (hnames.pairwise_iff fun h => BEq.symm_false h).1 hu.distinct

theorem Coherent.declaring (hp : p.Coherent) : (p.declaring ts).Coherent :=
  { hp with
    distinct_semantics :=
      ((hts.map Prod.fst).pairwise_iff fun h => BEq.symm_false h).1 hp.distinct_semantics
    semantic := fun t ht => hp.semantic t (hts.mem_iff.2 ht) }

/-- where colors are built, they are built in another order, too -/
theorem exists_build_declaring {generatedAt : String} {r : Registry}
    (hb : p.build e generatedAt = .ok r) :
    ∃ r', (p.declaring ts).build e generatedAt = .ok r' := by
  obtain ⟨hcheck, failures, hfailures, hfatal, _⟩ := build_ok.1 hb
  have hfailing := (records_perm (e := e) hts).filter
    fun y => y.manual && !y.variant.evaluation.passed
  obtain ⟨failures', hfailures'⟩ : ∃ fs, Record.failures ((p.declaring ts).records e) = .ok fs := by
    refine exists_mapM_ok fun y hy => ?_
    obtain ⟨text, _, h⟩ := exists_of_mem_left (mapM_ok.1 hfailures) (hfailing.mem_iff.2 hy)
    exact ⟨text, h⟩
  refine ⟨_, build_ok.2 ⟨?_, failures', hfailures', ?_, rfl⟩⟩
  · exact forM_ok.2 fun t ht => forM_ok.1 hcheck t (hts.mem_iff.2 ht)
  · have hempty : failures'.isEmpty = failures.isEmpty := by
      rw [isEmpty_of_mapM hfailures', isEmpty_of_mapM hfailures]
      exact hfailing.symm.isEmpty_eq
    rw [hempty]
    exact hfatal

section
variable (hu : p.Unambiguous) (hp : p.Coherent)
include hu hp

theorem get?_perm (k : VariantKey) :
    (Record.variants ((p.declaring ts).records e)).get? k =
      (Record.variants (p.records e)).get? k := by
  rw [← OrderedMap.lookup_toList, ← OrderedMap.lookup_toList, toList_variants_records hu hp,
    toList_variants_records (hu.declaring hts) (hp.declaring hts)]
  exact (Entries.lookup_perm (distinct_written hu hp) (written_perm hts) k).symm

variable {κ : Type} [LT κ] [DecidableLT κ] [LE κ] [DecidableLE κ] [Sub κ] [Mul κ] [StrictScale κ]
  {gauge : Deficiency → Gauge Hex κ} (hg : ∀ m, (gauge m).Linear)
include hg

theorem correctionsIn_perm :
    (p.correctionsIn e gauge (Record.variants (p.records e))).Perm
      ((p.declaring ts).correctionsIn e gauge
        (Record.variants ((p.declaring ts).records e))) := by
  have hrequest : (p.declaring ts).requestIn e gauge
        (Record.variants ((p.declaring ts).records e)) =
      { p.requestIn e gauge (Record.variants (p.records e)) with
        semantics := ts, explicit := ts.flatMap fun t => t.2.explicit } := by
    have hcolor : (fun k => ((Record.variants ((p.declaring ts).records e)).get? k).map (·.hex)) =
        fun k => ((Record.variants (p.records e)).get? k).map (·.hex) :=
      funext fun k => congrArg (Option.map (·.hex)) (get?_perm hts hu hp k)
    rw [requestIn, request, hcolor]
    rfl
  rw [correctionsIn, correctionsIn, hrequest]
  show List.Perm _ (if p.config.correction.enabled.truthy then _ else _)
  split
  · exact Correction.all_perm hp.distinct_semantics hg hts (hts.flatMap_right _) p.sites
  · exact .refl _

theorem lookup_entriesIn_perm (k : VariantKey) :
    (p.entriesIn e gauge).lookup k = ((p.declaring ts).entriesIn e gauge).lookup k := by
  have hdistinct : Entries.Distinct (p.correctionsIn e gauge (Record.variants (p.records e))) :=
    distinct_correctionsIn hp
  rw [entriesIn, entriesIn, List.lookup_append, List.lookup_append,
    Entries.lookup_perm (distinct_written hu hp) (written_perm hts),
    Entries.lookup_perm hdistinct (correctionsIn_perm hts hu hp hg)]

end

end

/-- Colors that pass the check and are declared in another order are built into the same variants,
if distances are symmetric and in a linear order: for the measure of builds, and for any other.
Those of builds are, if powers are as they should be. -/
theorem reordered_of_build {d : Document} (hd : d.isKeyed = true) (hc : compile d = .ok p)
    {generatedAt : String} {r : Registry} (hb : p.build e generatedAt = .ok r)
    (hts : p.semantics.Perm ts) :
    ∃ r', (p.declaring ts).build e generatedAt = .ok r' ∧
      ((∀ m, (Correction.gauge p.config.correction m).Linear) →
        ∀ k, r.variants.get? k = r'.variants.get? k) ∧
      (Light.Powers Light.raised → ∀ k, r.variants.get? k = r'.variants.get? k) ∧
      r.variants.toList = p.entriesIn e (Correction.gauge p.config.correction) ∧
      r'.variants.toList =
        (p.declaring ts).entriesIn e (Correction.gauge p.config.correction) ∧
      ∀ {κ : Type} [LT κ] [DecidableLT κ] [LE κ] [DecidableLE κ] [Sub κ] [Mul κ] [StrictScale κ]
        {gauge : Deficiency → Gauge Hex κ}, (∀ m, (gauge m).Linear) →
          ∀ k, (p.entriesIn e gauge).lookup k =
            ((p.declaring ts).entriesIn e gauge).lookup k := by
  have hu := (names_of_compile hd hc).1
  have hp := coherent_of_compile hd hc
  obtain ⟨r', hb'⟩ := exists_build_declaring hts hb
  have hlist : r.variants.toList = p.entriesIn e (Correction.gauge p.config.correction) :=
    toList_variants_of_build hu hp hb
  have hlist' : r'.variants.toList =
      (p.declaring ts).entriesIn e (Correction.gauge p.config.correction) :=
    toList_variants_of_build (hu.declaring hts) (hp.declaring hts) hb'
  have hsame (hg : ∀ m, (Correction.gauge p.config.correction m).Linear) (k : VariantKey) :
      r.variants.get? k = r'.variants.get? k := by
    rw [← OrderedMap.lookup_toList, ← OrderedMap.lookup_toList, hlist, hlist']
    exact lookup_entriesIn_perm hts hu hp hg k
  exact ⟨r', hb', hsame, fun hpowers => hsame fun m => Correction.linear_gauge hpowers _ m, hlist,
    hlist', fun hg => lookup_entriesIn_perm hts hu hp hg⟩

end Spec

namespace Crowded

theorem distance_mem (a b : Hex) : distance a b ∈ [(0.0 : Float), 2.0, 16.0] := by
  rw [distance]
  split
  · exact List.mem_cons_self
  · split
    · exact .tail _ (.head _)
    · exact .tail _ (.tail _ (.head _))

theorem linear (m : Deficiency) : (spec.gaugeBy look distance m).Linear where
  symm := distance_symm
  total a b c d := by
    have htotal : ∀ x ∈ [(0.0 : Float), 2.0, 16.0], ∀ y ∈ [(0.0 : Float), 2.0, 16.0],
        x ≤ y ∨ y ≤ x := by decide
    exact htotal _ (distance_mem a b) _ (distance_mem c d)
  antisymm a b c d := by
    have hantisymm : ∀ x ∈ [(0.0 : Float), 2.0, 16.0], ∀ y ∈ [(0.0 : Float), 2.0, 16.0],
        x ≤ y → y ≤ x → x = y := by decide
    exact hantisymm _ (distance_mem a b) _ (distance_mem c d)

end Crowded

/-- the colors that move to one, declared in reverse: one of them moves there as before -/
theorem Spec.reordered_of_build_crowded :
    ∃ r r', Crowded.spec.build Wcag.engine "now" = .ok r ∧
      (Crowded.spec.declaring Crowded.spec.semantics.reverse).build Wcag.engine "now" = .ok r' ∧
      (Crowded.spec.declaring Crowded.spec.semantics.reverse).semantics.keys =
        [.text "wait", .text "go", .text "stop"] ∧
      colorAt ((Crowded.spec.declaring Crowded.spec.semantics.reverse).entriesIn Wcag.engine
          (Crowded.spec.gaugeBy Crowded.look Crowded.distance))
        Crowded.site (.text Deficiency.deuteranopia.name) (.text "stop") =
          some ⟨255, 255, 255⟩ := by
  have hbuild : (Crowded.spec.build Wcag.engine "now").toOption.isSome = true := by
    decide
  have hmoved : colorAt Crowded.entries Crowded.site (.text Deficiency.deuteranopia.name)
      (.text "stop") = some ⟨255, 255, 255⟩ := by decide
  have hb := eq_ok_get hbuild
  obtain ⟨r', hb', _, _, _, _, hlookup⟩ := reordered_of_build Crowded.isKeyed_document
    Crowded.compile_document hb (List.reverse_perm Crowded.spec.semantics).symm
  refine ⟨_, r', hb, hb', rfl, ?_⟩
  rw [colorAt, ← hlookup Crowded.linear]
  rw [← Crowded.entriesBy_eq] at hmoved
  exact hmoved

end Palette
