import Palette.Proofs.Registry.Separation
import Palette.Registry.Swatch

/-!
# The best replacement

The search keeps a candidate until a better one comes, so it ends with the first of those that score
highest. In exact arithmetic it is taken exactly if it is another color and better by the margin,
and then it looks farther from the nearest of the other colors than the present color did.

* `Gauge.weighing`           the measure of builds and swatches, over numbers of any kind;
* `Gauge.Leads`              a candidate above all before it and not below any after it;
* `Gauge.leads_of_best?`     the running best is one, after every candidate;
* `Gauge.best?_eq_some_iff`  and there is one only;
* `Gauge.nearest`            the least distance from the others, or what stands for it where there
                             are none;
* `Gauge.replacement?_exact` what the search returns, and when it returns nothing.
-/

set_option linter.unusedSectionVars false

namespace Palette

namespace Gauge
variable {α κ : Type}

/-- the measure of builds and swatches, over numbers of any kind -/
def weighing [OfScientific κ] (look : α → α) (distance : α → α → κ) (confusion distinguishable : κ)
    (counts : κ → Bool) : Gauge α κ :=
  { look, distance, confusion, distinguishable, counts
    separationWeight := 0.7
    driftWeight := 0.3
    margin := 0.5 }

theorem correction_eq_weighing (o : CorrectionOptions) (m : Deficiency) :
    Correction.gauge o m =
      weighing (Hex.simulate m) Hex.distance o.confusion o.distinguishable
        fun s => -Numeral.infinity < s := rfl

theorem swatch_eq_weighing (mode : Document) (alone : Float) :
    Swatch.gauge mode alone =
      weighing (fun s => { s with color := Swatch.look mode s.color })
        (fun a b => Hex.distance a.color b.color) 0.0 alone fun s => -Numeral.infinity < s := rfl

/-! ## the first of the highest -/

section
variable [LinearOrder κ]

/-- a candidate whose score is above those of all before it and not below those of all after it -/
def Leads (score : α → κ) (candidates : List α) (b : α) : Prop :=
  ∃ before after, candidates = before ++ b :: after ∧ (∀ c ∈ before, score c < score b) ∧
    ∀ c ∈ after, score c ≤ score b

variable {score : α → κ} {candidates : List α} {b b' c : α}

theorem Leads.mem (h : Leads score candidates b) : b ∈ candidates := by
  obtain ⟨before, after, rfl, _, _⟩ := h
  exact List.mem_append_right _ List.mem_cons_self

theorem Leads.le (h : Leads score candidates b) (hc : c ∈ candidates) : score c ≤ score b := by
  obtain ⟨before, after, rfl, hbefore, hafter⟩ := h
  rcases List.mem_append.1 hc with hc | hc
  · exact (hbefore c hc).le
  · rcases List.mem_cons.1 hc with rfl | hc
    · exact le_rfl
    · exact hafter c hc

/-- of two that lead, neither stands before the other -/
theorem Leads.unique (h : Leads score candidates b) (h' : Leads score candidates b') : b = b' := by
  have hle := h.le h'.mem
  have hge := h'.le h.mem
  obtain ⟨before, after, rfl, hbefore, _⟩ := h
  obtain ⟨before', after', heq, hbefore', _⟩ := h'
  rcases List.append_eq_append_iff.1 heq with ⟨between, rfl, hrest⟩ | ⟨between, rfl, hrest⟩
  · cases between with
    | nil => exact (List.cons.inj hrest).1
    | cons a between =>
      obtain rfl := (List.cons.inj hrest).1
      exact absurd (hbefore' b (List.mem_append_right _ List.mem_cons_self)) hle.not_gt
  · cases between with
    | nil => exact (List.cons.inj hrest).1.symm
    | cons a between =>
      obtain rfl := (List.cons.inj hrest).1
      exact absurd (hbefore b' (List.mem_append_right _ List.mem_cons_self)) hge.not_gt

theorem Leads.append (h : Leads score candidates b) (hc : score c ≤ score b) :
    Leads score (candidates ++ [c]) b := by
  obtain ⟨before, after, rfl, hbefore, hafter⟩ := h
  refine ⟨before, after ++ [c], by simp, hbefore, fun d hd => ?_⟩
  rcases List.mem_append.1 hd with hd | hd
  · exact hafter d hd
  · rwa [List.mem_singleton.1 hd]

theorem Leads.last (h : ∀ d ∈ candidates, score d < score c) :
    Leads score (candidates ++ [c]) c :=
  ⟨candidates, [], rfl, h, fun _ hd => absurd hd List.not_mem_nil⟩

variable [Sub κ] [Mul κ] {g : Gauge α κ} (hg : ∀ s, g.counts s = true)
include hg

/-- one more candidate is taken exactly if it is better than all before it -/
theorem leads_better {found : Option (α × κ)}
    (hnone : found = none → candidates = [])
    (hsome : ∀ x ∈ found, Leads score candidates x.1 ∧ x.2 = score x.1) (c : α) :
    ∃ x, g.better score found c = some x ∧ Leads score (candidates ++ [c]) x.1 ∧
      x.2 = score x.1 := by
  cases found with
  | none =>
    obtain rfl := hnone rfl
    refine ⟨(c, score c), if_pos (hg _), Leads.last fun d hd => ?_, rfl⟩
    exact absurd hd List.not_mem_nil
  | some x =>
    obtain ⟨hleads, hx⟩ := hsome x rfl
    by_cases hlt : x.2 < score c
    · refine ⟨(c, score c), if_pos hlt, Leads.last fun d hd => ?_, rfl⟩
      exact (hleads.le hd).trans_lt (hx ▸ hlt)
    · exact ⟨x, if_neg hlt, hleads.append (hx ▸ not_lt.1 hlt), hx⟩

/-- after any candidates the best so far leads them, and there is one after the first -/
theorem leads_of_best? (score : α → κ) (candidates : List α) :
    (g.best? score candidates = none → candidates = []) ∧
      ∀ x ∈ g.best? score candidates, Leads score candidates x.1 ∧ x.2 = score x.1 := by
  induction candidates using List.reverseRecOn with
  | nil => exact ⟨fun _ => rfl, fun x hx => nomatch hx⟩
  | append_singleton candidates c ih =>
    have hstep : g.best? score (candidates ++ [c]) =
        g.better score (g.best? score candidates) c := by
      rw [best?, List.foldl_append]
      rfl
    obtain ⟨x, hx, hleads⟩ := leads_better hg ih.1 ih.2 c
    rw [hstep, hx]
    refine ⟨fun h => (Option.some_ne_none x h).elim, fun y hy => ?_⟩
    rwa [← Option.some.inj hy]

theorem best?_eq_some_iff {s : κ} :
    g.best? score candidates = some (b, s) ↔ Leads score candidates b ∧ s = score b := by
  obtain ⟨hnone, hsome⟩ := leads_of_best? hg score candidates
  constructor
  · exact fun h => hsome _ h
  · rintro ⟨hleads, rfl⟩
    cases hbest : g.best? score candidates with
    | none =>
      rw [hnone hbest] at hleads
      exact absurd hleads.mem List.not_mem_nil
    | some x =>
      obtain ⟨hx, hs⟩ := hsome x hbest
      obtain rfl := hx.unique hleads
      rw [← hs]

theorem exists_leads (hne : candidates ≠ []) : ∃ b, Leads score candidates b := by
  obtain ⟨hnone, hsome⟩ := leads_of_best? hg score candidates
  cases hbest : g.best? score candidates with
  | none => exact absurd (hnone hbest) hne
  | some x => exact ⟨x.1, (hsome x hbest).1⟩

variable [DecidableEq α] {color : α} {others : List α}

/-- what leads is returned if it is another color and better by the margin -/
theorem replacement?_of_leads (h : Leads (g.score others (g.look color)) candidates b) :
    g.replacement? candidates color others =
      if g.score others (g.look color) b - g.separationWeight * g.separation others (g.look color) <
          g.margin ∨ b = color then none
      else some b := by
  rw [replacement?, (best?_eq_some_iff hg).2 ⟨h, rfl⟩]

theorem replacement?_eq_some_iff :
    g.replacement? candidates color others = some b ↔
      Leads (g.score others (g.look color)) candidates b ∧ b ≠ color ∧
        g.margin ≤ g.score others (g.look color) b -
          g.separationWeight * g.separation others (g.look color) := by
  constructor
  · intro h
    obtain ⟨b', hb⟩ := exists_leads hg (List.ne_nil_of_mem (of_replacement? h).1)
    rw [replacement?_of_leads hg hb] at h
    obtain ⟨hno, heq⟩ := Option.ite_none_left_eq_some.1 h
    obtain rfl := Option.some.inj heq
    rw [not_or, not_lt] at hno
    exact ⟨hb, hno.2, hno.1⟩
  · rintro ⟨hb, hne, hmargin⟩
    rw [replacement?_of_leads hg hb]
    exact if_neg (not_or.2 ⟨hmargin.not_gt, hne⟩)

/-- nothing is returned where there is no candidate, or where the one that leads is refused -/
theorem replacement?_eq_none_iff :
    g.replacement? candidates color others = none ↔
      candidates = [] ∨ ∃ b, Leads (g.score others (g.look color)) candidates b ∧
        (b = color ∨ g.score others (g.look color) b -
          g.separationWeight * g.separation others (g.look color) < g.margin) := by
  by_cases hne : candidates = []
  · subst hne
    exact iff_of_true rfl (.inl rfl)
  · obtain ⟨b, hb⟩ := exists_leads hg hne
    rw [replacement?_of_leads hg hb, ite_eq_left_iff, or_iff_right hne]
    constructor
    · intro h
      refine ⟨b, hb, ?_⟩
      by_contra hno
      exact Option.some_ne_none b (h fun hor => hno hor.symm)
    · rintro ⟨b', hb', hor⟩ hno
      obtain rfl := hb.unique hb'
      exact absurd hor.symm hno

end

/-! ## the nearest of the others -/

/-- the least distance of a look from the others; `alone` where there are none -/
def nearest [Min κ] (distance : α → α → κ) (alone : κ) (others : List α) (look : α) : κ :=
  ((others.map (distance look)).min?).getD alone

section
variable [LinearOrder κ] {g : Gauge α κ}

theorem separation_eq_nearest (others : List α) (look : α) :
    g.separation others look = nearest g.distance g.distinguishable others look := by
  cases others with
  | nil => rfl
  | cons o os =>
    have hmin : ((o :: os).map (g.distance look)).min? =
        some (g.separation (o :: os) look) := by
      rw [List.min?_eq_some_iff]
      exact ⟨least_mem _ _, least_le fun x _ => le_rfl⟩
    rw [nearest, hmin, Option.getD_some]

end

/-! ## exact arithmetic -/

section
variable [Field κ] [LinearOrder κ] [IsStrictOrderedRing κ] [DecidableEq α]

/-- what separates by more after a drift is farther apart by more than that -/
theorem add_le_of_score {near far drift : κ} (hdrift : 0 ≤ drift)
    (h : 0.5 ≤ 0.7 * far - 0.3 * drift - 0.7 * near) : near + 0.5 / 0.7 ≤ far := by
  norm_num at h ⊢
  linarith

/-- The search among any candidates, in exact arithmetic, however colors look and whatever not
negative distances they have. It returns the first of the candidates that score highest, if this is
another color and better by the margin, and nothing otherwise. What is returned is farther from the
nearest of the others, by the margin over the weight of separation; where there are no others, that
cannot be. -/
theorem replacement?_exact (look : α → α) (distance : α → α → κ) (hd : ∀ a b, 0 ≤ distance a b)
    (confusion distinguishable : κ) (candidates : List α) (color : α) (others : List α) :
    let apart := nearest distance distinguishable others
    let score c := 0.7 * apart (look c) - 0.3 * distance (look c) (look color)
    let found :=
      (weighing look distance confusion distinguishable fun _ => true).replacement? candidates color
        others
    (∀ h, found = some h ↔
      Leads score candidates h ∧ h ≠ color ∧ 0.5 ≤ score h - 0.7 * apart (look color)) ∧
    (∀ h, found = some h → others ≠ [] ∧ apart (look color) + 0.5 / 0.7 ≤ apart (look h)) ∧
    (found = none ↔ candidates = [] ∨
      ∃ h, Leads score candidates h ∧ (h = color ∨ score h - 0.7 * apart (look color) < 0.5)) := by
  intro apart score found
  let g := weighing look distance confusion distinguishable fun _ => true
  have hg (s : κ) : g.counts s = true := rfl
  have hscore : g.score others (g.look color) = score :=
    funext fun c => congrArg (0.7 * · - _) (separation_eq_nearest others (look c))
  have hapart : g.separation others (g.look color) = apart (look color) :=
    separation_eq_nearest others (look color)
  have hsome (h : α) : found = some h ↔
      Leads score candidates h ∧ h ≠ color ∧ 0.5 ≤ score h - 0.7 * apart (look color) := by
    rw [← hscore, ← hapart]
    exact replacement?_eq_some_iff hg
  refine ⟨hsome, fun h hfound => ?_, ?_⟩
  · obtain ⟨_, _, hmargin⟩ := (hsome h).1 hfound
    have hfar : apart (look color) + 0.5 / 0.7 ≤ apart (look h) := add_le_of_score (hd _ _) hmargin
    refine ⟨?_, hfar⟩
    rintro rfl
    -- without others both looks have the same separation
    exact absurd hfar (lt_add_of_pos_right distinguishable (by norm_num)).not_ge
  · rw [← hscore, ← hapart]
    exact replacement?_eq_none_iff hg

end

end Gauge

namespace Sample

/-- a deficiency under which green and blue are not seen -/
def reddened (h : Hex) : Hex := ⟨h.red, 0, 0⟩

/-- the difference in red -/
def redGap (a b : Hex) : ℚ := |(a.red.toNat : ℚ) - b.red.toNat|

end Sample

/-- of two candidates that look the same the first is taken, and the color itself never is -/
theorem Gauge.replacement?_exact_alike :
    let search (candidates : List Hex) :=
      (Gauge.weighing Sample.reddened Sample.redGap 5 8 fun _ => true).replacement? candidates
        ⟨10, 0, 0⟩ [⟨12, 0, 0⟩]
    (∀ a b, 0 ≤ Sample.redGap a b) ∧
      search [⟨12, 9, 9⟩, ⟨4, 1, 0⟩, ⟨4, 2, 0⟩, ⟨20, 0, 0⟩] = some ⟨4, 1, 0⟩ ∧
      search [⟨10, 0, 0⟩] = none := by
  intro search
  have hd (a b : Hex) : 0 ≤ Sample.redGap a b := abs_nonneg _
  refine ⟨hd, ?_, ?_⟩
  · obtain ⟨hsome, _, _⟩ := Gauge.replacement?_exact Sample.reddened Sample.redGap hd 5 8
      [⟨12, 9, 9⟩, ⟨4, 1, 0⟩, ⟨4, 2, 0⟩, ⟨20, 0, 0⟩] ⟨10, 0, 0⟩ [⟨12, 0, 0⟩]
    refine (hsome ⟨4, 1, 0⟩).2 ⟨⟨[⟨12, 9, 9⟩], [⟨4, 2, 0⟩, ⟨20, 0, 0⟩], rfl, ?_, ?_⟩, ?_, ?_⟩ <;>
      decide +kernel
  · obtain ⟨_, _, hnone⟩ := Gauge.replacement?_exact Sample.reddened Sample.redGap hd 5 8
      [⟨10, 0, 0⟩] ⟨10, 0, 0⟩ [⟨12, 0, 0⟩]
    exact hnone.2 (.inr ⟨_, ⟨[], [], rfl, by decide, by decide⟩, .inl rfl⟩)

end Palette
