import Palette.Proofs.Registry.Corrections

/-!
# What the search for a replacement finds

A color is moved because it is confused with another one of its site, and it is moved to what the
search finds among the colors of its ramp that pass there.

* `Gauge.rel_of_mem_pairs`   pairs are made of two places of a list;
* `Gauge.of_best?`           what is found is a candidate, with its score;
* `Gauge.of_replacement?`    a replacement is another candidate, better by the margin;
* `Correction.mem_scene`     the colors at a site;
* `Correction.exists_confused_of_mem_moves`   a color that is moved is one of two that are confused;
* `Correction.mem_passing`   the candidates.
-/

set_option linter.unusedSectionVars false

namespace Palette

namespace Gauge
variable {α κ τ : Type}

theorem rel_of_mem_pairs {R : τ → τ → Prop} {l : List τ} (hl : l.Pairwise R) {p : τ × τ}
    (h : p ∈ pairs l) : p.1 ∈ l ∧ p.2 ∈ l ∧ R p.1 p.2 := by
  induction l with
  | nil => exact absurd h List.not_mem_nil
  | cons a l ih =>
    obtain ⟨ha, hl⟩ := List.pairwise_cons.1 hl
    rcases List.mem_append.1 h with h | h
    · obtain ⟨b, hb, rfl⟩ := List.mem_map.1 h
      exact ⟨List.mem_cons_self, List.mem_cons_of_mem _ hb, ha b hb⟩
    · obtain ⟨h₁, h₂, hr⟩ := ih hl h
      exact ⟨List.mem_cons_of_mem _ h₁, List.mem_cons_of_mem _ h₂, hr⟩

variable [LT κ] [DecidableLT κ] [LE κ] [DecidableLE κ] {g : Gauge α κ}

theorem confuses_iff {a b : α} :
    g.confuses a b = true ↔
      ¬g.distance a b ≤ g.distinguishable ∧ g.distance (g.look a) (g.look b) < g.confusion := by
  rw [confuses, Bool.and_eq_true, Bool.not_eq_true', decide_eq_false_iff_not, decide_eq_true_eq]

variable [Sub κ] [Mul κ] {score : α → κ}

/-- a step of the search takes the candidate or keeps what was found -/
theorem better_eq_or (found : Option (α × κ)) (c : α) :
    g.better score found c = some (c, score c) ∨ g.better score found c = found := by
  cases found with
  | none =>
    show (if _ then _ else _) = _ ∨ (if _ then _ else _) = _
    split
    · exact .inl rfl
    · exact .inr rfl
  | some x =>
    show (if _ then _ else _) = _ ∨ (if _ then _ else _) = _
    split
    · exact .inl rfl
    · exact .inr rfl

/-- what is found is a candidate, with its score -/
theorem of_best? {candidates : List α} {x : α × κ} (h : g.best? score candidates = some x) :
    x.1 ∈ candidates ∧ x.2 = score x.1 := by
  have hfold (cs : List α) (found : Option (α × κ)) (hcs : ∀ c ∈ cs, c ∈ candidates)
      (hfound : ∀ y ∈ found, y.1 ∈ candidates ∧ y.2 = score y.1) :
      ∀ y ∈ cs.foldl (g.better score) found, y.1 ∈ candidates ∧ y.2 = score y.1 := by
    induction cs generalizing found with
    | nil => exact hfound
    | cons c cs ih =>
      refine ih _ (fun d hd => hcs d (List.mem_cons_of_mem _ hd)) fun y hy => ?_
      have hstep : g.better score found c = _ ∨ g.better score found c = _ := better_eq_or found c
      rcases hstep with hc | hc
      · rw [hc] at hy
        obtain rfl := Option.some.inj hy
        exact ⟨hcs c List.mem_cons_self, rfl⟩
      · rw [hc] at hy
        exact hfound y hy
  exact hfold candidates none (fun _ hc => hc) (fun _ hy => nomatch hy) x h

/-- a replacement is another candidate, better by the margin -/
theorem of_replacement? [DecidableEq α] {candidates : List α} {color : α} {others : List α}
    {b : α} (h : g.replacement? candidates color others = some b) :
    b ∈ candidates ∧ b ≠ color ∧
      ¬g.score others (g.look color) b - g.separationWeight * g.separation others (g.look color) <
        g.margin := by
  rw [replacement?] at h
  split at h
  · cases h
  · next b' s hbest =>
    split at h
    · cases h
    · next hno =>
      obtain rfl := Option.some.inj h
      obtain ⟨hm, hs⟩ := of_best? hbest
      rw [not_or] at hno
      exact ⟨hm, hno.2, hs ▸ hno.1⟩

end Gauge

namespace Correction

theorem mem_scene {color? : VariantKey → Option Hex} {names : List Atom} {s : Site}
    {c : Atom × Hex} :
    c ∈ scene color? names s ↔
      c.1 ∈ names ∧ color? (VariantKey.atSite c.1 VariantKey.plainVision s) = some c.2 := by
  rw [scene, List.mem_filterMap]
  constructor
  · rintro ⟨n, hn, h⟩
    obtain ⟨x, hx, rfl⟩ := Option.map_eq_some_iff.1 h
    exact ⟨hn, hx⟩
  · rintro ⟨hn, hx⟩
    exact ⟨c.1, hn, by rw [hx]; rfl⟩

theorem pairwise_scene {color? : VariantKey → Option Hex} {names : List Atom}
    (hn : names.Pairwise fun a b => (a == b) = false) (s : Site) :
    (scene color? names s).Pairwise fun a b => (a.1 == b.1) = false := by
  refine hn.filterMap _ fun a b hab x hx y hy => ?_
  rw [of_mem_scene hx, of_mem_scene hy]
  exact hab

/-- a name has one color at a site -/
theorem eq_of_mem_scene {color? : VariantKey → Option Hex} {names : List Atom}
    (hn : names.Pairwise fun a b => (a == b) = false) {s : Site} {c d : Atom × Hex}
    (hc : c ∈ scene color? names s) (hd : d ∈ scene color? names s) (h : (c.1 == d.1) = true) :
    c = d := by
  have : Std.Symm fun a b : Atom × Hex => (a.1 == b.1) = false :=
    ⟨fun _ _ hab => BEq.symm_false hab⟩
  by_contra hne
  rw [(pairwise_scene hn s).forall hc hd hne] at h
  cases h

variable {κ : Type} [LT κ] [DecidableLT κ] [LE κ] [DecidableLE κ] [Sub κ] [Mul κ]
variable {q : Request κ} {m : Deficiency} {s : Site}

theorem mem_scene_of_mem_moves {c : Atom × Hex} (h : c ∈ moves q m s) :
    c ∈ scene q.color? q.semantics.keys s := (List.mem_filter.1 h).1

/-- a color that is moved is one of two that are distinct and look alike -/
theorem exists_confused_of_mem_moves (hq : q.semantics.Distinct) {c : Atom × Hex}
    (h : c ∈ moves q m s) :
    ∃ a ∈ scene q.color? q.semantics.keys s, ∃ b ∈ scene q.color? q.semantics.keys s,
      (a.1 == b.1) = false ∧ (a = c ∨ b = c) ∧ (q.gauge m).confuses a.2 b.2 = true := by
  obtain ⟨hc, hp⟩ := List.mem_filter.1 h
  obtain ⟨n, hn, hp⟩ := List.any_eq_true.1 (Bool.and_eq_true_iff.1 hp).1
  obtain ⟨⟨a, b⟩, hab, rfl⟩ := List.mem_map.1 hn
  obtain ⟨hpair, hconfuses⟩ := List.mem_filter.1 hab
  obtain ⟨ha, hb, hne⟩ := Gauge.rel_of_mem_pairs (pairwise_scene hq s) hpair
  refine ⟨a, ha, b, hb, hne, ?_, hconfuses⟩
  rcases Bool.or_eq_true_iff.1 hp with hp | hp
  · exact .inl (eq_of_mem_scene hq ha hc hp)
  · exact .inr (eq_of_mem_scene hq hb hc hp)

theorem mem_passing {t : Semantic} {h : Hex} :
    h ∈ passing q t s ↔
      h ∈ t.ramp.colors ∧ s.passes q.engine t.target q.level h = true := by
  rw [passing, List.mem_filter, List.mem_eraseDups]

end Correction
end Palette
