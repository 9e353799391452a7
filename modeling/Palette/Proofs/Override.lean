import Palette.Override
import Palette.Proofs.Entries

/-!
# Steps that overrides set

Rules overwritten by overrides take their steps from rules and from overrides that cover the
context, and from nowhere else.

* `applies`, `applies_iff`      an override is expanded to the contexts that it applies to;
* `covers_of_applies`           and it covers them;
* `lookup_patch`                the last override that applies, in the order of writing, has set
                                the step of a context;
* `lookup_patch_of_uncovered`   a context that no override covers keeps its rule;
* `exists_of_lookup_patch`      where the step of a context comes from.
-/

namespace Palette.Override
variable {ν σ : Type}

theorem mem_expand {o : Override ν σ} {axes : Axes ν} {e : Setting ν × σ} :
    e ∈ o.expand axes ↔
      e.1.theme ∈ o.themes.getD axes.themes ∧ e.1.fontSize ∈ o.fontSizes.getD axes.fontSizes ∧
        e.1.stack ∈ o.layers.getD axes.layers ∧ e.2 = o.step := by
  rw [expand, List.mem_flatMap]
  constructor
  · rintro ⟨t, ht, h⟩
    obtain ⟨f, hf, h⟩ := List.mem_flatMap.1 h
    obtain ⟨k, hk, rfl⟩ := List.mem_map.1 h
    exact ⟨ht, hf, hk, rfl⟩
  · obtain ⟨⟨t, f, k⟩, x⟩ := e
    rintro ⟨ht, hf, hk, rfl⟩
    exact ⟨t, ht, List.mem_flatMap.2 ⟨f, hf, List.mem_map.2 ⟨k, hk, rfl⟩⟩⟩

theorem mem_of_mem_ranked {os : List (Override ν σ)} {o : Override ν σ} (h : o ∈ ranked os) :
    o ∈ os := by
  rw [ranked, List.mem_flatMap] at h
  obtain ⟨_, _, h⟩ := h
  exact (List.mem_filter.1 h).1

variable [BEq ν]

theorem admits_of_mem [PartialEquivBEq ν] {filter : Option (List ν)} {axis : List ν} {name n : ν}
    (hm : n ∈ filter.getD axis) (hn : (name == n) = true) : admits filter name = true := by
  cases filter with
  | none => rfl
  | some names =>
    rw [admits, List.contains_eq_any_beq]
    exact List.any_eq_true.2 ⟨n, hm, hn⟩

/-- is a context among those that an override sets? A filter that is not given stands for the
names on its axis. -/
def applies (axes : Axes ν) (s : Setting ν) (o : Override ν σ) : Bool :=
  (o.themes.getD axes.themes).contains s.theme &&
    (o.fontSizes.getD axes.fontSizes).contains s.fontSize &&
    (o.layers.getD axes.layers).contains s.stack

theorem applies_iff {axes : Axes ν} {s : Setting ν} {o : Override ν σ} :
    o.applies axes s = true ↔ ∃ e ∈ o.expand axes, (s == e.1) = true := by
  simp only [applies, Bool.and_eq_true, List.contains_eq_any_beq, List.any_eq_true]
  constructor
  · rintro ⟨⟨⟨t, ht, et⟩, f, hf, ef⟩, k, hk, ek⟩
    exact ⟨(⟨t, f, k⟩, o.step), mem_expand.2 ⟨ht, hf, hk, rfl⟩,
      (Setting.beq_iff _ _).2 ⟨et, ef, ek⟩⟩
  · rintro ⟨e, he, hs⟩
    obtain ⟨ht, hf, hk, _⟩ := mem_expand.1 he
    obtain ⟨et, ef, ek⟩ := (Setting.beq_iff s e.1).1 hs
    exact ⟨⟨⟨_, ht, et⟩, _, hf, ef⟩, _, hk, ek⟩

theorem covers_of_applies [PartialEquivBEq ν] {axes : Axes ν} {s : Setting ν} {o : Override ν σ}
    (h : o.applies axes s = true) : o.covers s = true := by
  obtain ⟨e, he, hs⟩ := applies_iff.1 h
  obtain ⟨ht, hf, hk, _⟩ := mem_expand.1 he
  obtain ⟨et, ef, ek⟩ := (Setting.beq_iff s e.1).1 hs
  rw [covers, admits_of_mem ht et, admits_of_mem hf ef, admits_of_mem hk ek]
  rfl

theorem lookup_reverse_expand (o : Override ν σ) (axes : Axes ν) (s : Setting ν) :
    (o.expand axes).reverse.lookup s = if o.applies axes s then some o.step else none := by
  cases h : (o.expand axes).reverse.lookup s with
  | some x =>
    obtain ⟨k, hk, hs⟩ := Entries.exists_of_lookup h
    have he := List.mem_reverse.1 hk
    rw [if_pos (applies_iff.2 ⟨_, he, hs⟩), ← (mem_expand.1 he).2.2.2]
  | none =>
    rw [List.lookup_eq_none_iff] at h
    rw [if_neg]
    intro ha
    obtain ⟨e, he, hs⟩ := applies_iff.1 ha
    have hne := h e (List.mem_reverse.2 he)
    rw [bne, hs] at hne
    cases hne

theorem lookup_reverse_flatMap (os : List (Override ν σ)) (axes : Axes ν) (s : Setting ν) :
    (os.flatMap fun o => o.expand axes).reverse.lookup s =
      (os.reverse.find? (applies axes s)).map step := by
  induction os with
  | nil => rfl
  | cons o os ih =>
    rw [List.flatMap_cons, List.reverse_append, List.lookup_append, ih, lookup_reverse_expand,
      List.reverse_cons, List.find?_append, Option.map_or, List.find?_singleton]
    split <;> rfl

variable [EquivBEq ν]

/-- what is written last stays -/
theorem lookup_patch (rules : List (Setting ν × σ)) (os : List (Override ν σ)) (axes : Axes ν)
    (s : Setting ν) :
    (patch rules os axes).lookup s =
      (((ranked os).reverse.find? (applies axes s)).map step).or
        ((Entries.ofList rules).lookup s) := by
  rw [patch, Entries.lookup_putAll, lookup_reverse_flatMap]

variable {rules : List (Setting ν × σ)} {os : List (Override ν σ)} {axes : Axes ν}

theorem lookup_patch_of_uncovered {s : Setting ν} (h : ∀ o ∈ os, o.covers s = false) :
    (patch rules os axes).lookup s = (Entries.ofList rules).lookup s := by
  have hnone : (ranked os).reverse.find? (applies axes s) = none := by
    rw [List.find?_eq_none]
    intro o ho ha
    have hc := covers_of_applies ha
    rw [h o (mem_of_mem_ranked (List.mem_reverse.1 ho))] at hc
    cases hc
  rw [lookup_patch, hnone]
  rfl

/-- the step of a context is that of a rule for it or that of an override that covers it -/
theorem exists_of_lookup_patch {s : Setting ν} {x : σ}
    (h : (patch rules os axes).lookup s = some x) :
    (∃ e ∈ rules, (s == e.1) = true ∧ e.2 = x) ∨ ∃ o ∈ os, o.covers s = true ∧ o.step = x := by
  rw [lookup_patch] at h
  cases hf : (ranked os).reverse.find? (applies axes s) with
  | some o =>
    rw [hf] at h
    have ho := mem_of_mem_ranked (List.mem_reverse.1 (List.mem_of_find?_eq_some hf))
    exact .inr ⟨o, ho, covers_of_applies (List.find?_some hf), Option.some.inj h⟩
  | none =>
    rw [hf] at h
    obtain ⟨k, hk, hs⟩ := Entries.exists_of_lookup (m := Entries.ofList rules) h
    obtain ⟨r, hr, hrk, hrx⟩ := Entries.exists_of_mem_ofList hk
    exact .inl ⟨r, hr, BEq.trans hs (BEq.symm hrk), hrx⟩

end Palette.Override
