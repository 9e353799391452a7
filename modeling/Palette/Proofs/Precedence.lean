import Mathlib.Data.List.Basic
import Palette.Proofs.Override

/-!
# Which override wins

Rules are overwritten in the order of specificity, so that what stays in a context is the step of
the most specific override that applies there, and of the last one among equally specific ones.
Where none applies, it is the step of the last rule for the context.

* `placed`, `Below`      the overrides with their positions, and the order in which they write;
* `Decides`              an override that no other one that applies is above of;
* `Settles`              the step that precedence gives to a context, or none;
* `Decides.unique`       there is one such override at most;
* `isSome_lookup_patch_nil`   overrides without rules give steps where they apply;
* `settles_iff`          precedence gives what is read from the rules after all writes.
-/

namespace Palette.Override
variable {ν σ : Type}

/-! ## the order of writing -/

/-- overrides with their positions, by specificity and then by position -/
def placed (os : List (Override ν σ)) : List (Override ν σ × Nat) :=
  [0, 1, 2, 3].flatMap fun k => os.zipIdx.filter fun e => e.1.specificity == k

/-- is an override less specific than another one, or as specific and before it? -/
def Below (a b : Override ν σ × Nat) : Prop :=
  a.1.specificity < b.1.specificity ∨ a.1.specificity = b.1.specificity ∧ a.2 < b.2

variable {os : List (Override ν σ)}

theorem map_placed (os : List (Override ν σ)) : (placed os).map Prod.fst = ranked os := by
  rw [placed, ranked, List.map_flatMap]
  refine List.flatMap_congr fun k _ => ?_
  show (os.zipIdx.filter ((fun o => o.specificity == k) ∘ Prod.fst)).map Prod.fst = _
  rw [← List.filter_map, List.zipIdx_map_fst]

theorem specificity_le (o : Override ν σ) : o.specificity ≤ 3 := by
  have ht := Bool.toNat_le o.themes.isSome
  have hf := Bool.toNat_le o.fontSizes.isSome
  have hk := Bool.toNat_le o.layers.isSome
  rw [specificity]
  omega

theorem mem_placed {e : Override ν σ × Nat} : e ∈ placed os ↔ os[e.2]? = some e.1 := by
  rw [placed, List.mem_flatMap, ← List.mem_zipIdx_iff_getElem?]
  constructor
  · rintro ⟨k, _, he⟩
    exact (List.mem_filter.1 he).1
  · intro he
    refine ⟨e.1.specificity, ?_, List.mem_filter.2 ⟨he, BEq.rfl⟩⟩
    have hle := e.1.specificity_le
    simp
    omega

theorem pairwise_placed (os : List (Override ν σ)) : (placed os).Pairwise Below := by
  have hpositions : os.zipIdx.Pairwise fun a b => a.2 < b.2 := by
    rw [List.pairwise_iff_getElem]
    intro i j hi hj hij
    simpa using hij
  have specificity_of_mem {k : Nat} {e : Override ν σ × Nat}
      (he : e ∈ os.zipIdx.filter fun e => e.1.specificity == k) : e.1.specificity = k :=
    eq_of_beq (List.mem_filter.1 he).2
  -- within one specificity positions grow, and from one to the next specificity does
  rw [placed, List.pairwise_flatMap]
  constructor
  · intro k _
    refine (hpositions.filter _).imp_of_mem fun ha hb hab => .inr ⟨?_, hab⟩
    rw [specificity_of_mem ha, specificity_of_mem hb]
  · have hranks : [0, 1, 2, 3].Pairwise fun k l : Nat => k < l := by decide
    refine hranks.imp fun hkl a ha b hb => .inl ?_
    rw [specificity_of_mem ha, specificity_of_mem hb]
    exact hkl

/-! ## precedence -/

variable [BEq ν]

/-- Does the override at a position decide on a context? It applies there, and every other one that
does is less specific, or as specific and before it. -/
structure Decides (os : List (Override ν σ)) (axes : Axes ν) (s : Setting ν) (i : Nat)
    (o : Override ν σ) : Prop where
  mem : os[i]? = some o
  applies : o.applies axes s = true
  greatest : ∀ j o', os[j]? = some o' → o'.applies axes s = true → j ≠ i → Below (o', j) (o, i)

/-- the step that a context has by precedence: that of the override that decides, else that of the
last rule for the context, else none -/
inductive Settles (rules : List (Setting ν × σ)) (os : List (Override ν σ)) (axes : Axes ν)
    (s : Setting ν) : Option σ → Prop
  | override {i : Nat} {o : Override ν σ} : Decides os axes s i o → Settles rules os axes s o.step
  | rule {front back : List (Setting ν × σ)} {e : Setting ν × σ} :
      (∀ o ∈ os, o.applies axes s = false) → rules = front ++ e :: back → (s == e.1) = true →
      (∀ e' ∈ back, (s == e'.1) = false) → Settles rules os axes s e.2
  | absent : (∀ o ∈ os, o.applies axes s = false) → (∀ e ∈ rules, (s == e.1) = false) →
      Settles rules os axes s none

variable {axes : Axes ν} {s : Setting ν}

theorem Decides.unique {i j : Nat} {o o' : Override ν σ} (h : Decides os axes s i o)
    (h' : Decides os axes s j o') : o = o' := by
  by_cases hij : j = i
  · subst hij
    exact Option.some.inj (h.mem.symm.trans h'.mem)
  · have hlt := h.greatest j o' h'.mem h'.applies hij
    have hgt := h'.greatest i o h.mem h.applies (Ne.symm hij)
    simp only [Below] at hlt hgt
    omega

theorem decides_of_find? {o : Override ν σ}
    (h : (ranked os).reverse.find? (applies axes s) = some o) : ∃ i, Decides os axes s i o := by
  rw [← map_placed, ← List.map_reverse, List.find?_map] at h
  obtain ⟨⟨o', i⟩, hf, rfl⟩ := Option.map_eq_some_iff.1 h
  refine ⟨i, mem_placed.1 (List.mem_reverse.1 (List.mem_of_find?_eq_some hf)),
    List.find?_some (p := Override.applies axes s ∘ Prod.fst) hf, ?_⟩
  intro j o'' hm ha hj
  -- read backwards, the first override that applies is above all the others that do
  have hrev := List.pairwise_reverse.2 (pairwise_placed os)
  have hplaced : (o'', j) ∈ (placed os).reverse := List.mem_reverse.2 (mem_placed.2 hm)
  rcases Entries.rel_of_find? hrev hf hplaced ha with he | hb
  · exact absurd (congrArg Prod.snd he) hj
  · exact hb

theorem find?_eq_none_iff :
    (ranked os).reverse.find? (applies axes s) = none ↔ ∀ o ∈ os, o.applies axes s = false := by
  rw [List.find?_eq_none]
  constructor
  · intro h o ho
    obtain ⟨i, hi⟩ := List.mem_iff_getElem?.1 ho
    have hm : o ∈ ranked os := by
      rw [← map_placed]
      exact List.mem_map.2 ⟨(o, i), mem_placed.2 hi, rfl⟩
    exact Bool.eq_false_iff.2 (h o (List.mem_reverse.2 hm))
  · intro h o ho
    rw [h o (mem_of_mem_ranked (List.mem_reverse.1 ho))]
    exact Bool.false_ne_true

/-- overrides alone give a step to the contexts where one of them applies -/
theorem isSome_lookup_patch_nil [EquivBEq ν] (os : List (Override ν σ)) (axes : Axes ν)
    (s : Setting ν) : ((patch [] os axes).lookup s).isSome = os.any (Override.applies axes s) := by
  have hempty : (Entries.ofList ([] : List (Setting ν × σ))).lookup s = none := rfl
  rw [lookup_patch, hempty, Option.or_none, Option.isSome_map]
  cases hf : (ranked os).reverse.find? (Override.applies axes s) with
  | none =>
    have hnone := find?_eq_none_iff.1 hf
    exact (List.any_eq_false.2 fun o ho => ne_true_of_eq_false (hnone o ho)).symm
  | some o =>
    have ho := mem_of_mem_ranked (List.mem_reverse.1 (List.mem_of_find?_eq_some hf))
    exact (List.any_eq_true.2 ⟨o, ho, List.find?_some hf⟩).symm

/-- a row of rules has a last one for a context or none -/
theorem last_or_absent (rules : List (Setting ν × σ)) (s : Setting ν) :
    (∃ front e back, rules = front ++ e :: back ∧ (s == e.1) = true ∧
      ∀ e' ∈ back, (s == e'.1) = false) ∨ ∀ e ∈ rules, (s == e.1) = false := by
  cases h : rules.reverse.find? fun e => s == e.1 with
  | none =>
    right
    intro e he
    exact Bool.eq_false_iff.2 (List.find?_eq_none.1 h e (List.mem_reverse.2 he))
  | some e =>
    left
    obtain ⟨he, back, front, hrow, hback⟩ := List.find?_eq_some_iff_append.1 h
    refine ⟨front.reverse, e, back.reverse, ?_, he, fun e' he' => ?_⟩
    · rw [← List.reverse_reverse rules, hrow]
      simp
    · simpa using hback e' (List.mem_reverse.1 he')

theorem exists_settles (rules : List (Setting ν × σ)) (os : List (Override ν σ)) (axes : Axes ν)
    (s : Setting ν) : ∃ x, Settles rules os axes s x := by
  cases hf : (ranked os).reverse.find? (Override.applies axes s) with
  | some o =>
    obtain ⟨i, hi⟩ := decides_of_find? hf
    exact ⟨_, .override hi⟩
  | none =>
    have ho := find?_eq_none_iff.1 hf
    rcases last_or_absent rules s with ⟨front, e, back, hrules, he, hback⟩ | hrules
    · exact ⟨_, .rule ho hrules he hback⟩
    · exact ⟨_, .absent ho hrules⟩

section
variable [EquivBEq ν] {rules : List (Setting ν × σ)}

theorem lookup_ofList_of_last {front back : List (Setting ν × σ)} {e : Setting ν × σ}
    (he : (s == e.1) = true) (hback : ∀ e' ∈ back, (s == e'.1) = false) :
    (Entries.ofList (front ++ e :: back)).lookup s = some e.2 := by
  have hnone : back.reverse.lookup s = none :=
    Entries.lookup_eq_none fun k hk => by
      obtain ⟨e', he', rfl⟩ := List.mem_map.1 hk
      exact hback e' (List.mem_reverse.1 he')
  obtain ⟨k, x⟩ := e
  rw [Entries.ofList, Entries.lookup_putAll, List.reverse_append, List.reverse_cons,
    List.append_assoc, List.lookup_append, hnone, Option.none_or, List.singleton_append,
    List.lookup_cons, he]
  rfl

theorem lookup_of_settles {x : Option σ} (h : Settles rules os axes s x) :
    (patch rules os axes).lookup s = x := by
  rw [lookup_patch]
  cases h with
  | override h =>
    cases hf : (ranked os).reverse.find? (Override.applies axes s) with
    | none =>
      have ha := find?_eq_none_iff.1 hf _ (List.mem_of_getElem? h.mem)
      rw [h.applies] at ha
      cases ha
    | some o =>
      obtain ⟨i, hi⟩ := decides_of_find? hf
      rw [hi.unique h]
      rfl
  | rule ho hrules he hback =>
    rw [find?_eq_none_iff.2 ho, hrules, lookup_ofList_of_last he hback]
    rfl
  | absent ho hrules =>
    have hnone : (Entries.ofList rules).lookup s = none := Entries.lookup_eq_none fun k hk => by
      obtain ⟨v, hv⟩ := Entries.mem_keys.1 hk
      obtain ⟨e, he, hek, _⟩ := Entries.exists_of_mem_ofList hv
      rw [← BEq.congr_right hek]
      exact hrules e he
    rw [find?_eq_none_iff.2 ho, hnone]
    rfl

/-- precedence gives what is read from the rules after all writes -/
theorem settles_iff {x : Option σ} :
    Settles rules os axes s x ↔ (patch rules os axes).lookup s = x := by
  refine ⟨lookup_of_settles, ?_⟩
  rintro rfl
  obtain ⟨x, hx⟩ := exists_settles rules os axes s
  rw [lookup_of_settles hx]
  exact hx

end
end Palette.Override
