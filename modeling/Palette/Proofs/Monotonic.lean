import Palette.Proofs.Elevation
import Palette.Proofs.Number.Difference

/-!
# Rows that never turn back

Whether a row turns back is asked of three neighbors at a time. Where no two neighbors are the same
the answer is one about the whole row: it goes up throughout, or down throughout. Where some are the
same it is not: a row may go up, stay, and go down.

* `Ramp.monotonicBy_iff`     no three neighbors turn back;
* `Ramp.monotonicBy_of_le`, `Ramp.isChain_of_monotonicBy`   what that says of sorted rows, and of
                             rows without a step that stays;
* `Ramp.monotonicBy_reverse` a row that is turned around turns back where the row does;
* `Ramp.Directed`            what an answer tells of the whole row;
* `Ramp.order_eq_compare`    the sign of a difference of finite floats compares them;
* `Ramp.isMonotonic_directed`  so the answer tells this of the luminances of a ramp.
-/

namespace Palette
namespace Ramp

/-! ## windows -/

section
variable {α : Type} {cmp : α → α → Ordering} {l : List α}

theorem opposite_iff {o o' : Ordering} :
    opposite o o' = true ↔ o = .lt ∧ o' = .gt ∨ o = .gt ∧ o' = .lt := by
  cases o <;> cases o' <;> decide

theorem monotonicBy_cons {a b c : α} {rest : List α} :
    monotonicBy cmp (a :: b :: c :: rest) = true ↔
      opposite (cmp a b) (cmp b c) = false ∧ monotonicBy cmp (b :: c :: rest) = true := by
  rw [monotonicBy, Bool.and_eq_true, Bool.not_eq_true']

/-- a row never turns back if no three neighbors do -/
theorem monotonicBy_iff :
    monotonicBy cmp l = true ↔
      ∀ a b c, [a, b, c] <:+: l → opposite (cmp a b) (cmp b c) = false := by
  induction l with
  | nil => exact iff_of_true rfl fun a b c h => absurd h.length_le (by simp)
  | cons a l ih =>
    match l with
    | [] => exact iff_of_true rfl fun x y z h => absurd h.length_le (by simp)
    | [b] => exact iff_of_true rfl fun x y z h => absurd h.length_le (by simp)
    | b :: c :: rest =>
      rw [monotonicBy_cons, ih]
      constructor
      · rintro ⟨hfirst, hrest⟩ x y z h
        rcases List.infix_cons_iff.1 h with h | h
        · simp only [List.cons_prefix_cons] at h
          obtain ⟨rfl, rfl, rfl, _⟩ := h
          exact hfirst
        · exact hrest x y z h
      · intro h
        refine ⟨h a b c ⟨[], rest, rfl⟩, fun x y z hw => h x y z ?_⟩
        exact hw.trans (List.suffix_cons a _).isInfix

/-- only the comparisons of values in the row count -/
theorem monotonicBy_map {β : Type} {cmp' : β → β → Ordering} {rank : α → β}
    (h : ∀ a ∈ l, ∀ b ∈ l, cmp a b = cmp' (rank a) (rank b)) :
    monotonicBy cmp l = monotonicBy cmp' (l.map rank) := by
  induction l with
  | nil => rfl
  | cons a l ih =>
    have htail := ih fun x hx y hy => h x (List.mem_cons_of_mem _ hx) y (List.mem_cons_of_mem _ hy)
    match l with
    | [] | [_] => rfl
    | b :: c :: rest =>
      rw [List.map_cons, List.map_cons, List.map_cons, monotonicBy, monotonicBy, htail,
        h a (by simp) b (by simp), h b (by simp) c (by simp)]
      rfl

end

/-! ## linear orders -/

section
variable {α : Type} [LinearOrder α] {l : List α}

/-- three values turn back if the middle one is above or below both others -/
theorem opposite_compare {a b c : α} :
    opposite (compare a b) (compare b c) = true ↔ a < b ∧ c < b ∨ b < a ∧ b < c := by
  rw [opposite_iff, compare_lt_iff_lt, compare_gt_iff_gt, compare_gt_iff_gt, compare_lt_iff_lt]

/-- a row that is turned around turns back where the row does -/
theorem monotonicBy_reverse (l : List α) :
    monotonicBy compare l.reverse = monotonicBy compare l := by
  have hwindow (a b c : α) :
      opposite (compare c b) (compare b a) = opposite (compare a b) (compare b c) := by
    rw [Bool.eq_iff_iff, opposite_compare, opposite_compare, and_comm, and_comm (a := b < c)]
  have hback (a b c : α) (l : List α) : [a, b, c] <:+: l.reverse ↔ [c, b, a] <:+: l :=
    @List.reverse_infix _ [c, b, a] l
  rw [Bool.eq_iff_iff, monotonicBy_iff, monotonicBy_iff]
  constructor
  · intro h a b c hw
    rw [← hwindow]
    exact h c b a ((hback c b a l).2 hw)
  · intro h a b c hw
    rw [← hwindow]
    exact h c b a ((hback a b c l).1 hw)

theorem monotonicBy_of_le (h : l.Pairwise (· ≤ ·)) : monotonicBy compare l = true := by
  refine monotonicBy_iff.2 fun a b c hw => ?_
  have hsorted := h.sublist hw.sublist
  simp only [List.pairwise_cons, List.forall_mem_cons] at hsorted
  obtain ⟨⟨hab, _⟩, ⟨hbc, _⟩, _⟩ := hsorted
  rw [← Bool.not_eq_true, opposite_compare]
  rintro (⟨_, hcb⟩ | ⟨hba, _⟩)
  · exact hbc.not_gt hcb
  · exact hab.not_gt hba

theorem monotonicBy_of_ge (h : l.Pairwise (· ≥ ·)) : monotonicBy compare l = true := by
  rw [← monotonicBy_reverse]
  exact monotonicBy_of_le (List.pairwise_reverse.2 h)

/-- Where no step stays, the first one tells the direction of all the others. -/
theorem isChain_of_monotonicBy (h : monotonicBy compare l = true) (hne : l.IsChain (· ≠ ·)) :
    l.IsChain (· < ·) ∨ l.IsChain (· > ·) := by
  induction l with
  | nil => exact .inl .nil
  | cons a l ih =>
    match l, ih with
    | [], _ => exact .inl (.singleton a)
    | [b], _ =>
      have hab := (List.isChain_cons_cons.1 hne).1
      rw [List.isChain_pair, List.isChain_pair]
      exact lt_or_gt_of_ne hab
    | b :: c :: rest, ih =>
      obtain ⟨hwindow, hrest⟩ := monotonicBy_cons.1 h
      obtain ⟨hab, hne⟩ := List.isChain_cons_cons.1 hne
      rw [← Bool.not_eq_true, opposite_compare, not_or, not_and, not_and] at hwindow
      -- the second step has the direction of the rest, and the window passes it on to the first
      rcases ih hrest hne with hup | hdown
      · have hbc := (List.isChain_cons_cons.1 hup).1
        refine .inl (.cons_cons (hab.lt_or_gt.resolve_right fun hba => ?_) hup)
        exact hwindow.2 hba hbc
      · have hcb := (List.isChain_cons_cons.1 hdown).1
        refine .inr (.cons_cons (hab.lt_or_gt.resolve_left fun hlt => ?_) hdown)
        exact hwindow.1 hlt hcb

end

/-! ## the whole row -/

/-- What an answer and the answer for the row turned around tell: rows that are sorted do not turn
back, rows without a step that stays do not exactly if they go up or go down throughout, and both
answers are the same. -/
structure Directed {α : Type} [LE α] [LT α] (l : List α) (answer turned : Bool) : Prop where
  sorted : l.Pairwise (· ≤ ·) ∨ l.Pairwise (· ≥ ·) → answer = true
  strict : l.IsChain (fun a b => a < b ∨ b < a) →
    (answer = true ↔ l.Pairwise (· < ·) ∨ l.Pairwise (· > ·))
  turned : turned = answer

section
variable {α β : Type} [LinearOrder α]

theorem directed_compare (l : List α) :
    Directed l (monotonicBy compare l) (monotonicBy compare l.reverse) where
  sorted h := h.elim monotonicBy_of_le monotonicBy_of_ge
  strict hne := by
    constructor
    · intro h
      have hchain := isChain_of_monotonicBy h (hne.imp fun _ _ => lt_or_lt_iff_ne.1)
      exact hchain.imp List.isChain_iff_pairwise.1 List.isChain_iff_pairwise.1
    · rintro (hup | hdown)
      · exact monotonicBy_of_le (hup.imp le_of_lt)
      · exact monotonicBy_of_ge (hdown.imp le_of_lt)
  turned := monotonicBy_reverse l

/-- so it is with all comparisons that agree with a linear order, for the values in the row -/
theorem directed_map {cmp : β → β → Ordering} {rank : β → α} {l : List β}
    (h : ∀ a ∈ l, ∀ b ∈ l, cmp a b = compare (rank a) (rank b)) :
    Directed (l.map rank) (monotonicBy cmp l) (monotonicBy cmp l.reverse) := by
  rw [monotonicBy_map h, monotonicBy_map (l := l.reverse) (by simpa using h), List.map_reverse]
  exact directed_compare (l.map rank)

/-- the whole row is told by values that are ordered as the row is -/
theorem Directed.of_map [LE β] [LT β] {rank : β → α} {l : List β} {answer turned : Bool}
    (h : Directed (l.map rank) answer turned)
    (hle : ∀ a ∈ l, ∀ b ∈ l, (a ≤ b ↔ rank a ≤ rank b))
    (hlt : ∀ a ∈ l, ∀ b ∈ l, (a < b ↔ rank a < rank b)) : Directed l answer turned where
  sorted hs := by
    refine h.sorted ?_
    rw [List.pairwise_map, List.pairwise_map]
    exact hs.imp (List.Pairwise.imp_of_mem fun ha hb => (hle _ ha _ hb).1)
      (List.Pairwise.imp_of_mem fun ha hb => (hle _ hb _ ha).1)
  strict hne := by
    have hchain : (l.map rank).IsChain fun a b => a < b ∨ b < a := by
      rw [List.isChain_map]
      exact hne.imp_of_mem_imp fun a b ha hb =>
        Or.imp (hlt a ha b hb).1 (hlt b hb a ha).1
    rw [h.strict hchain, List.pairwise_map, List.pairwise_map]
    exact or_congr (List.Pairwise.iff_of_mem fun ha hb => (hlt _ ha _ hb).symm)
      (List.Pairwise.iff_of_mem fun ha hb => (hlt _ hb _ ha).symm)
  turned := h.turned

end

/-! ## luminances -/

open Floating

/-- the sign of a difference of finite floats compares them -/
theorem order_eq_compare {a b : Float} (ha : a.isFinite = true) (hb : b.isFinite = true) :
    order a b = compare (value a) (value b) := by
  show (if b - a == 0.0 then Ordering.eq else if 0.0 < b - a then .lt else .gt) = _
  split
  · next h => exact (compare_eq_iff_eq.2 ((sub_beq_zero_iff hb ha).1 h).symm).symm
  · next hne =>
    split
    · next h => exact (compare_lt_iff_lt.2 ((sub_pos_iff hb ha).1 h)).symm
    · next hle =>
      rw [sub_beq_zero_iff hb ha] at hne
      rw [sub_pos_iff hb ha, not_lt] at hle
      exact (compare_gt_iff_gt.2 (hle.lt_of_ne hne)).symm

theorem directed_order {l : List Float} (h : ∀ a ∈ l, a.isFinite = true) :
    Directed l (monotonicBy order l) (monotonicBy order l.reverse) := by
  have hvalues : Directed (l.map value) (monotonicBy order l) (monotonicBy order l.reverse) :=
    directed_map fun a ha b hb => order_eq_compare (h a ha) (h b hb)
  exact hvalues.of_map (fun a ha b hb => le_iff_value (h a ha) (h b hb))
    fun a ha b hb => lt_iff_value (h a ha) (h b hb)

/-- Rows that are compared as a linear order compares them turn back as `Directed` says, and so do
the luminances of a ramp, where they are finite. -/
theorem isMonotonic_directed :
    (∀ {α β : Type} [LinearOrder α] (cmp : β → β → Ordering) (rank : β → α) (l : List β),
      (∀ a ∈ l, ∀ b ∈ l, cmp a b = compare (rank a) (rank b)) →
        Directed (l.map rank) (monotonicBy cmp l) (monotonicBy cmp l.reverse)) ∧
      ∀ r : Ramp, (∀ h ∈ r.colors, h.luminance.isFinite = true) →
        Directed (r.colors.map Hex.luminance) r.isMonotonic r.reversed.isMonotonic := by
  refine ⟨fun cmp rank l h => directed_map h, fun r h => ?_⟩
  have hturned : r.reversed.isMonotonic =
      monotonicBy order (r.colors.map Hex.luminance).reverse := by
    rw [← List.map_reverse]
    rfl
  rw [hturned]
  exact directed_order (by simpa using h)

/-- dark, lighter, dark again -/
def turning : Ramp := ⟨.text "gray", [⟨0, 0, 0⟩, ⟨9, 9, 9⟩, ⟨5, 5, 5⟩]⟩

/-- a row that goes up, stays and goes down is not told from one that never turns back; one that
goes up and down is -/
theorem isMonotonic_directed_turning :
    (monotonicBy compare [0, 1, 1, 0] = true ∧ Directed [0, 1, 1, 0]
      (monotonicBy compare [0, 1, 1, 0]) (monotonicBy compare [0, 1, 1, 0].reverse)) ∧
      turning.isMonotonic = false ∧ Directed (turning.colors.map Hex.luminance)
        turning.isMonotonic turning.reversed.isMonotonic := by
  obtain ⟨hall, hramp⟩ := isMonotonic_directed
  refine ⟨⟨by decide, ?_⟩, by decide +kernel, hramp turning (by decide +kernel)⟩
  exact hall compare id [0, 1, 1, 0] fun _ _ _ _ => rfl

end Ramp
end Palette
