import Palette.Proofs.Number.Arithmetic

/-!
# The sign of a difference

A difference of finite floats may be rounded, and it may be too large, but it never comes to be
zero unless the two are the same: below the least float no digits are lost. So its sign compares
the two.

* `Floating.value`         the units of a finite float, with its sign;
* `Floating.le_iff_value`, `Floating.lt_iff_value`   finite floats are ordered by their values;
* `Floating.Sides`         where a float stands on the side of zero that a number stands on;
* `Floating.sides_sub`     a difference of floats stands where the difference of their values does;
* `Floating.sub_pos_iff`, `Floating.sub_beq_zero_iff`   so its sign compares the two.
-/

namespace Palette
namespace Floating
open Float.Model Float.Model.UnpackedFloat

variable {s t : Sign} {x y : UnpackedFloat} {n k : Nat}

/-! ## values -/

/-- the units of a finite float, with its sign -/
def value (a : Float) : Int :=
  match a.toModel.unpack with
  | .finite s m e _ => s.apply (scaled m e)
  | _ => 0

theorem apply_zero (s : Sign) : s.apply 0 = 0 := by cases s <;> rfl

theorem apply_positive (n : Int) : Sign.positive.apply n = n := rfl

theorem apply_negative (n : Int) : Sign.negative.apply n = -n := rfl

theorem Stands.value_eq {a : Float} (h : Stands s a.toModel.unpack (WithTop.some n)) :
    value a = s.apply n := by
  rw [value]
  generalize a.toModel.unpack = x at h
  cases h with
  | zero => exact (apply_zero s).symm
  | finite => rfl

theorem isNaN_of_isFinite {a : Float} (h : a.isFinite = true) : a.isNaN = false := by
  have hfinite : a.toModel.unpack.isFinite = true := h
  show a.toModel.unpack.isNaN = false
  cases hu : a.toModel.unpack with
  | notANumber =>
    rw [hu] at hfinite
    cases hfinite
  | _ => rfl

/-- a finite float has a sign and a whole number of units -/
theorem exists_units {a : Float} (h : a.isFinite = true) :
    ∃ s n, Stands s a.toModel.unpack (WithTop.some n) ∧ n < limit := by
  have hfinite : a.toModel.unpack.isFinite = true := h
  obtain ⟨s, n, hs, hcap⟩ := exists_stands (isNaN_of_isFinite h)
  cases n with
  | top =>
    cases hu : a.toModel.unpack with
    | infinity =>
      rw [hu] at hfinite
      cases hfinite
    | _ =>
      rw [hu] at hs
      cases hs
  | coe n =>
    refine ⟨s, n, hs, not_le.1 fun hle => ?_⟩
    cases (capped_of_le hle).symm.trans hcap

/-- finite floats are ordered by their units, with their signs -/
theorem Stands.le_iff_apply (hx : Stands s x (WithTop.some n)) (hy : Stands t y (WithTop.some k)) :
    x.le y = true ↔ s.apply n ≤ t.apply k := by
  rw [unpacked_le_iff]
  -- zero has both signs; of two finite floats of one sign the units are compared
  cases hx with
  | zero u =>
    cases hy with
    | zero => simp [height?, apply_zero]
    | finite hm h =>
      have hpos := scaled_pos hm
      cases t <;> simp [height?, Prod.Lex.le_iff, apply_zero, apply_negative, apply_positive,
        (hpos _).ne']
  | @finite m e hm h =>
    have hpos := scaled_pos hm e
    cases hy with
    | zero =>
      cases s <;> simp [height?, Prod.Lex.le_iff, apply_zero, apply_negative, apply_positive,
        hpos.ne']
    | @finite n f hn h' =>
      have hpos' := scaled_pos hn f
      cases s <;> cases t
      · simp [height?, Prod.Lex.le_iff, apply_negative, h'.scaled_le_iff h, eq_comm]
      · simp [height?, Prod.Lex.le_iff, apply_negative, apply_positive]
      · simp [height?, Prod.Lex.le_iff, apply_negative, apply_positive]
        omega
      · simp [height?, Prod.Lex.le_iff, apply_positive, h.scaled_le_iff h']

theorem le_iff_value {a b : Float} (ha : a.isFinite = true) (hb : b.isFinite = true) :
    a ≤ b ↔ value a ≤ value b := by
  obtain ⟨s, n, hs, _⟩ := exists_units ha
  obtain ⟨t, k, ht, _⟩ := exists_units hb
  rw [hs.value_eq, ht.value_eq, ← hs.le_iff_apply ht]
  exact decide_eq_true_iff

theorem lt_iff_value {a b : Float} (ha : a.isFinite = true) (hb : b.isFinite = true) :
    a < b ↔ value a < value b := by
  rw [← not_le, ← le_iff_value hb ha]
  exact ⟨not_le_of_lt, lt_of_not_le (isNaN_of_isFinite hb) (isNaN_of_isFinite ha)⟩

/-! ## differences -/

/-- nothing that is left of a whole number of floats is rounded to zero -/
theorem rounded_pos {m : Nat} {e : Int} (hm : 0 < m) (he : -1074 ≤ e) : 0 < rounded (scaled m e) :=
  calc 0 < scaled 1 e := scaled_pos Nat.one_pos e
    _ = rounded (scaled 1 e) := (rounded_scaled (by decide) he).symm
    _ ≤ rounded (scaled m e) := rounded_mono (Nat.mul_le_mul_right _ hm)

/-- Does a float stand on the side of zero on which a number stands? -/
def Sides (x : UnpackedFloat) (v : Int) : Prop :=
  (0 < v → ∃ j, 0 < j ∧ Stands .positive x j) ∧ (v = 0 → ∃ s, x = .zero s) ∧
    (v < 0 → ∃ j, 0 < j ∧ Stands .negative x j)

theorem sides_finite (s : Sign) {m : Nat} {e : Int} (hm : 0 < m) (h : Canonical m e) :
    Sides (.finite s m e hm) (s.apply (scaled m e)) := by
  have hpos := scaled_pos hm e
  have hstands : ∃ j : WithTop Nat, 0 < j ∧ Stands s (.finite s m e hm) j :=
    ⟨_, WithTop.coe_pos.2 hpos, .finite hm h⟩
  cases s with
  | negative =>
    rw [apply_negative]
    exact ⟨fun h => by omega, fun h => by omega, fun _ => hstands⟩
  | positive =>
    rw [apply_positive]
    exact ⟨fun _ => hstands, fun h => by omega, fun h => by omega⟩

theorem sides_normalize (m : Int) {e : Int} (he : -1074 ≤ e) (s : Sign) :
    Sides (UnpackedFloat.normalize Format.binary64 m e s) m := by
  obtain ⟨hpos, hzero, hneg⟩ := stands_normalize (m := m) he s
  refine ⟨fun h => ⟨_, ?_, hpos h⟩, fun h => ⟨s, hzero h⟩, fun h => ⟨_, ?_, hneg h⟩⟩
  · exact WithTop.coe_pos.2 (rounded_pos (by omega) he)
  · exact WithTop.coe_pos.2 (rounded_pos (by omega) he)

/-- only the sign of the number counts -/
theorem Sides.of_mul {v : Int} (h : Sides x v) {c : Nat} (hc : 0 < c) : Sides x (v * c) := by
  obtain ⟨hpos, hzero, hneg⟩ := h
  have hc' : (0 : Int) < c := by omega
  refine ⟨fun hv => hpos ?_, fun hv => hzero ?_, fun hv => hneg ?_⟩
  · exact (mul_pos_iff_of_pos_right hc').1 hv
  · exact (mul_eq_zero.1 hv).resolve_right hc'.ne'
  · exact neg_of_mul_neg_left hv hc'.le

theorem apply_scaled (s : Sign) (i : Nat) (d : Int) :
    s.apply (scaled i d) = s.apply i * (2 ^ (d + 2148).toNat : Nat) := by
  have hscaled : ((scaled i d : Nat) : Int) = i * (2 ^ (d + 2148).toNat : Nat) :=
    Int.natCast_mul _ _
  cases s with
  | negative => rw [apply_negative, apply_negative, hscaled, Int.neg_mul]
  | positive => rw [apply_positive, apply_positive, hscaled]

theorem Stands.sides_sub (hx : Stands s x (WithTop.some n)) (hy : Stands t y (WithTop.some k)) :
    Sides (UnpackedFloat.sub Format.binary64 x y) (s.apply n - t.apply k) := by
  cases hx with
  | zero u =>
    rw [Int.natCast_zero, apply_zero, Int.zero_sub]
    cases hy with
    | zero v =>
      rw [Int.natCast_zero, apply_zero, Int.neg_zero]
      refine ⟨fun h => absurd h (Int.lt_irrefl 0), fun _ => ?_, fun h => absurd h (Int.lt_irrefl 0)⟩
      show ∃ s, (if u == -v then UnpackedFloat.zero u else .zero .positive) = .zero s
      split <;> exact ⟨_, rfl⟩
    | @finite m e hm h =>
      have hsides := sides_finite (-t) hm h
      rwa [show (-t).apply (scaled m e) = -t.apply (scaled m e) by
        cases t with
        | negative => exact (Int.neg_neg _).symm
        | positive => rfl] at hsides
  | @finite m e hm h =>
    cases hy with
    | zero v =>
      rw [Int.natCast_zero, apply_zero, Int.sub_zero]
      exact sides_finite s hm h
    | @finite n f hn h' =>
      obtain ⟨i, j, hi, hj, d, hd, hid, hjd, hsub⟩ := exists_sub s t hm hn h.min h'.min
      rw [hsub, ← hid, ← hjd, apply_scaled, apply_scaled, ← Int.sub_mul]
      exact (sides_normalize _ hd _).of_mul (Nat.two_pow_pos _)

theorem Sides.packed {v : Int} (h : Sides x v) :
    Sides (UnpackedFloat.unpack Format.binary64 (UnpackedFloat.pack Format.binary64 x)) v := by
  have hcapped {j : WithTop Nat} (hj : 0 < j) : 0 < capped j := by
    rw [capped]
    split
    · exact hj
    · exact WithTop.coe_lt_top 0
  obtain ⟨hpos, hzero, hneg⟩ := h
  refine ⟨fun hv => ?_, fun hv => ?_, fun hv => ?_⟩
  · obtain ⟨j, hj, hs⟩ := hpos hv
    exact ⟨capped j, hcapped hj, hs.packed⟩
  · obtain ⟨s, rfl⟩ := hzero hv
    exact ⟨s, unpack_packedZero⟩
  · obtain ⟨j, hj, hs⟩ := hneg hv
    exact ⟨capped j, hcapped hj, hs.packed⟩

theorem sides_sub {a b : Float} (ha : a.isFinite = true) (hb : b.isFinite = true) :
    Sides (a - b).toModel.unpack (value a - value b) := by
  obtain ⟨s, n, hs, _⟩ := exists_units ha
  obtain ⟨t, k, ht, _⟩ := exists_units hb
  rw [hs.value_eq, ht.value_eq]
  exact (hs.sides_sub ht).packed

/-! ## signs -/

/-- what stands on the side of a number compares with zero as the number does -/
theorem Sides.compare_zero {v : Int} (h : Sides x v) :
    x.compare (.zero .positive) = some (compare v 0) ∧
      (UnpackedFloat.zero .positive).compare x = some (compare 0 v) := by
  obtain ⟨hpos, hzero, hneg⟩ := h
  rcases lt_trichotomy v 0 with hv | rfl | hv
  · obtain ⟨j, hj, hs⟩ := hneg hv
    rw [compare_lt_iff_lt.2 hv, compare_gt_iff_gt.2 hv]
    cases hs with
    | zero => exact absurd hj (lt_irrefl 0)
    | finite => exact ⟨rfl, rfl⟩
    | infinity => exact ⟨rfl, rfl⟩
  · obtain ⟨s, rfl⟩ := hzero rfl
    rw [compare_eq_iff_eq.2 rfl]
    exact ⟨rfl, rfl⟩
  · obtain ⟨j, hj, hs⟩ := hpos hv
    rw [compare_gt_iff_gt.2 hv, compare_lt_iff_lt.2 hv]
    cases hs with
    | zero => exact absurd hj (lt_irrefl 0)
    | finite => exact ⟨rfl, rfl⟩
    | infinity => exact ⟨rfl, rfl⟩

variable {a b : Float} (ha : a.isFinite = true) (hb : b.isFinite = true)
include ha hb

theorem sub_beq_zero_iff : (a - b == 0.0) = true ↔ value a = value b := by
  show ((a - b).toModel.unpack.compare (0.0 : Float).toModel.unpack == some .eq) = true ↔ _
  rw [unpack_zero_literal, (sides_sub ha hb).compare_zero.1, beq_iff_eq, Option.some.injEq,
    compare_eq_iff_eq, Int.sub_eq_zero]

theorem sub_pos_iff : 0.0 < a - b ↔ value b < value a := by
  refine decide_eq_true_iff.trans ?_
  show ((0.0 : Float).toModel.unpack.compare (a - b).toModel.unpack == some .lt) = true ↔ _
  rw [unpack_zero_literal, (sides_sub ha hb).compare_zero.2, beq_iff_eq, Option.some.injEq,
    compare_lt_iff_lt, Int.sub_pos]

end Floating
end Palette
