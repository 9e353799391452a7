import Palette.Proofs.Number.Range

/-!
# Sums of bounded floats

Sums, differences and products of floats that are not too large are finite, and so large at most as
the bounds of their parts allow: powers of two are floats, so nothing is rounded above them. What
is not too large is the same after it was packed, so a difference the other way round is the
difference with another sign.

* `Floating.Within`           at most a power of two, on either side of zero;
* `Floating.Within.add`, `Floating.Within.sub`, `Floating.Within.mul`   operations;
* `Floating.within_of_le`     floats between zero and a bound;
* `Floating.sub_swap`         differences the other way round.
-/

namespace Palette
namespace Floating
open Float.Model Float.Model.UnpackedFloat

variable {s t : Sign} {x y : UnpackedFloat} {n k i j : Nat} {a b : Float}

/-- a finite float that is at most a power of two, on either side of zero -/
def Within (j : Nat) (a : Float) : Prop :=
  a.isFinite = true ∧ (value a).natAbs ≤ 2 ^ j * units

instance (j : Nat) (a : Float) : Decidable (Within j a) := inferInstanceAs (Decidable (_ ∧ _))

theorem natAbs_apply (s : Sign) (n : Nat) : (s.apply n).natAbs = n := by
  cases s with
  | negative => rw [apply_negative, Int.natAbs_neg, Int.natAbs_natCast]
  | positive => rw [apply_positive, Int.natAbs_natCast]

theorem within_iff :
    Within j a ↔ ∃ s n, Stands s a.toModel.unpack (WithTop.some n) ∧ n ≤ 2 ^ j * units := by
  constructor
  · rintro ⟨hfinite, hle⟩
    obtain ⟨s, n, hn, _⟩ := exists_units hfinite
    rw [hn.value_eq, natAbs_apply] at hle
    exact ⟨s, n, hn, hle⟩
  · rintro ⟨s, n, hn, hle⟩
    refine ⟨hn.isFinite_iff.2 WithTop.coe_ne_top, ?_⟩
    rw [hn.value_eq, natAbs_apply]
    exact hle

theorem Within.mono (h : Within i a) (hij : i ≤ j) : Within j a :=
  ⟨h.1, h.2.trans (Nat.mul_le_mul_right _ (Nat.pow_le_pow_right (by decide) hij))⟩

/-! ## bounds -/

/-- powers of two are floats -/
theorem rounded_two_pow (j : Nat) : rounded (2 ^ j * units) = 2 ^ j * units := by
  have hlog : (2 ^ (j + 2148)).log2 = j + 2148 := Nat.log2_two_pow
  rw [units, ← pow_add]
  refine rounded_of_dvd (Nat.pow_dvd_pow 2 ?_)
  rw [grain, hlog]
  omega

theorem two_pow_lt_limit (hj : j < 1024) : 2 ^ j * units < limit := by
  have hpow {a b : Nat} (h : a < b) : 2 ^ a < 2 ^ b := Nat.pow_lt_pow_right (by decide) h
  rw [limit_eq (a := 1024) (b := 2148) rfl, units]
  exact Nat.mul_lt_mul_of_lt_of_le (hpow hj) le_rfl (by positivity)

/-- what is not too large comes back of a float that is packed -/
theorem Stands.unpack_pack (h : Stands s x (WithTop.some n)) (hn : n < limit) :
    UnpackedFloat.unpack Format.binary64 (UnpackedFloat.pack Format.binary64 x) = x := by
  cases h with
  | zero t => rw [UnpackedFloat.pack, unpack_packedZero]
  | finite hm h =>
    exact unpack_pack_of_le _ hm h (not_lt.1 fun he => hn.not_ge (h.limit_le_iff.2 he))

theorem Stands.within (h : Stands s x (WithTop.some n)) (hn : n ≤ 2 ^ j * units) (hj : j < 1024) :
    Within j (.ofModel (Float.Model.pack x)) := by
  refine within_iff.2 ⟨s, n, ?_, hn⟩
  show Stands s (UnpackedFloat.unpack Format.binary64 (UnpackedFloat.pack Format.binary64 x)) _
  rw [h.unpack_pack (hn.trans_lt (two_pow_lt_limit hj))]
  exact h

theorem within_of_le (ha : 0.0 ≤ a) (hab : a ≤ b) (hb : Within j b) : Within j a := by
  obtain ⟨n, hn⟩ := exists_measures ha
  obtain ⟨k, hk⟩ := exists_measures (Scale.trans ha hab)
  have hle := (hn.le_iff hk).1 hab
  obtain ⟨k, rfl⟩ := WithTop.ne_top_iff_exists.1 (hk.1.isFinite_iff.1 hb.1)
  obtain ⟨n, rfl⟩ := WithTop.ne_top_iff_exists.1 (hle.trans_lt (WithTop.coe_lt_top k)).ne
  have hbound := hb.2
  rw [hk.1.value_eq, natAbs_apply] at hbound
  exact within_iff.2 ⟨_, n, hn.1, (WithTop.coe_le_coe.1 hle).trans hbound⟩

/-! ## operations -/

theorem Stands.abs {n : WithTop Nat} (h : Stands s x n) : Stands .positive x.abs n := by
  cases h with
  | zero t => exact .zero _
  | finite hm h => exact .finite hm h
  | infinity => exact .infinity

theorem Within.mul (ha : Within i a) (hb : Within j b) (hij : i + j < 1024) :
    Within (i + j) (a * b) := by
  obtain ⟨s, n, hs, hn⟩ := within_iff.1 ha
  obtain ⟨t, k, ht, hk⟩ := within_iff.1 hb
  refine (hs.mul_finite ht).within ?_ hij
  have hproduct : n * k / units ≤ 2 ^ (i + j) * units := by
    refine Nat.div_le_of_le_mul ((Nat.mul_le_mul hn hk).trans (Nat.le_of_eq ?_))
    rw [pow_add]
    ring
  exact (rounded_mono hproduct).trans_eq (rounded_two_pow _)

theorem exists_stands_normalize (m : Int) {e : Int} (he : -1074 ≤ e) :
    ∃ s, Stands s (UnpackedFloat.normalize Format.binary64 m e .positive)
      (WithTop.some (rounded (scaled m.natAbs e))) := by
  obtain ⟨hpos, hzero, hneg⟩ := stands_normalize (m := m) he .positive
  rcases lt_trichotomy m 0 with h | rfl | h
  · have hm : (-m).toNat = m.natAbs := by omega
    exact ⟨.negative, hm ▸ hneg h⟩
  · refine ⟨.positive, ?_⟩
    rw [hzero rfl, Int.natAbs_zero, scaled, Nat.zero_mul, rounded_zero]
    exact .zero _
  · have hm : m.toNat = m.natAbs := by omega
    exact ⟨.positive, hm ▸ hpos h⟩

theorem Stands.exists_sub (hx : Stands s x (WithTop.some n)) (hy : Stands t y (WithTop.some k)) :
    ∃ u m, Stands u (UnpackedFloat.sub Format.binary64 x y) (WithTop.some m) ∧
      m ≤ rounded (n + k) := by
  cases hx with
  | zero u =>
    cases hy with
    | zero v => exact ⟨.positive, 0, Stands.sub_zero _ u v, Nat.zero_le _⟩
    | finite hm hy =>
      refine ⟨-t, _, .finite hm hy, ?_⟩
      rw [Nat.zero_add, rounded_scaled hy.lt hy.min]
  | @finite m e hm hx =>
    cases hy with
    | zero v =>
      refine ⟨s, _, .finite hm hx, ?_⟩
      rw [Nat.add_zero, rounded_scaled hx.lt hx.min]
    | @finite m' f hm' hy =>
      obtain ⟨i, j, hi, hj, d, hd, hid, hjd, hsub⟩ := Floating.exists_sub s t hm hm' hx.min hy.min
      have hle := Int.natAbs_sub_le (s.apply i) (t.apply j)
      rw [natAbs_apply, natAbs_apply] at hle
      obtain ⟨u, hu⟩ := exists_stands_normalize (s.apply i - t.apply j) hd
      refine ⟨u, _, hsub ▸ hu, rounded_mono ?_⟩
      rw [← hid, ← hjd, scaled, scaled, scaled, ← Nat.add_mul]
      exact Nat.mul_le_mul_right _ hle

theorem rounded_add_le (hn : n ≤ 2 ^ j * units) (hk : k ≤ 2 ^ j * units) :
    rounded (n + k) ≤ 2 ^ (j + 1) * units := by
  have hsum : n + k ≤ 2 ^ (j + 1) * units := by
    rw [pow_succ, Nat.mul_two, Nat.add_mul]
    exact Nat.add_le_add hn hk
  exact (rounded_mono hsum).trans_eq (rounded_two_pow _)

theorem Within.sub (ha : Within j a) (hb : Within j b) (hj : j + 1 < 1024) :
    Within (j + 1) (a - b) := by
  obtain ⟨s, n, hs, hn⟩ := within_iff.1 ha
  obtain ⟨t, k, ht, hk⟩ := within_iff.1 hb
  obtain ⟨u, m, hu, hm⟩ := hs.exists_sub ht
  exact hu.within (hm.trans (rounded_add_le hn hk)) hj

theorem Within.neg (ha : Within j a) (hj : j < 1024) : Within j (-a) := by
  obtain ⟨s, n, hs, hn⟩ := within_iff.1 ha
  exact hs.neg.within hn hj

theorem apply_neg (s : Sign) (v : Int) : (-s).apply v = -s.apply v := by
  cases s with
  | negative => exact (Int.neg_neg v).symm
  | positive => rfl

/-- without its sign, a bounded float is between zero and the bound -/
theorem Within.abs (ha : Within j a) (hj : j < 1024) (hb : b.isFinite = true)
    (hbound : value b = (2 ^ j * units : Nat)) : 0.0 ≤ a.abs ∧ a.abs ≤ b := by
  obtain ⟨s, n, hs, hn⟩ := within_iff.1 ha
  have hfinite : a.abs.isFinite = true := (hs.abs.within hn hj).1
  have hvalue : value a.abs = n := by
    refine Stands.value_eq (s := .positive) ?_
    show Stands _ (UnpackedFloat.unpack Format.binary64 (UnpackedFloat.pack Format.binary64 _)) _
    rw [hs.abs.unpack_pack (hn.trans_lt (two_pow_lt_limit hj))]
    exact hs.abs
  have hzero : (0.0 : Float).isFinite = true ∧ value 0.0 = 0 := by decide
  rw [le_iff_value hzero.1 hfinite, le_iff_value hfinite hb, hvalue, hbound, hzero.2]
  exact ⟨Int.natCast_nonneg n, Int.ofNat_le.2 hn⟩

/-- a sum is the difference from the other number with the other sign -/
theorem unpacked_add_eq (x y : UnpackedFloat) :
    UnpackedFloat.add Format.binary64 x y = UnpackedFloat.sub Format.binary64 x y.neg := by
  cases x with
  | notANumber => rfl
  | infinity s =>
    cases y with
    | infinity t => cases s <;> cases t <;> rfl
    | _ => rfl
  | zero s =>
    cases y with
    | zero t => cases s <;> cases t <;> rfl
    | infinity t => cases t <;> rfl
    | notANumber => rfl
    | finite t n f hn => cases t <;> rfl
  | finite s m e hm =>
    cases y with
    | infinity t => cases t <;> rfl
    | finite t n f hn =>
      simp only [UnpackedFloat.add, UnpackedFloat.sub, UnpackedFloat.neg, apply_neg,
        Int.sub_neg]
    | _ => rfl

theorem Within.add (ha : Within j a) (hb : Within j b) (hj : j + 1 < 1024) :
    Within (j + 1) (a + b) := by
  obtain ⟨s, n, hs, hn⟩ := within_iff.1 ha
  obtain ⟨t, k, ht, hk⟩ := within_iff.1 hb
  obtain ⟨u, m, hu, hm⟩ := hs.exists_sub ht.neg
  rw [← unpacked_add_eq] at hu
  exact hu.within (hm.trans (rounded_add_le hn hk)) hj

/-! ## differences the other way round -/

theorem neg_roundWithAccuracy (s : Sign) (m : Nat) (e : Int) (c : Accuracy) :
    (roundWithAccuracy Format.binary64 s m e c).neg =
      roundWithAccuracy Format.binary64 (-s) m e c := by
  rw [roundWithAccuracy, roundWithAccuracy]
  dsimp only
  split <;> rfl

theorem neg_normalize {m : Int} (hm : m ≠ 0) (e : Int) (s : Sign) :
    (UnpackedFloat.normalize Format.binary64 m e s).neg =
      UnpackedFloat.normalize Format.binary64 (-m) e s := by
  rw [UnpackedFloat.normalize, UnpackedFloat.normalize]
  rcases hm.lt_or_gt with h | h
  · rw [compare_lt_iff_lt.2 h, compare_gt_iff_gt.2 (by omega)]
    exact neg_roundWithAccuracy _ _ _ _
  · rw [compare_gt_iff_gt.2 h, compare_lt_iff_lt.2 (by omega), Int.neg_neg]
    exact neg_roundWithAccuracy _ _ _ _

theorem unpacked_neg_neg (x : UnpackedFloat) : x.neg.neg = x := by
  rcases x with (_ | _) | _ | (_ | _) | ⟨_ | _, m, e, hm⟩ <;> rfl

theorem Stands.sub_swap (hx : Stands s x (WithTop.some n)) (hy : Stands t y (WithTop.some k)) :
    UnpackedFloat.sub Format.binary64 y x = UnpackedFloat.sub Format.binary64 x y ∨
      UnpackedFloat.sub Format.binary64 y x = (UnpackedFloat.sub Format.binary64 x y).neg := by
  cases hx with
  | zero u =>
    cases hy with
    | zero v => cases u <;> cases v <;> first | exact .inl rfl | exact .inr rfl
    | finite hm hy => exact .inr (unpacked_neg_neg _).symm
  | @finite m e hm hx =>
    cases hy with
    | zero v => exact .inr rfl
    | @finite m' f hm' hy =>
      simp only [UnpackedFloat.sub, min_comm f e]
      generalize t.apply _ = v
      generalize s.apply _ = u
      by_cases h : u = v
      · rw [h]
        exact .inl rfl
      · rw [← Int.neg_sub, neg_normalize (sub_ne_zero.2 h)]
        exact .inr rfl

/-- of two differences the other way round, one is the other or has the other sign -/
theorem sub_swap (ha : Within j a) (hb : Within j b) (hj : j + 1 < 1024) :
    b - a = a - b ∨ b - a = -(a - b) := by
  obtain ⟨s, n, hs, hn⟩ := within_iff.1 ha
  obtain ⟨t, k, ht, hk⟩ := within_iff.1 hb
  obtain ⟨u, m, hu, hm⟩ := hs.exists_sub ht
  have hlt : m < limit := (hm.trans (rounded_add_le hn hk)).trans_lt (two_pow_lt_limit hj)
  refine (hs.sub_swap ht).imp (congrArg fun z => Float.ofModel (Float.Model.pack z)) fun h => ?_
  show Float.ofModel (Float.Model.pack _) = Float.ofModel (Float.Model.pack
    (UnpackedFloat.unpack Format.binary64 (UnpackedFloat.pack Format.binary64 _)).neg)
  rw [h, hu.unpack_pack hlt]

end Floating
end Palette
