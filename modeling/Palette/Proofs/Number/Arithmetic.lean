import Palette.Proofs.Number.Packing

/-!
# Arithmetic keeps the order

Products and differences of floats are rounded, and rounding keeps the order. So a product with one
factor follows the other factor, and a difference does not rise above what it is taken from.

* `Floating.Measures`       the number of units of a float that is not below zero;
* `Floating.Measures.le_iff`   such floats are ordered by their units;
* `Floating.Measures.mul`   a product;
* `Floating.mul_le_mul_left`, `Floating.mul_le_self`, `Floating.mul_nonneg`   its order;
* `Floating.sub_le_self`, `Floating.sub_nonpos`   that of a difference.
-/

namespace Palette
namespace Floating
open Float.Model Float.Model.UnpackedFloat

/-! ## units and order -/

/-- the number of units of a float that is not below zero -/
def Measures (a : Float) (n : WithTop Nat) : Prop :=
  Stands .positive a.toModel.unpack n ∧ capped n = n

theorem scaled_pos {m : Nat} (hm : 0 < m) (e : Int) : 0 < scaled m e :=
  Nat.mul_pos hm (Nat.two_pow_pos _)

theorem Stands.le_iff {x y : UnpackedFloat} {n k : WithTop Nat} (hx : Stands .positive x n)
    (hy : Stands .positive y k) : x.le y = true ↔ n ≤ k := by
  rw [unpacked_le_iff]
  cases hx with
  | zero s =>
    cases hy with
    | zero t => simp [height?]
    | finite hm h => simp [height?, Prod.Lex.le_iff]
    | infinity => simp [height?, Prod.Lex.le_iff]
  | finite hm h =>
    cases hy with
    | zero t => simp [height?, Prod.Lex.le_iff, (scaled_pos hm _).ne']
    | finite hm' h' => simp [height?, Prod.Lex.le_iff, h.scaled_le_iff h']
    | infinity => simp [height?, Prod.Lex.le_iff]
  | infinity =>
    cases hy with
    | zero t => simp [height?, Prod.Lex.le_iff]
    | finite hm h => simp [height?, Prod.Lex.le_iff]
    | infinity => simp [height?]

theorem Stands.le_of_negative {x y : UnpackedFloat} {n k : WithTop Nat} (hx : Stands .negative x n)
    (hy : Stands .positive y k) : x.le y = true := by
  rw [unpacked_le_iff]
  cases hx <;> cases hy <;> simp [height?, Prod.Lex.le_iff]

theorem unpack_zero_literal : (0.0 : Float).toModel.unpack = .zero .positive := rfl

theorem zero_stands (s : Sign) : Stands s (0.0 : Float).toModel.unpack (WithTop.some 0) := by
  rw [unpack_zero_literal]
  exact .zero _

/-- what stands on both sides of zero is zero -/
theorem Stands.turn {x : UnpackedFloat} {n : WithTop Nat} (h : Stands .negative x n)
    (hle : (UnpackedFloat.zero .positive).le x = true) : Stands .positive x n := by
  rw [unpacked_le_iff] at hle
  cases h with
  | zero t => exact .zero t
  | finite hm h => simp [height?, Prod.Lex.le_iff] at hle
  | infinity => simp [height?, Prod.Lex.le_iff] at hle

/-- a float that is not below zero has a number of units -/
theorem exists_measures {a : Float} (h : 0.0 ≤ a) : ∃ n, Measures a n := by
  obtain ⟨s, n, hs, hcap⟩ := exists_stands (isNaN_of_le h).2
  cases s with
  | positive => exact ⟨n, hs, hcap⟩
  | negative => exact ⟨n, hs.turn (decide_eq_true_iff.1 h), hcap⟩

theorem Measures.le_iff {a b : Float} {n k : WithTop Nat} (ha : Measures a n)
    (hb : Measures b k) : a ≤ b ↔ n ≤ k := by
  rw [← ha.1.le_iff hb.1]
  exact decide_eq_true_iff

/-! ## products -/

/-- a number of units is rounded, and infinity where it is too large -/
def settled (n : WithTop Nat) : WithTop Nat := capped (n.map rounded)

theorem settled_mono : Monotone settled := fun _ _ h =>
  capped_mono (WithTop.monotone_map_iff.2 (fun _ _ => rounded_mono) h)

theorem rounded_zero : rounded 0 = 0 := rounded_of_dvd (Nat.dvd_zero _)

theorem Stands.map_rounded {s : Sign} {x : UnpackedFloat} {n : WithTop Nat} (h : Stands s x n) :
    n.map rounded = n := by
  cases h with
  | zero => exact congrArg WithTop.some rounded_zero
  | finite hm h => exact congrArg WithTop.some (rounded_scaled h.lt h.min)
  | infinity => rfl

theorem Measures.settled {a : Float} {n : WithTop Nat} (h : Measures a n) : settled n = n := by
  rw [Floating.settled, h.1.map_rounded, h.2]

/-- the units of one -/
def units : Nat := 2 ^ 2148

theorem scaled_mul {m n : Nat} {e f : Int} (he : -1074 ≤ e) (hf : -1074 ≤ f) :
    scaled m e * scaled n f = scaled (m * n) (e + f) * units := by
  have hexp : (e + 2148).toNat + (f + 2148).toNat = (e + f + 2148).toNat + 2148 := by omega
  rw [scaled, scaled, scaled, units, Nat.mul_mul_mul_comm, ← pow_add, hexp, pow_add,
    ← Nat.mul_assoc]

/-- the product of two floats has more digits than floats have, or the least exponent -/
theorem Canonical.le_targetExponent {m n : Nat} {e f : Int} (h : Canonical m e)
    (h' : Canonical n f) (hm : 0 < m) (hn : 0 < n) :
    e + f ≤ Format.binary64.targetExponent (totalExponent (m * n) (e + f)) := by
  rw [targetExponent_eq]
  have hpos : m * n ≠ 0 := (Nat.mul_pos hm hn).ne'
  have hlog (hle : 2 ^ 52 ≤ m * n) : 52 ≤ (m * n).log2 := (Nat.le_log2 hpos).2 hle
  rcases h.normal with hm' | rfl
  · have := hlog (hm'.trans (Nat.le_mul_of_pos_right m hn))
    omega
  · rcases h'.normal with hn' | rfl
    · have := hlog (hn'.trans (Nat.le_mul_of_pos_left n hm))
      omega
    · omega

theorem units_pos : 0 < units := by
  rw [units]
  positivity

/-- the units of a product -/
def product (k : Nat) (n : WithTop Nat) : WithTop Nat := n.map fun n => k * n / units

theorem product_mono (k : Nat) : Monotone (product k) :=
  WithTop.monotone_map_iff.2 fun _ _ h => Nat.div_le_div_right (Nat.mul_le_mul_left k h)

/-- a factor that is not above one does not raise the other one -/
theorem product_le {k : Nat} (h : k ≤ units) (n : WithTop Nat) : product k n ≤ n := by
  cases n with
  | top => exact le_top
  | coe n =>
    refine WithTop.coe_le_coe.2 (Nat.div_le_of_le_mul ?_)
    exact Nat.mul_le_mul_right n h

theorem positive_mul (s : Sign) : Sign.positive * s = s := by cases s <;> rfl

theorem Stands.mul_finite {s t : Sign} {x y : UnpackedFloat} {n k : Nat}
    (hx : Stands s x (WithTop.some n))
    (hy : Stands t y (WithTop.some k)) :
    Stands (s * t) (UnpackedFloat.mul Format.binary64 x y)
      (WithTop.some (rounded (n * k / units))) := by
  cases hx with
  | zero u =>
    rw [Nat.zero_mul, Nat.zero_div, rounded_zero]
    cases hy <;> exact .zero _
  | @finite m e hm hx =>
    cases hy with
    | zero u =>
      rw [Nat.mul_zero, Nat.zero_div, rounded_zero]
      exact .zero _
    | @finite m' f hm' hy =>
      have hmin := hx.min
      have hmin' := hy.min
      rw [scaled_mul hmin hmin', Nat.mul_div_cancel _ units_pos]
      exact stands_roundWithAccuracy _ (Nat.mul_pos hm hm') (by omega)
        (hx.le_targetExponent hy hm hm')

theorem Stands.mul {s : Sign} {x y : UnpackedFloat} {k : Nat} {n : WithTop Nat}
    (hx : Stands .positive x (WithTop.some k)) (hk : 0 < k) (hy : Stands s y n) :
    Stands s (UnpackedFloat.mul Format.binary64 x y) ((product k n).map rounded) := by
  cases n with
  | coe n =>
    have h := hx.mul_finite hy
    rw [positive_mul] at h
    exact h
  | top =>
    cases hy
    cases hx with
    | zero => exact absurd hk (Nat.lt_irrefl 0)
    | finite hm h =>
      show Stands s (.infinity (.positive * s)) ⊤
      rw [positive_mul]
      exact .infinity

theorem capped_capped (n : WithTop Nat) : capped (capped n) = capped n := by
  by_cases h : n < WithTop.some limit
  · rw [capped.eq_1 n, if_pos h]
    exact if_pos h
  · rw [capped.eq_1 n, if_neg h]
    exact if_neg not_top_lt

theorem Measures.mul {a b : Float} {k : Nat} {n : WithTop Nat} (ha : Measures a (WithTop.some k))
    (hk : 0 < k) (hb : Measures b n) : Measures (a * b) (Floating.settled (product k n)) :=
  ⟨(ha.1.mul hk hb.1).packed, capped_capped _⟩

theorem measures_zero : Measures 0.0 (WithTop.some 0) := ⟨zero_stands _, capped_of_lt limit_pos⟩

theorem measures_one : Measures 1.0 (WithTop.some units) := by
  have hunpack : (1.0 : Float).toModel.unpack = .finite .positive (2 ^ 52) (-52) (by decide) := rfl
  have hcanonical : Canonical (2 ^ 52) (-52) := ⟨by decide, by decide, .inl le_rfl⟩
  have hunits : scaled (2 ^ 52) (-52) = units := by
    have hexp : (-52 + 2148 : Int).toNat = 2096 := rfl
    rw [scaled, hexp, units, ← pow_add]
  rw [← hunits]
  refine ⟨?_, capped_of_lt (not_le.1 fun hle => ?_)⟩
  · rw [hunpack]
    exact .finite _ hcanonical
  · exact absurd (hcanonical.limit_le_iff.1 hle) (by decide)

section
variable {c : Float} (hc : 0.0 < c) (hc' : c ≤ 1.0)
include hc hc'

theorem exists_factor : ∃ k, Measures c (WithTop.some k) ∧ 0 < k ∧ k ≤ units := by
  obtain ⟨n, hn⟩ := exists_measures (le_of_lt hc)
  have hle : n ≤ WithTop.some units := (hn.le_iff measures_one).1 hc'
  obtain ⟨k, rfl⟩ := WithTop.ne_top_iff_exists.1 (hle.trans_lt (WithTop.coe_lt_top _)).ne
  refine ⟨k, hn, Nat.pos_of_ne_zero ?_, WithTop.coe_le_coe.1 hle⟩
  rintro rfl
  exact not_le_of_lt hc ((hn.le_iff measures_zero).2 le_rfl)

variable {a b : Float} (ha : 0.0 ≤ a)
include ha

theorem mul_nonneg : 0.0 ≤ c * a := by
  obtain ⟨k, hk, hpos, _⟩ := exists_factor hc hc'
  obtain ⟨n, hn⟩ := exists_measures ha
  exact (measures_zero.le_iff (hk.mul hpos hn)).2 bot_le

theorem mul_le_self : c * a ≤ a := by
  obtain ⟨k, hk, hpos, hle⟩ := exists_factor hc hc'
  obtain ⟨n, hn⟩ := exists_measures ha
  refine ((hk.mul hpos hn).le_iff hn).2 ?_
  calc settled (product k n) ≤ settled n := settled_mono (product_le hle n)
    _ = n := hn.settled

theorem mul_le_mul_left (hab : a ≤ b) : c * a ≤ c * b := by
  obtain ⟨k, hk, hpos, _⟩ := exists_factor hc hc'
  obtain ⟨n, hn⟩ := exists_measures ha
  obtain ⟨j, hj⟩ := exists_measures (Scale.trans ha hab)
  refine ((hk.mul hpos hn).le_iff (hk.mul hpos hj)).2 ?_
  exact settled_mono (product_mono k ((hn.le_iff hj).1 hab))

end

/-! ## differences -/

theorem scaled_sub (m n : Nat) (e : Int) : scaled (m - n) e = scaled m e - scaled n e :=
  Nat.sub_mul _ _ _

theorem scaled_le_iff {m n : Nat} {e : Int} : scaled m e ≤ scaled n e ↔ m ≤ n :=
  Nat.mul_le_mul_right_iff (Nat.two_pow_pos _)

/-- finite floats are subtracted at the lower one of their exponents -/
theorem exists_sub (s t : Sign) {m n : Nat} {e f : Int} (hm : 0 < m) (hn : 0 < n)
    (he : -1074 ≤ e) (hf : -1074 ≤ f) :
    ∃ i j : Nat, 0 < i ∧ 0 < j ∧ ∃ d : Int, -1074 ≤ d ∧ scaled i d = scaled m e ∧
      scaled j d = scaled n f ∧
      UnpackedFloat.sub Format.binary64 (.finite s m e hm) (.finite t n f hn) =
        UnpackedFloat.normalize Format.binary64 (s.apply i - t.apply j) d .positive := by
  have hd {g : Int} (hg : min e f ≤ g) : g - (g - min e f).toNat = min e f := by omega
  have hpos {i : Nat} (hi : 0 < i) (j : Nat) : 0 < i <<< j := by
    rw [Nat.shiftLeft_eq]
    exact Nat.mul_pos hi (Nat.two_pow_pos j)
  have hscaled (i : Nat) {g : Int} (hg : min e f ≤ g) :
      scaled (i <<< (g - min e f).toNat) (min e f) = scaled i g := by
    rw [← scaled_shiftLeft i (g - min e f).toNat (by omega), hd hg]
  exact ⟨m <<< (e - min e f).toNat, n <<< (f - min e f).toNat, hpos hm _, hpos hn _, min e f,
    by omega, hscaled m (min_le_left e f), hscaled n (min_le_right e f), rfl⟩

theorem Stands.sub_zero (s : Sign) (t u : Sign) :
    Stands s (UnpackedFloat.sub Format.binary64 (.zero t) (.zero u)) (WithTop.some 0) := by
  show Stands s (if t == -u then .zero t else .zero .positive) _
  split <;> exact .zero _

theorem Stands.sub_of_le {x y : UnpackedFloat} {n k : Nat}
    (hx : Stands .positive x (WithTop.some n)) (hy : Stands .positive y (WithTop.some k))
    (h : k ≤ n) :
    Stands .positive (UnpackedFloat.sub Format.binary64 x y) (WithTop.some (rounded (n - k))) := by
  cases hx with
  | zero s =>
    cases hy with
    | zero t =>
      rw [Nat.sub_zero, rounded_zero]
      exact Stands.sub_zero _ s t
    | finite hn h' => exact absurd h (scaled_pos hn _).not_ge
  | @finite m e hm hx =>
    cases hy with
    | zero t =>
      rw [Nat.sub_zero, rounded_scaled hx.lt hx.min]
      exact .finite hm hx
    | @finite n f hn hy =>
      obtain ⟨i, j, hi, hj, d, hd, hid, hjd, hsub⟩ := exists_sub .positive .positive hm hn hx.min
        hy.min
      rw [← hid, ← hjd, scaled_le_iff] at h
      obtain ⟨hpos, hzero, _⟩ := stands_normalize (m := (i : Int) - j) hd .positive
      rw [hsub, ← hid, ← hjd, ← scaled_sub]
      show Stands .positive (UnpackedFloat.normalize Format.binary64 ((i : Int) - j) d .positive) _
      rcases h.lt_or_eq with hlt | rfl
      · rw [← Int.toNat_sub i j]
        exact hpos (by omega)
      · rw [hzero (Int.sub_self _), Nat.sub_self, scaled, Nat.zero_mul, rounded_zero]
        exact .zero _

/-- what is not above zero, or not above what is taken from it, becomes what is not above zero -/
theorem Stands.sub_of_ge {s : Sign} {x y : UnpackedFloat} {n k : WithTop Nat} (hx : Stands s x n)
    (hy : Stands .positive y k) (h : s = .positive → n ≠ ⊤ ∧ n ≤ k) :
    ∃ j, Stands .negative (UnpackedFloat.sub Format.binary64 x y) j := by
  cases hx with
  | zero t =>
    cases hy with
    | zero u => exact ⟨_, Stands.sub_zero _ t u⟩
    | finite hn hy => exact ⟨_, .finite hn hy⟩
    | infinity => exact ⟨_, .infinity⟩
  | @finite m e hm hx =>
    cases hy with
    | zero t =>
      cases s with
      | negative => exact ⟨_, .finite hm hx⟩
      | positive => exact absurd (WithTop.coe_le_coe.1 (h rfl).2) (scaled_pos hm e).not_ge
    | infinity => exact ⟨_, .infinity⟩
    | @finite n f hn hy =>
      obtain ⟨i, j, hi, hj, d, hd, hid, hjd, hsub⟩ := exists_sub s .positive hm hn hx.min hy.min
      obtain ⟨_, hzero, hneg⟩ :=
        stands_normalize (m := s.apply i - Sign.apply .positive j) hd .positive
      have hle : s.apply i - Sign.apply .positive j ≤ 0 := by
        cases s with
        | negative =>
          show -(i : Int) - j ≤ 0
          omega
        | positive =>
          have hij := WithTop.coe_le_coe.1 (h rfl).2
          rw [← hid, ← hjd, scaled_le_iff] at hij
          show (i : Int) - j ≤ 0
          omega
      rw [hsub]
      rcases hle.lt_or_eq with hlt | heq
      · exact ⟨_, hneg hlt⟩
      · rw [hzero heq]
        exact ⟨_, .zero _⟩
  | infinity =>
    cases s with
    | positive => exact absurd rfl (h rfl).1
    | negative => cases hy <;> exact ⟨_, .infinity⟩

/-- what stands below zero is at most what does not -/
theorem le_of_stands {a b : Float} {n k : WithTop Nat} (ha : Stands .negative a.toModel.unpack n)
    (hb : Stands .positive b.toModel.unpack k) : a ≤ b :=
  decide_eq_true_iff.2 (ha.le_of_negative hb)

/-- what is below something is not infinite, unless it is below zero -/
theorem Measures.ne_top {a b : Float} {n : WithTop Nat} (h : Measures a n) (hab : a < b) :
    n ≠ ⊤ := by
  rintro rfl
  have hb : 0.0 ≤ b := Scale.trans ((measures_zero.le_iff h).2 bot_le) (le_of_lt hab)
  obtain ⟨k, hk⟩ := exists_measures hb
  exact not_le_of_lt hab ((hk.le_iff h).2 le_top)

theorem sub_le_self {a b d : Float} (ha : 0.0 ≤ a) (hab : a < b) (hd : 0.0 ≤ d) : a - d ≤ a := by
  obtain ⟨n, hn⟩ := exists_measures ha
  obtain ⟨k, hk⟩ := exists_measures hd
  obtain ⟨n, rfl⟩ := WithTop.ne_top_iff_exists.1 (hn.ne_top hab)
  rcases le_total k (WithTop.some n) with hkn | hnk
  · obtain ⟨k, rfl⟩ := WithTop.ne_top_iff_exists.1 (hkn.trans_lt (WithTop.coe_lt_top _)).ne
    have hsub : Measures (a - d) (Floating.settled (WithTop.some (n - k))) :=
      ⟨(hn.1.sub_of_le hk.1 (WithTop.coe_le_coe.1 hkn)).packed, capped_capped _⟩
    refine (hsub.le_iff hn).2 ?_
    calc settled (WithTop.some (n - k)) ≤ settled (WithTop.some n) :=
          settled_mono (WithTop.coe_le_coe.2 (Nat.sub_le n k))
      _ = WithTop.some n := hn.settled
  · obtain ⟨j, hj⟩ := hn.1.sub_of_ge hk.1 fun _ => ⟨WithTop.coe_ne_top, hnk⟩
    exact le_of_stands hj.packed hn.1

theorem sub_nonpos {a b c : Float} (hb : 0.0 ≤ b) (hab : a ≤ b) (hac : a < c) : a - b ≤ 0.0 := by
  obtain ⟨k, hk⟩ := exists_measures hb
  obtain ⟨s, n, hs, hcap⟩ := exists_stands (isNaN_of_le hab).1
  have hside : s = .positive → n ≠ ⊤ ∧ n ≤ k := by
    rintro rfl
    have hn : Measures a n := ⟨hs, hcap⟩
    exact ⟨hn.ne_top hac, (hn.le_iff hk).1 hab⟩
  obtain ⟨j, hj⟩ := hs.sub_of_ge hk.1 hside
  exact le_of_stands hj.packed (zero_stands _)

/-- What is nearer has a lower score. A score is a share of a separation less a share of a drift. -/
theorem score_lt {w v m x y d : Float} (hw : 0.0 < w) (hw' : w ≤ 1.0) (hv : 0.0 < v) (hv' : v ≤ 1.0)
    (hm : 0.0 < m) (hx : 0.0 ≤ x) (hxy : x < y) (hd : 0.0 ≤ d) : w * x - v * d - w * y < m := by
  have hy : 0.0 ≤ y := Scale.trans hx (le_of_lt hxy)
  have hwx : 0.0 ≤ w * x := mul_nonneg hw hw' hx
  have hwxy : w * x < y := lt_of_le_of_lt (mul_le_self hw hw' hx) hxy
  have hscore : w * x - v * d ≤ w * x := sub_le_self hwx hwxy (mul_nonneg hv hv' hd)
  have hle : w * x - v * d ≤ w * y := Scale.trans hscore (mul_le_mul_left hw hw' hx (le_of_lt hxy))
  have hlt : w * x - v * d < y := lt_of_le_of_lt hscore hwxy
  exact lt_of_le_of_lt (sub_nonpos (mul_nonneg hw hw' hy) hle hlt) hm

end Floating
end Palette
