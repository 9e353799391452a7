import Mathlib
import Palette.Number.Dyadic

/-!
# Rounding keeps the order

The value of a positive float is a whole number of units, which are so small that a product of two
floats is one of them too. What is no float is rounded to as many of its first digits as floats
have, a half to the even neighbour.

* `Dyadic.roundDiv_mono`, `Dyadic.le_roundDiv`, `Dyadic.roundDiv_mul`   quotients that are rounded;
* `Floating.rounded`       a number of units, rounded;
* `Floating.rounded_mono`  rounding keeps the order;
* `Floating.Canonical`     the mantissas and exponents of floats;
* `Floating.Canonical.rounded_scaled`   floats are not rounded;
* `Floating.roundedMantissa_shiftRight`   digits that are shifted out round the others;
* `Floating.Stands`        the floats of a sign and a number of units;
* `Floating.stands_roundWithAccuracy`, `Floating.stands_round`, `Floating.stands_normalize`   what
                           the rounding of floats gives.
-/

namespace Palette

namespace Dyadic

theorem le_roundDiv {n d b : Nat} (h : 0 < d) (hn : b * d ≤ n) : b ≤ roundDiv n d := by
  have hq : b ≤ n / d := (Nat.le_div_iff_mul_le h).2 hn
  simp only [roundDiv]
  split
  · exact hq
  · split
    · omega
    · split <;> omega

theorem roundDiv_mono {n n' d : Nat} (h : 0 < d) (hn : n ≤ n') :
    roundDiv n d ≤ roundDiv n' d := by
  have hle : n / d ≤ n' / d := Nat.div_le_div_right hn
  rcases hle.lt_or_eq with hlt | heq
  -- the whole number above one quotient is at most the other quotient
  · refine (roundDiv_le (b := n / d + 1) h ?_).trans (le_roundDiv h ?_)
    · exact (Nat.lt_mul_of_div_lt (Nat.lt_succ_self _) h).le
    · exact (Nat.mul_le_mul_right d hlt).trans (Nat.div_mul_le_self n' d)
  -- of two numbers with one quotient, the greater one has the greater remainder
  · have hr : n % d ≤ n' % d := by
      have hn₁ := Nat.div_add_mod n d
      have hn₂ := Nat.div_add_mod n' d
      rw [heq] at hn₁
      omega
    simp only [roundDiv, heq, beq_iff_eq]
    split_ifs <;> omega

theorem roundDiv_mul (n : Nat) {d : Nat} (h : 0 < d) : roundDiv (n * d) d = n :=
  le_antisymm (roundDiv_le h le_rfl) (le_roundDiv h le_rfl)

/-- a quotient does not change with its unit -/
theorem roundDiv_mul_mul (n d : Nat) {c : Nat} (h : 0 < c) :
    roundDiv (n * c) (d * c) = roundDiv n d := by
  have hlt (a b : Nat) : 2 * (a * c) < b * c ↔ 2 * a < b := by
    rw [← Nat.mul_assoc]
    exact Nat.mul_lt_mul_right h
  have hlt' (a b : Nat) : b * c < 2 * (a * c) ↔ b < 2 * a := by
    rw [← Nat.mul_assoc]
    exact Nat.mul_lt_mul_right h
  simp only [roundDiv, Nat.mul_div_mul_right n d h, Nat.mul_mod_mul_right, hlt, hlt']

end Dyadic

namespace Floating
open Float.Model Float.Model.UnpackedFloat

/-! ## numbers of units -/

/-- the number of digits of some units that no float has -/
def grain (n : Nat) : Nat := max (n.log2 - 52) 1074

/-- a number of units, rounded to the digits that floats have -/
def rounded (n : Nat) : Nat := Dyadic.roundDiv n (2 ^ grain n) * 2 ^ grain n

theorem log2_mono {n n' : Nat} (h : n ≤ n') : n.log2 ≤ n'.log2 := by
  rw [Nat.log2_eq_log_two, Nat.log2_eq_log_two]
  exact Nat.log_mono_right h

theorem rounded_mono {n n' : Nat} (h : n ≤ n') : rounded n ≤ rounded n' := by
  have hlog := log2_mono h
  have hgrain : grain n ≤ grain n' := max_le_max_right _ (Nat.sub_le_sub_right hlog 52)
  rcases hgrain.lt_or_eq with hlt | heq
  -- the number of digits below the first one is a bound between the two
  · have hlog' : n.log2 + 1 ≤ n'.log2 := by
      simp only [grain] at hlt
      omega
    have hn' : grain n' = n'.log2 - 52 := by
      simp only [grain] at hlt ⊢
      omega
    have hpow (k : Nat) (hk : k ≤ n'.log2) : 2 ^ (n'.log2 - k) * 2 ^ k = 2 ^ n'.log2 := by
      rw [← pow_add, Nat.sub_add_cancel hk]
    have hk : grain n ≤ n'.log2 := by omega
    have hk' : grain n' ≤ n'.log2 := by omega
    have hne : n' ≠ 0 := by
      rintro rfl
      rw [Nat.log2_zero] at hlog'
      omega
    calc rounded n ≤ 2 ^ (n'.log2 - grain n) * 2 ^ grain n := by
          refine Nat.mul_le_mul_right _ (Dyadic.roundDiv_le (Nat.two_pow_pos _) ?_)
          rw [hpow _ hk]
          exact (Nat.lt_log2_self.trans_le (Nat.pow_le_pow_right (by decide) hlog')).le
      _ = 2 ^ (n'.log2 - grain n') * 2 ^ grain n' := by rw [hpow _ hk, hpow _ hk']
      _ ≤ rounded n' := by
          refine Nat.mul_le_mul_right _ (Dyadic.le_roundDiv (Nat.two_pow_pos _) ?_)
          rw [hpow _ hk']
          exact Nat.log2_self_le hne
  · rw [rounded, rounded, heq]
    exact Nat.mul_le_mul_right _ (Dyadic.roundDiv_mono (Nat.two_pow_pos _) h)

theorem rounded_of_dvd {n : Nat} (h : 2 ^ grain n ∣ n) : rounded n = n := by
  obtain ⟨q, hq⟩ := h
  have hn : q * 2 ^ grain n = n := (Nat.mul_comm _ _).trans hq.symm
  calc rounded n = Dyadic.roundDiv (q * 2 ^ grain n) (2 ^ grain n) * 2 ^ grain n := by
        rw [hn, rounded]
    _ = n := by rw [Dyadic.roundDiv_mul q (Nat.two_pow_pos _), hn]

/-! ## mantissas and exponents -/

/-- the units of a mantissa with an exponent -/
def scaled (m : Nat) (e : Int) : Nat := m * 2 ^ (e + 2148).toNat

/-- is a mantissa with an exponent that of a float? -/
structure Canonical (m : Nat) (e : Int) : Prop where
  lt : m < 2 ^ 53
  min : -1074 ≤ e
  normal : 2 ^ 52 ≤ m ∨ e = -1074

theorem log2_mul_two_pow {m : Nat} (hm : m ≠ 0) (k : Nat) : (m * 2 ^ k).log2 = m.log2 + k := by
  rw [Nat.log2_eq_iff (Nat.mul_ne_zero hm (Nat.two_pow_pos k).ne'), pow_add, Nat.add_right_comm,
    pow_add]
  exact ⟨Nat.mul_le_mul_right _ (Nat.log2_self_le hm),
    Nat.mul_lt_mul_of_pos_right Nat.lt_log2_self (Nat.two_pow_pos k)⟩

/-- floats are not rounded -/
theorem rounded_scaled {m : Nat} {e : Int} (hm : m < 2 ^ 53) (he : -1074 ≤ e) :
    rounded (scaled m e) = scaled m e := by
  rcases Nat.eq_zero_or_pos m with rfl | hpos
  · rw [scaled, Nat.zero_mul]
    exact rounded_of_dvd (Nat.dvd_zero _)
  · refine rounded_of_dvd ((Nat.pow_dvd_pow 2 ?_).trans (Nat.dvd_mul_left _ _))
    have hlog : m.log2 < 53 := (Nat.log2_lt hpos.ne').2 hm
    rw [grain, scaled, log2_mul_two_pow hpos.ne']
    omega

theorem Canonical.scaled_lt {m n : Nat} {e f : Int} (h : Canonical m e) (h' : Canonical n f)
    (hef : e < f) : scaled m e < scaled n f := by
  have hn : 2 ^ 52 ≤ n := h'.normal.resolve_right (h.min.trans_lt hef).ne'
  have hexp : (f + 2148).toNat = (f - e - 1).toNat + 1 + (e + 2148).toNat := by
    have := h.min
    omega
  have hpow : 1 ≤ 2 ^ (f - e - 1).toNat := Nat.one_le_two_pow
  rw [scaled, scaled, hexp, pow_add, pow_succ, ← Nat.mul_assoc]
  refine Nat.mul_lt_mul_of_pos_right (h.lt.trans_le ?_) (Nat.two_pow_pos _)
  calc 2 ^ 53 = 2 ^ 52 * (1 * 2) := by norm_num
    _ ≤ n * (2 ^ (f - e - 1).toNat * 2) := Nat.mul_le_mul hn (Nat.mul_le_mul_right 2 hpow)

/-- floats of one sign are ordered by their exponents, then by their mantissas -/
theorem Canonical.scaled_le_iff {m n : Nat} {e f : Int} (h : Canonical m e) (h' : Canonical n f) :
    scaled m e ≤ scaled n f ↔ e < f ∨ e = f ∧ m ≤ n := by
  rcases lt_trichotomy e f with hlt | rfl | hgt
  · simp [hlt, (h.scaled_lt h' hlt).le]
  · simp [scaled]
  · simp [hgt.not_gt, hgt.ne', (h'.scaled_lt h hgt).not_ge]

/-! ## what is shifted out -/

/-- What is shifted out of a mantissa is told by two bits: does it reach a half, and is there more
than that? -/
theorem of_shiftRight (m k : Nat) :
    let em := ExtendedMantissa.ofMantissaAndAccuracy m .exact >>> k
    em.mantissa = m / 2 ^ k ∧ (em.roundBit = true ↔ 2 ^ k ≤ 2 * (m % 2 ^ k)) ∧
      (em.stickyBit = true ↔ 2 * (m % 2 ^ k) % 2 ^ k ≠ 0) := by
  induction k with
  | zero =>
    refine ⟨(Nat.div_one m).symm, ?_, ?_⟩
    · rw [pow_zero, Nat.mod_one]
      exact ⟨fun h => Bool.noConfusion h, fun h => absurd h (by decide)⟩
    · rw [pow_zero, Nat.mod_one]
      exact ⟨fun h => Bool.noConfusion h, fun h => absurd rfl h⟩
  | succ k ih =>
    have hstep : ExtendedMantissa.ofMantissaAndAccuracy m .exact >>> (k + 1) =
        (ExtendedMantissa.ofMantissaAndAccuracy m .exact >>> k).shiftRightOne := rfl
    dsimp only at ih ⊢
    rw [hstep]
    revert ih
    generalize ExtendedMantissa.ofMantissaAndAccuracy m .exact >>> k = em
    obtain ⟨q, r, s⟩ := em
    rintro ⟨rfl, hr, hs⟩
    have hmod : m % 2 ^ (k + 1) = m % 2 ^ k + 2 ^ k * (m / 2 ^ k % 2) := by
      rw [pow_succ, Nat.mod_mul]
    have hlt : m % 2 ^ k < 2 ^ k := Nat.mod_lt m (Nat.two_pow_pos k)
    refine ⟨?_, ?_, ?_⟩
    · show m / 2 ^ k / 2 = _
      rw [Nat.div_div_eq_div_mul, pow_succ]
    · show (m / 2 ^ k % 2 != 0) = true ↔ _
      rw [hmod, bne_iff_ne, pow_succ]
      rcases Nat.mod_two_eq_zero_or_one (m / 2 ^ k) with h | h <;> rw [h] <;> omega
    -- there is something below the next digit unless nothing was there before
    · show (r || s) = true ↔ _
      have hzero : 2 * (m % 2 ^ (k + 1)) % 2 ^ (k + 1) = 2 * (m % 2 ^ k) := by
        rw [hmod, pow_succ, Nat.mul_comm (2 ^ k) 2, Nat.mul_mod_mul_left,
          Nat.add_mul_mod_self_left, Nat.mod_mod]
      rw [Bool.or_eq_true, hr, hs, hzero]
      rcases Nat.lt_or_ge (2 * (m % 2 ^ k)) (2 ^ k) with h | h
      · rw [Nat.mod_eq_of_lt h]
        omega
      · have := Nat.two_pow_pos k
        omega

theorem roundedMantissa_shiftRight (m k : Nat) :
    (ExtendedMantissa.ofMantissaAndAccuracy m .exact >>> k).roundedMantissa =
      Dyadic.roundDiv m (2 ^ k) := by
  obtain ⟨hm, hr, hs⟩ := of_shiftRight m k
  revert hm hr hs
  generalize ExtendedMantissa.ofMantissaAndAccuracy m .exact >>> k = em
  obtain ⟨q, r, s⟩ := em
  rintro rfl hr hs
  have hlt : m % 2 ^ k < 2 ^ k := Nat.mod_lt m (Nat.two_pow_pos k)
  simp only [Dyadic.roundDiv]
  cases r with
  | false =>
    rw [if_pos (not_le.1 fun h => Bool.noConfusion (hr.2 h))]
    cases s <;> rfl
  | true =>
    have hle : 2 ^ k ≤ 2 * (m % 2 ^ k) := hr.1 rfl
    have hmod : 2 * (m % 2 ^ k) % 2 ^ k = 2 * (m % 2 ^ k) - 2 ^ k := by
      rw [Nat.mod_eq_sub_mod hle, Nat.mod_eq_of_lt (by omega)]
    rw [hmod] at hs
    rw [if_neg hle.not_gt]
    cases s with
    | true =>
      have hne := hs.1 rfl
      rw [if_pos (by omega)]
      rfl
    | false =>
      have heq : 2 * (m % 2 ^ k) - 2 ^ k = 0 := by
        by_contra hne
        exact Bool.noConfusion (hs.2 hne)
      rw [if_neg (by omega)]
      show m / 2 ^ k + m / 2 ^ k % 2 = _
      split
      · next h =>
        rw [beq_iff_eq] at h
        omega
      · next h =>
        rw [beq_iff_eq] at h
        omega

/-! ## floats that are rounded -/

/-- Is it a float with a sign and with a number of units? Zero has both signs. -/
inductive Stands (s : Sign) : UnpackedFloat → WithTop Nat → Prop
  | zero (t : Sign) : Stands s (.zero t) (WithTop.some 0)
  | finite {m : Nat} {e : Int} (hm : 0 < m) (h : Canonical m e) :
    Stands s (.finite s m e hm) (WithTop.some (scaled m e))
  | infinity : Stands s (.infinity s) ⊤

theorem targetExponent_eq (m : Nat) (e : Int) :
    Format.binary64.targetExponent (totalExponent m e) = max (m.log2 + e - 52) (-1074) := by
  show max ((m.log2 : Int) + 1 + e - (1 + 52 : Nat)) (3 - 2 ^ (11 - 1) - (1 + 52 : Nat)) = _
  norm_num
  omega

/-- a mantissa of few digits is not shifted -/
theorem shiftToTargetExponent_of_lt {m : Nat} {e : Int} (hm : m < 2 ^ 53) (he : -1074 ≤ e) :
    shiftToTargetExponent Format.binary64 m e .exact = (⟨m, false, false⟩, e) := by
  have hlog : m.log2 < 53 := by
    rcases Nat.eq_zero_or_pos m with rfl | hpos
    · decide
    · exact (Nat.log2_lt hpos.ne').2 hm
  have hk : (max ((m.log2 : Int) + e - 52) (-1074) - e).toNat = 0 := by omega
  rw [shiftToTargetExponent, targetExponent_eq, shiftToExponent, hk]
  exact congrArg (_, ·) (Int.add_zero e)

/-- a mantissa of one digit more ends with zeros -/
theorem shiftToTargetExponent_two_pow {e : Int} (he : -1074 ≤ e) :
    shiftToTargetExponent Format.binary64 (2 ^ 53) e .exact = (⟨2 ^ 52, false, false⟩, e + 1) := by
  have hk : (max (((2 ^ 53 : Nat).log2 : Int) + e - 52) (-1074) - e).toNat = 1 := by
    rw [Nat.log2_two_pow]
    omega
  rw [shiftToTargetExponent, targetExponent_eq, shiftToExponent, hk]
  rfl

section
variable {m k : Nat} {e : Int} (he : -2148 ≤ e) (hk : (grain (scaled m e) : Int) = e + k + 2148)
include he hk

theorem rounded_eq_scaled : rounded (scaled m e) = scaled (Dyadic.roundDiv m (2 ^ k)) (e + k) := by
  have hgrain : grain (scaled m e) = k + (e + 2148).toNat := by omega
  have hexp : (e + k + 2148).toNat = k + (e + 2148).toNat := by omega
  rw [rounded, hgrain, scaled, scaled, hexp, pow_add,
    Dyadic.roundDiv_mul_mul _ _ (Nat.two_pow_pos _)]

variable (hm : 0 < m)
include hm

theorem roundDiv_le_two_pow : Dyadic.roundDiv m (2 ^ k) ≤ 2 ^ 53 := by
  rw [grain, scaled, log2_mul_two_pow hm.ne'] at hk
  refine Dyadic.roundDiv_le (Nat.two_pow_pos k) ?_
  rw [← pow_add]
  exact (Nat.lt_log2_self.trans_le (Nat.pow_le_pow_right (by decide) (by omega))).le

theorem two_pow_le_roundDiv : 2 ^ 52 ≤ Dyadic.roundDiv m (2 ^ k) ∨ e + k = -1074 := by
  rw [grain, scaled, log2_mul_two_pow hm.ne'] at hk
  refine or_iff_not_imp_right.2 fun hne => Dyadic.le_roundDiv (Nat.two_pow_pos k) ?_
  rw [← pow_add]
  exact (Nat.pow_le_pow_right (by decide) (by omega)).trans (Nat.log2_self_le hm.ne')

end

/-- rounding gives a float of the units that are rounded -/
theorem stands_roundWithAccuracy (s : Sign) {m : Nat} (hm : 0 < m) {e : Int} (he : -2148 ≤ e)
    (hle : e ≤ Format.binary64.targetExponent (totalExponent m e)) :
    Stands s (roundWithAccuracy Format.binary64 s m e .exact)
      (WithTop.some (rounded (scaled m e))) := by
  obtain ⟨k, hk⟩ := Int.eq_ofNat_of_zero_le (Int.sub_nonneg.2 hle)
  have hgrain : (grain (scaled m e) : Int) = e + k + 2148 := by
    rw [targetExponent_eq] at hk
    rw [grain, scaled, log2_mul_two_pow hm.ne']
    omega
  have hmin : -1074 ≤ e + k := by
    rw [targetExponent_eq] at hk
    omega
  have hfirst : shiftToTargetExponent Format.binary64 m e .exact =
      (ExtendedMantissa.ofMantissaAndAccuracy m .exact >>> k, e + k) := by
    rw [shiftToTargetExponent, shiftToExponent, hk]
    rfl
  rw [roundWithAccuracy, hfirst]
  dsimp only
  rw [roundedMantissa_shiftRight, rounded_eq_scaled he hgrain]
  have hnormal := two_pow_le_roundDiv he hgrain hm
  rcases (roundDiv_le_two_pow he hgrain hm).lt_or_eq with hlt | heq
  · revert hlt hnormal
    generalize Dyadic.roundDiv m (2 ^ k) = n
    intro hnormal hlt
    rw [shiftToTargetExponent_of_lt hlt hmin]
    dsimp only
    split
    · next h =>
      rw [h, scaled, Nat.zero_mul]
      exact .zero s
    · next h => exact .finite _ ⟨hlt, hmin, hnormal⟩
  -- one digit more than floats have: the last one is zero
  · have hcarry : scaled (2 ^ 53) (e + k) = scaled (2 ^ 52) (e + k + 1) := by
      have hexp : (e + k + 1 + 2148).toNat = 1 + (e + k + 2148).toNat := by omega
      rw [scaled, scaled, hexp, pow_add 2 1, ← Nat.mul_assoc]
      rfl
    rw [heq, shiftToTargetExponent_two_pow hmin, hcarry]
    have hlt : 2 ^ 52 < 2 ^ 53 := by decide
    exact .finite _ ⟨hlt, by omega, .inl le_rfl⟩

theorem scaled_shiftLeft (m j : Nat) {e : Int} (he : -2148 ≤ e - j) :
    scaled (m <<< j) (e - j) = scaled m e := by
  have hexp : (e + 2148).toNat = j + (e - j + 2148).toNat := by omega
  rw [scaled, scaled, hexp, pow_add, Nat.shiftLeft_eq, Nat.mul_assoc]

theorem stands_round (s : Sign) {m : Nat} (hm : 0 < m) {e : Int} (he : -1074 ≤ e) :
    Stands s (UnpackedFloat.round Format.binary64 s m e)
      (WithTop.some (rounded (scaled m e))) := by
  have hmin : -1074 ≤ e - (e - Format.binary64.targetExponent (totalExponent m e)).toNat := by
    rw [targetExponent_eq]
    omega
  rw [UnpackedFloat.round, decreaseExponent]
  dsimp only
  revert hmin
  generalize hj : (e - Format.binary64.targetExponent (totalExponent m e)).toNat = j
  intro hmin
  rw [← scaled_shiftLeft m j (by omega)]
  refine stands_roundWithAccuracy s ?_ (by omega) ?_
  · rw [Nat.shiftLeft_eq]
    exact Nat.mul_pos hm (Nat.two_pow_pos j)
  · rw [targetExponent_eq] at hj ⊢
    rw [Nat.shiftLeft_eq, log2_mul_two_pow hm.ne']
    omega

/-- a difference of units is rounded, with its sign -/
theorem stands_normalize {m : Int} {e : Int} (he : -1074 ≤ e) (s : Sign) :
    (0 < m → Stands .positive (UnpackedFloat.normalize Format.binary64 m e s)
        (WithTop.some (rounded (scaled m.toNat e)))) ∧
      (m = 0 → UnpackedFloat.normalize Format.binary64 m e s = .zero s) ∧
      (m < 0 → Stands .negative (UnpackedFloat.normalize Format.binary64 m e s)
        (WithTop.some (rounded (scaled (-m).toNat e)))) := by
  refine ⟨fun h => ?_, fun h => ?_, fun h => ?_⟩
  · rw [UnpackedFloat.normalize, compare_gt_iff_gt.2 h]
    exact stands_round .positive (by omega) he
  · rw [UnpackedFloat.normalize, compare_eq_iff_eq.2 h]
  · rw [UnpackedFloat.normalize, compare_lt_iff_lt.2 h]
    exact stands_round .negative (by omega) he

end Floating
end Palette
