import Palette.Proofs.Number.Difference

/-!
# Exact values

A finite float is read as a mantissa with an exponent, and this value has as many units as the
float.

* `Floating.exists_ofFloat?`   the exact value of a finite float;
* `Floating.num_mul_units`     units of a value, and its numerator over its denominator;
* `Floating.exists_roundDiv_le`   what is at most a whole number is rounded to at most this.
-/

namespace Palette
namespace Floating
open Float.Model Float.Model.UnpackedFloat

/-! ## fields -/

theorem toNat_unpackMantissa (b : BitVec Format.binary64.numBits) :
    (unpackMantissa b).toNat = b.toNat % 2 ^ 52 := by
  rw [unpackMantissa, BitVec.toNat_cast, BitVec.extractLsb_toNat, Nat.shiftRight_zero]
  rfl

theorem toNat_unpackExponent (b : BitVec Format.binary64.numBits) :
    (unpackExponent b).toNat = b.toNat / 2 ^ 52 % 2 ^ 11 := by
  rw [unpackExponent, BitVec.toNat_cast, BitVec.extractLsb_toNat, Nat.shiftRight_eq_div_pow]
  rfl

/-- the units of a finite float in terms of its exponent and its mantissa -/
theorem units_of_unpack (b : BitVec Format.binary64.numBits) {s : Sign} {n : Nat}
    (h : Stands s (UnpackedFloat.unpack Format.binary64 b) (WithTop.some n)) :
    (unpackExponent b).toNat ≠ 2047 ∧
      ((unpackExponent b).toNat = 0 → scaled (unpackMantissa b).toNat (-1074) = n) ∧
      ((unpackExponent b).toNat ≠ 0 →
        scaled ((unpackMantissa b).toNat + 2 ^ 52) ((unpackExponent b).toNat - 1075) = n) := by
  have hfirst := toNat_append (unpackMantissa b)
  have hlast (hne : unpackExponent b ≠ -1#11) : (unpackExponent b).toNat ≠ 2047 := fun heq =>
    hne (BitVec.eq_of_toNat_eq heq)
  unfold UnpackedFloat.unpack at h
  dsimp only at h
  split at h
  · split at h <;> cases h
  · next hne =>
    refine ⟨hlast hne, fun h0 => ?_, fun h0 => ?_⟩
    · rw [if_pos (BitVec.eq_of_toNat_eq h0)] at h
      split at h
      · next hm =>
        have hmantissa : (unpackMantissa b).toNat = 0 := congrArg BitVec.toNat hm
        cases h
        rw [hmantissa, scaled, Nat.zero_mul]
      · have hexp : ((unpackExponent b).toNat : Int) -
            ((Format.exponentBias Format.binary64 : Nat) + (52 : Nat)) + 1 = -1074 := by
          rw [h0]
          rfl
        cases h
        exact congrArg _ hexp.symm
    · rw [if_neg fun heq => h0 (congrArg BitVec.toNat heq)] at h
      cases h
      rw [hfirst, Nat.add_comm]
      rfl

/-! ## values -/

/-- the exact value of a finite float has as many units as the float -/
theorem exists_ofFloat? {a : Float} {s : Sign} {n : Nat}
    (h : Stands s a.toModel.unpack (WithTop.some n)) :
    ∃ d, Dyadic.ofFloat? a = some d ∧ -1074 ≤ d.exponent ∧ scaled d.mantissa d.exponent = n := by
  obtain ⟨hlast, hzero, hpos⟩ := units_of_unpack a.toModel.toBits.toBitVec h
  rw [toNat_unpackExponent, toNat_unpackMantissa] at hzero hpos
  rw [toNat_unpackExponent] at hlast
  have hfields : a.toModel.toBits.toBitVec.toNat = a.toBits.toNat := rfl
  rw [hfields] at hlast hzero hpos
  have hread : Dyadic.ofFloat? a =
      if a.toBits.toNat / 2 ^ 52 % 2 ^ 11 == 2047 then none
      else if a.toBits.toNat / 2 ^ 52 % 2 ^ 11 == 0 then
        some ⟨a.toBits.toNat / pow2 63 == 1, a.toBits.toNat % 2 ^ 52, -1074⟩
      else some ⟨a.toBits.toNat / pow2 63 == 1, a.toBits.toNat % 2 ^ 52 + 2 ^ 52,
        ((a.toBits.toNat / 2 ^ 52 % 2 ^ 11 : Nat) : Int) - 1075⟩ := rfl
  rw [hread, if_neg (by simpa using hlast)]
  split
  · next h0 =>
    exact ⟨_, rfl, le_rfl, hzero (beq_iff_eq.1 h0)⟩
  · next h0 =>
    have hne : a.toBits.toNat / 2 ^ 52 % 2 ^ 11 ≠ 0 := fun heq => h0 (beq_iff_eq.2 heq)
    refine ⟨_, rfl, ?_, hpos hne⟩
    show (-1074 : Int) ≤ ((a.toBits.toNat / 2 ^ 52 % 2 ^ 11 : Nat) : Int) - 1075
    omega

theorem num_mul_units {d : Dyadic} (h : -1074 ≤ d.exponent) :
    d.num * units = scaled d.mantissa d.exponent * d.den := by
  have hexp : d.exponent.toNat + 2148 = (d.exponent + 2148).toNat + (-d.exponent).toNat := by omega
  calc d.num * units = d.mantissa * (2 ^ d.exponent.toNat * 2 ^ 2148) := Nat.mul_assoc _ _ _
    _ = d.mantissa * (2 ^ (d.exponent + 2148).toNat * 2 ^ (-d.exponent).toNat) := by
        rw [← pow_add, hexp, pow_add]
    _ = scaled d.mantissa d.exponent * d.den := (Nat.mul_assoc _ _ _).symm

/-- a float that is at most a whole number is rounded to at most this number -/
theorem exists_roundDiv_le {a : Float} {n b : Nat} (h : Measures a (WithTop.some n))
    (hle : n ≤ b * units) :
    ∃ d, Dyadic.ofFloat? a = some d ∧ Dyadic.roundDiv d.num d.den ≤ b := by
  obtain ⟨d, hd, hexp, rfl⟩ := exists_ofFloat? h.1
  refine ⟨d, hd, Dyadic.roundDiv_le (pow2_pos _) (Nat.le_of_mul_le_mul_right ?_ units_pos)⟩
  calc d.num * units = scaled d.mantissa d.exponent * d.den := num_mul_units hexp
    _ ≤ b * units * d.den := Nat.mul_le_mul_right _ hle
    _ = b * d.den * units := Nat.mul_right_comm _ _ _

end Floating
end Palette
