import Palette.Proofs.Number.Difference

/-!
# The range of floats

A whole number that is too large becomes infinite, and all others are finite floats. A product of
finite floats stays finite if one factor is at most one.

* `Floating.tooLarge`        the least whole number that is too large;
* `Floating.isInf_toFloat_iff`   whole numbers beyond the range of floats;
* `Floating.isFinite_mul`    products with a factor that is at most one.
-/

namespace Palette
namespace Floating
open Float.Model Float.Model.UnpackedFloat

/-! ## finite floats -/

section
variable {s : Sign} {x y : UnpackedFloat} {n : WithTop Nat}

theorem Stands.isInf_iff (h : Stands s x n) : x.isInf = true ↔ n = ⊤ := by
  cases h with
  | zero => exact iff_of_false (fun h => nomatch h) WithTop.coe_ne_top
  | finite => exact iff_of_false (fun h => nomatch h) WithTop.coe_ne_top
  | infinity => exact iff_of_true rfl rfl

theorem Stands.isFinite_iff (h : Stands s x n) : x.isFinite = true ↔ n ≠ ⊤ := by
  cases h with
  | zero => exact iff_of_true rfl WithTop.coe_ne_top
  | finite => exact iff_of_true rfl WithTop.coe_ne_top
  | infinity => exact iff_of_false (fun h => nomatch h) fun h => h rfl

theorem isInf_of_isFinite {a : Float} (h : a.isFinite = true) : a.isInf = false := by
  obtain ⟨s, n, hn, _⟩ := exists_units h
  exact Bool.eq_false_iff.2 fun hinf => WithTop.coe_ne_top (hn.isInf_iff.1 hinf)

theorem Stands.neg (h : Stands s x n) : Stands (-s) x.neg n := by
  cases h with
  | zero t => exact .zero _
  | finite hm h => exact .finite hm h
  | infinity => exact .infinity

end

/-! ## products -/

theorem sign_mul_comm (s t : Sign) : s * t = t * s := by cases s <;> cases t <;> rfl

theorem unpacked_mul_comm (x y : UnpackedFloat) :
    UnpackedFloat.mul Format.binary64 x y = UnpackedFloat.mul Format.binary64 y x := by
  cases x <;> cases y <;>
    simp only [UnpackedFloat.mul, sign_mul_comm, Nat.mul_comm, Int.add_comm]

theorem mul_comm (a b : Float) : a * b = b * a :=
  congrArg (fun x => Float.ofModel (Float.Model.pack x)) (unpacked_mul_comm _ _)

theorem isFinite_mul {a c : Float} (ha : a.isFinite = true) (hc : 0.0 < c) (hc' : c ≤ 1.0) :
    (a * c).isFinite = true := by
  obtain ⟨s, n, hn, hlt⟩ := exists_units ha
  obtain ⟨k, hk, hpos, hle⟩ := exists_factor hc hc'
  have hproduct : product k (WithTop.some n) ≤ WithTop.some n := product_le hle _
  have hrounded : (product k (WithTop.some n)).map rounded ≤ WithTop.some n :=
    calc (product k (WithTop.some n)).map rounded
        ≤ (WithTop.some n).map rounded :=
          WithTop.monotone_map_iff.2 (fun _ _ => rounded_mono) hproduct
      _ = WithTop.some n := hn.map_rounded
  rw [mul_comm]
  -- the other factor is a float, so a product below it is not rounded to anything above it
  refine ((hk.1.mul hpos hn).packed.isFinite_iff).2 ?_
  rw [capped, if_pos (hrounded.trans_lt (WithTop.coe_lt_coe.2 hlt))]
  exact WithTop.coe_ne_top

/-! ## whole numbers -/

theorem stands_ofNat (n : Nat) :
    Stands .positive (UnpackedFloat.ofNat Format.binary64 n)
      (WithTop.some (rounded (scaled n 0))) := by
  obtain ⟨hpos, hzero, _⟩ := stands_normalize (m := n) (e := 0) (by decide) .positive
  rw [UnpackedFloat.ofNat, UnpackedFloat.ofInt]
  rcases Nat.eq_zero_or_pos n with rfl | hn
  · rw [hzero rfl, scaled, Nat.zero_mul, rounded_zero]
    exact .zero _
  · exact hpos (by omega)

/-- a whole number of few digits is scaled by one -/
theorem ofNat_of_lt {n : Nat} (h : n < 2 ^ 53) : Float.ofNat n = n.toUInt64.toFloat * 1.0 :=
  dif_pos ⟨h, by decide⟩

/-- any other one is rounded from its digits -/
theorem ofNat_of_le {n : Nat} (h : 2 ^ 53 ≤ n) :
    Float.ofNat n = .ofModel (Float.Model.pack (UnpackedFloat.ofScientific Format.binary64 n 0)) :=
  dif_neg fun hlt => absurd hlt.1 (Nat.not_lt.2 h)

theorem product_units (n : WithTop Nat) : product units n = n := by
  cases n with
  | top => rfl
  | coe n => exact congrArg WithTop.some (Nat.mul_div_cancel_left n units_pos)

theorem ofScientific_eq {n : Nat} (hn : 0 < n) :
    UnpackedFloat.ofScientific Format.binary64 n 0 =
      roundWithAccuracy Format.binary64 .positive (n <<< 53) (-53) .exact := by
  have hbits : Format.binary64.mantissaBits = 53 := rfl
  have hsmall : ¬(0 : Int) < -((2 : Int) ^ Format.binary64.exponentBits + n.log2) := by
    show ¬(0 : Int) < -((2 : Int) ^ 11 + n.log2)
    omega
  rw [UnpackedFloat.ofScientific, dif_neg hn.ne', if_neg (by decide), if_neg hsmall,
    if_pos (le_refl _)]
  dsimp only [UnpackedFloat.mul]
  rw [hbits, Int.toNat_zero, pow_zero, Nat.mul_one, Int.add_zero, positive_mul]
  rfl

theorem stands_ofScientific {n : Nat} (hn : 0 < n) :
    Stands .positive (UnpackedFloat.ofScientific Format.binary64 n 0)
      (WithTop.some (rounded (scaled n 0))) := by
  have hpos : 0 < n <<< 53 := by
    rw [Nat.shiftLeft_eq]
    positivity
  have hscaled : scaled (n <<< 53) (0 - (53 : Nat)) = scaled n 0 :=
    scaled_shiftLeft n 53 (by decide)
  rw [ofScientific_eq hn, ← hscaled]
  refine stands_roundWithAccuracy .positive hpos (by decide) ?_
  rw [targetExponent_eq, Nat.shiftLeft_eq, log2_mul_two_pow hn.ne']
  omega

theorem measures_toFloat (w : UInt64) :
    Measures w.toFloat (Floating.settled (WithTop.some (scaled w.toNat 0))) :=
  ⟨(stands_ofNat w.toNat).packed, capped_capped _⟩

theorem measures_ofNat (n : Nat) :
    Measures (Float.ofNat n) (Floating.settled (WithTop.some (scaled n 0))) := by
  rcases Nat.lt_or_ge n (2 ^ 53) with h | h
  · have hnat : n.toUInt64.toNat = n := by
      rw [Nat.toUInt64, UInt64.toNat_ofNat', Nat.mod_eq_of_lt (by omega)]
    have hword := measures_toFloat n.toUInt64
    rw [hnat] at hword
    have hmul := measures_one.mul units_pos hword
    rw [product_units, hword.settled] at hmul
    rw [ofNat_of_lt h, mul_comm]
    exact hmul
  · rw [ofNat_of_le h]
    exact ⟨(stands_ofScientific (by omega)).packed, capped_capped _⟩

/-- the least whole number that is too large for a float: halfway between the largest float and the
power of two that floats do not reach, since what is halfway is rounded to the latter -/
def tooLarge : Nat := 2 ^ 1024 - 2 ^ 970

theorem settled_eq_top_iff (n : Nat) :
    Floating.settled (WithTop.some (scaled n 0)) = ⊤ ↔ tooLarge ≤ n := by
  have hscaled : Monotone fun n => scaled n 0 := fun _ _ h => Nat.mul_le_mul_right _ h
  have hlast : rounded (scaled (tooLarge - 1) 0) < limit := by decide +kernel
  have hfirst : limit ≤ rounded (scaled tooLarge 0) := by decide +kernel
  rw [Floating.settled, WithTop.map_coe]
  constructor
  · intro h
    by_contra hlt
    have hle : n ≤ tooLarge - 1 := by omega
    rw [capped_of_lt ((rounded_mono (hscaled hle)).trans_lt hlast)] at h
    exact WithTop.coe_ne_top h
  · intro h
    exact capped_of_le (hfirst.trans (rounded_mono (hscaled h)))

/-- a whole number has a sign and a number of units -/
theorem exists_stands_toFloat (n : Int) :
    ∃ s, Stands s (Dyadic.toFloat n).toModel.unpack
      (Floating.settled (WithTop.some (scaled n.natAbs 0))) := by
  cases n with
  | ofNat n => exact ⟨.positive, (measures_ofNat n).1⟩
  | negSucc n =>
    have h := (measures_ofNat (n + 1)).1.neg.packed
    have hcapped := (measures_ofNat (n + 1)).2
    rw [hcapped] at h
    exact ⟨-.positive, h⟩

/-- A whole number becomes infinite exactly if it is too large, on either side of zero. -/
theorem isInf_toFloat_iff (n : Int) :
    (Dyadic.toFloat n).isInf = true ↔ tooLarge ≤ n.natAbs := by
  obtain ⟨s, hs⟩ := exists_stands_toFloat n
  rw [← settled_eq_top_iff]
  exact hs.isInf_iff

theorem isFinite_toFloat_iff (n : Int) :
    (Dyadic.toFloat n).isFinite = true ↔ n.natAbs < tooLarge := by
  obtain ⟨s, hs⟩ := exists_stands_toFloat n
  rw [← not_le, ← settled_eq_top_iff]
  exact hs.isFinite_iff

end Floating
end Palette
