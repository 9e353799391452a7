import Palette.Proofs.Number.Order
import Palette.Proofs.Number.Rounding

/-!
# What is packed

A float is packed into bits after each operation. What has the digits of floats comes back, unless
it is too large; then it has become infinite.

* `Floating.capped`          a number of units, or infinity where it is too large;
* `Floating.Stands.packed`   what comes back;
* `Floating.exists_stands`   every float but what is no number has a sign and a number of units.
-/

namespace Palette
namespace Floating
open Float.Model Float.Model.UnpackedFloat

/-! ## bits -/

theorem unpack_infinity (s : Sign) :
    UnpackedFloat.unpack Format.binary64 (packedInfinity Format.binary64 s) = .infinity s := by
  simp only [UnpackedFloat.unpack, packedInfinity, unpackExponent_packComponents,
    unpackMantissa_packComponents, unpackSign_packComponents, Sign.ofBitVec_toBitVec]
  rw [if_pos trivial]
  rfl

theorem unpack_normal (s : Sign) {x : BitVec 11} (y : BitVec 52) (h : x ≠ -1#11) (h' : x ≠ 0#11)
    (hpos : 0 < (1#1 ++ y).toNat) :
    UnpackedFloat.unpack Format.binary64 (packComponents Format.binary64 s x y) =
      .finite s (1#1 ++ y).toNat (x.toNat - 1075) hpos := by
  simp only [UnpackedFloat.unpack, unpackExponent_packComponents, unpackMantissa_packComponents,
    unpackSign_packComponents, Sign.ofBitVec_toBitVec]
  rw [if_neg h, if_neg h']
  rfl

theorem unpack_subnormal (s : Sign) {y : BitVec 52} (h : y ≠ 0#52) (hpos : 0 < y.toNat) :
    UnpackedFloat.unpack Format.binary64 (packComponents Format.binary64 s 0#11 y) =
      .finite s y.toNat (-1074) hpos := by
  have hne : (0#11 : BitVec 11) ≠ -1#11 := by decide
  simp only [UnpackedFloat.unpack, unpackExponent_packComponents, unpackMantissa_packComponents,
    unpackSign_packComponents, Sign.ofBitVec_toBitVec]
  rw [if_neg hne, if_pos trivial, dif_neg h]
  rfl

/-- the first digit of a mantissa is left out of its bits -/
theorem toNat_append (y : BitVec 52) : (1#1 ++ y).toNat = 2 ^ 52 + y.toNat := by
  rw [BitVec.toNat_append, ← Nat.shiftLeft_add_eq_or_of_lt y.isLt, Nat.shiftLeft_eq]
  rfl

theorem toNat_append_ofNat {m : Nat} (hm : m < 2 ^ 53) (h : 2 ^ 52 ≤ m) :
    (1#1 ++ BitVec.ofNat 52 m).toNat = m := by
  rw [toNat_append, BitVec.toNat_ofNat, Nat.mod_eq_sub_mod h, Nat.mod_eq_of_lt (by omega)]
  omega

theorem pack_finite (s : Sign) {m : Nat} {e : Int} (hm : 0 < m) :
    UnpackedFloat.pack Format.binary64 (.finite s m e hm) =
      if 2 ^ 11 ≤ (e + 1075).toNat + 1 then packedInfinity Format.binary64 s
      else if m.log2 = 52 then
        packComponents Format.binary64 s (BitVec.ofNat 11 (e + 1075).toNat) (BitVec.ofNat 52 m)
      else packComponents Format.binary64 s 0#11 (BitVec.ofNat 52 m) := by
  have hbias : e + (Format.exponentBias Format.binary64 : Nat) + (52 : Nat) = e + 1075 := by
    show e + (1023 : Nat) + (52 : Nat) = _
    omega
  have hbits : m.log2 + 1 = Format.mantissaBits Format.binary64 ↔ m.log2 = 52 := by
    show m.log2 + 1 = 1 + 52 ↔ _
    omega
  simp only [UnpackedFloat.pack, hbias, hbits]

theorem unpack_pack_of_le (s : Sign) {m : Nat} {e : Int} (hm : 0 < m) (h : Canonical m e)
    (he : e ≤ 971) :
    UnpackedFloat.unpack Format.binary64 (UnpackedFloat.pack Format.binary64 (.finite s m e hm)) =
      .finite s m e hm := by
  obtain ⟨hlt, hmin, hnormal⟩ := h
  rw [pack_finite, if_neg (by omega)]
  by_cases hfirst : 2 ^ 52 ≤ m
  · have hb : (BitVec.ofNat 11 (e + 1075).toNat).toNat = (e + 1075).toNat := by
      rw [BitVec.toNat_ofNat, Nat.mod_eq_of_lt (by omega)]
    have hne (x : BitVec 11) (hx : x.toNat = 0 ∨ x.toNat = 2047) :
        BitVec.ofNat 11 (e + 1075).toNat ≠ x := by
      rintro rfl
      rw [hb] at hx
      omega
    have hm' := toNat_append_ofNat hlt hfirst
    rw [if_pos ((Nat.log2_eq_iff hm.ne').2 ⟨hfirst, hlt⟩),
      unpack_normal s _ (hne _ (.inr rfl)) (hne _ (.inl rfl)) (hm'.symm ▸ hm)]
    congr 1
    rw [hb]
    omega
  · have hsmall : m < 2 ^ 52 := not_le.1 hfirst
    have hlog : m.log2 ≠ 52 := ((Nat.log2_lt hm.ne').2 hsmall).ne
    have hm' : (BitVec.ofNat 52 m).toNat = m := by
      rw [BitVec.toNat_ofNat, Nat.mod_eq_of_lt hsmall]
    have hne : BitVec.ofNat 52 m ≠ 0#52 := by
      intro h
      rw [h] at hm'
      exact hm.ne hm'
    rw [if_neg hlog, unpack_subnormal s hne (hm'.symm ▸ hm)]
    congr 1
    exact (hnormal.resolve_left hfirst).symm

theorem unpack_pack_of_lt (s : Sign) {m : Nat} {e : Int} (hm : 0 < m) (he : 971 < e) :
    UnpackedFloat.unpack Format.binary64 (UnpackedFloat.pack Format.binary64 (.finite s m e hm)) =
      .infinity s := by
  rw [pack_finite, if_pos (by omega), unpack_infinity]

/-! ## units -/

/-- so many units are too many -/
def limit : Nat := 2 ^ (1024 + 2148)

/-- a number of units, or infinity where it is too large -/
def capped (n : WithTop Nat) : WithTop Nat := if n < WithTop.some limit then n else ⊤

theorem capped_of_lt {n : Nat} (h : n < limit) : capped (WithTop.some n) = WithTop.some n :=
  if_pos (WithTop.coe_lt_coe.2 h)

theorem capped_of_le {n : Nat} (h : limit ≤ n) : capped (WithTop.some n) = ⊤ :=
  if_neg fun hlt => h.not_gt (WithTop.coe_lt_coe.1 hlt)

theorem capped_mono : Monotone capped := by
  intro n k h
  rw [capped, capped]
  split
  · next hn =>
    split
    · exact h
    · exact le_top
  · next hn => rw [if_neg fun hk => hn (h.trans_lt hk)]

theorem limit_eq {a b : Nat} (h : a + b = 1024 + 2148) : limit = 2 ^ a * 2 ^ b := by
  rw [limit, ← h, pow_add]

theorem limit_pos : 0 < limit := by
  rw [limit]
  positivity

theorem Canonical.limit_le_iff {m : Nat} {e : Int} (h : Canonical m e) :
    limit ≤ scaled m e ↔ 971 < e := by
  have hmin := h.min
  have hpow {j k : Nat} (hjk : j ≤ k) : 2 ^ j ≤ 2 ^ k := Nat.pow_le_pow_right (by decide) hjk
  constructor
  · intro hle
    by_contra hgt
    rw [limit_eq (a := 53) (b := 3119) rfl] at hle
    exact hle.not_gt (Nat.mul_lt_mul_of_lt_of_le h.lt (hpow (by omega)) (by positivity))
  · intro hlt
    rw [limit_eq (a := 52) (b := 3120) rfl]
    exact Nat.mul_le_mul (h.normal.resolve_right (by omega)) (hpow (by omega))

/-- what comes back of a float that is packed -/
theorem Stands.packed {s : Sign} {x : UnpackedFloat} {n : WithTop Nat} (h : Stands s x n) :
    Stands s (UnpackedFloat.unpack Format.binary64 (UnpackedFloat.pack Format.binary64 x))
      (capped n) := by
  cases h with
  | zero t =>
    rw [capped_of_lt limit_pos, UnpackedFloat.pack, unpack_packedZero]
    exact .zero t
  | infinity =>
    rw [capped, if_neg not_top_lt, UnpackedFloat.pack, unpack_infinity]
    exact .infinity
  | @finite m e hm h =>
    rcases Nat.lt_or_ge (scaled m e) limit with hlt | hge
    · have he : e ≤ 971 := not_lt.1 fun he => hlt.not_ge (h.limit_le_iff.2 he)
      rw [capped_of_lt hlt, unpack_pack_of_le s hm h he]
      exact .finite hm h
    · rw [capped_of_le hge, unpack_pack_of_lt s hm (h.limit_le_iff.1 hge)]
      exact .infinity

/-! ## the units of a float -/

theorem exists_stands_unpack (b : BitVec Format.binary64.numBits) :
    (UnpackedFloat.unpack Format.binary64 b).isNaN = false →
      ∃ s n, Stands s (UnpackedFloat.unpack Format.binary64 b) n ∧ capped n = n := by
  have hm : (unpackMantissa b).toNat < 2 ^ 52 :=
    (unpackMantissa b).isLt
  have hx : (unpackExponent b).toNat < 2 ^ 11 :=
    (unpackExponent b).isLt
  have hfinite (s : Sign) {m : Nat} {e : Int} (hm : 0 < m) (h : Canonical m e) (he : e ≤ 971) :
      ∃ s' n, Stands s' (.finite s m e hm) n ∧ capped n = n :=
    ⟨s, _, .finite hm h, capped_of_lt (not_le.1 fun hle => (h.limit_le_iff.1 hle).not_ge he)⟩
  have hfirst := toNat_append (unpackMantissa b)
  unfold UnpackedFloat.unpack
  dsimp only
  split
  · split
    · exact fun _ => ⟨_, _, .infinity, if_neg not_top_lt⟩
    · exact fun h => Bool.noConfusion h
  · next hne =>
    split
    · next h0 =>
      split
      · exact fun _ => ⟨.positive, _, .zero _, capped_of_lt limit_pos⟩
      · refine fun _ => hfinite _ _ ⟨hm.trans (by decide), ?_, .inr ?_⟩ ?_
        · rw [h0]
          decide
        · rw [h0]
          rfl
        · rw [h0]
          decide
    · next h0 =>
      have hpos := BitVec.toNat_pos_of_ne_zero h0
      have hlt : (unpackExponent b).toNat ≠ 2047 := fun h =>
        hne (BitVec.eq_of_toNat_eq h)
      have hexp : ((unpackExponent b).toNat : Int) -
          ((Format.exponentBias Format.binary64 : Nat) + (52 : Nat)) =
          (unpackExponent b).toNat - 1075 := rfl
      refine fun _ => hfinite _ _ ⟨?_, ?_, .inl ?_⟩ ?_
      · show (1#1 ++ unpackMantissa b).toNat < _
        omega
      · rw [hexp]
        omega
      · show _ ≤ (1#1 ++ unpackMantissa b).toNat
        omega
      · rw [hexp]
        omega

/-- every float but what is no number has a sign and a number of units, which are not too many -/
theorem exists_stands {a : Float} (h : a.isNaN = false) :
    ∃ s n, Stands s a.toModel.unpack n ∧ capped n = n :=
  exists_stands_unpack a.toModel.toBits.toBitVec h

end Floating
end Palette
