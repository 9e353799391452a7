import Palette.Proofs.Number.Exact

/-!
# Floats with a positive sign

A float with a positive sign is a number. It is zero, above zero or infinite, but it is not the
other zero. Sums and roots of such floats have a positive sign, too. Of two of them one is at most
the other, and two that are at most each other are one.

* `Floating.sign?`             the sign of a float that is a number;
* `Floating.sign?_packed`      it stays when the float is packed;
* `Floating.pack_unpack`       a number is packed into the bits that it is unpacked from;
* `Floating.Upright`           a positive sign, and what keeps it;
* `Floating.Upright.le_total`, `Floating.Upright.le_antisymm`   the order of such floats.
-/

namespace Palette
namespace Floating
open Float.Model Float.Model.UnpackedFloat

/-! ## signs -/

/-- the sign of what is a number -/
def sign? : UnpackedFloat → Option Sign
  | .notANumber => none
  | .infinity s => some s
  | .zero s => some s
  | .finite s _ _ _ => some s

theorem sign?_packComponents (s : Sign) {x : BitVec 11} (y : BitVec 52) (h : x ≠ -1#11) :
    sign? (UnpackedFloat.unpack Format.binary64 (packComponents Format.binary64 s x y)) =
      some s := by
  simp only [UnpackedFloat.unpack, unpackExponent_packComponents, unpackMantissa_packComponents,
    unpackSign_packComponents, Sign.ofBitVec_toBitVec]
  rw [if_neg h]
  split
  · split <;> rfl
  · rfl

theorem sign?_packed (z : UnpackedFloat) :
    sign? (UnpackedFloat.unpack Format.binary64 (UnpackedFloat.pack Format.binary64 z)) =
      sign? z := by
  cases z with
  | notANumber =>
    rw [UnpackedFloat.pack, unpack_packedNaN]
  | infinity s => rw [UnpackedFloat.pack, unpack_infinity]
  | zero s => rw [UnpackedFloat.pack, unpack_packedZero]
  | finite s m e hm =>
    rw [pack_finite]
    split
    · rw [unpack_infinity]
      rfl
    · next he =>
      split
      · refine sign?_packComponents s _ fun h => he ?_
        have hx := congrArg BitVec.toNat h
        rw [BitVec.toNat_ofNat] at hx
        have hlast : (-1#11 : BitVec 11).toNat = 2047 := rfl
        omega
      · exact sign?_packComponents s _ (by decide)

/-! ## bits -/

theorem toNat_unpackSign (b : BitVec Format.binary64.numBits) :
    (unpackSign b).toNat = b.toNat / 2 ^ 63 % 2 ^ 1 := by
  rw [unpackSign, BitVec.toNat_cast, BitVec.extractLsb_toNat, Nat.shiftRight_eq_div_pow]
  rfl

theorem toNat_append_lt {n k : Nat} (x : BitVec n) (y : BitVec k) :
    (x ++ y).toNat = x.toNat * 2 ^ k + y.toNat := by
  rw [BitVec.toNat_append, ← Nat.shiftLeft_add_eq_or_of_lt y.isLt, Nat.shiftLeft_eq]

/-- the bits of a float are its fields -/
theorem packComponents_unpack (b : BitVec Format.binary64.numBits) :
    packComponents Format.binary64 (Sign.ofBitVec (unpackSign b)) (unpackExponent b)
      (unpackMantissa b) = b := by
  have hsign : (Sign.ofBitVec (unpackSign b)).toBitVec = unpackSign b := by
    generalize unpackSign b = x
    revert x
    decide
  have hlt : b.toNat < 2 ^ 64 := b.isLt
  refine BitVec.eq_of_toNat_eq ?_
  rw [packComponents, hsign, toNat_append_lt, toNat_append_lt, toNat_unpackSign,
    toNat_unpackExponent, toNat_unpackMantissa]
  show (b.toNat / 2 ^ 63 % 2 ^ 1 * 2 ^ 11 + b.toNat / 2 ^ 52 % 2 ^ 11) * 2 ^ 52 +
    b.toNat % 2 ^ 52 = b.toNat
  omega

theorem pack_unpack_packComponents (s : Sign) (x : BitVec 11) (y : BitVec 52) :
    let b := packComponents Format.binary64 s x y
    (UnpackedFloat.unpack Format.binary64 b).isNaN = false →
      UnpackedFloat.pack Format.binary64 (UnpackedFloat.unpack Format.binary64 b) = b := by
  intro b h
  have hx := x.isLt
  have hy := y.isLt
  by_cases hlast : x = -1#11
  · subst hlast
    by_cases hzero : y = 0#52
    · subst hzero
      show UnpackedFloat.pack _ (UnpackedFloat.unpack _ (packedInfinity _ s)) = packedInfinity _ s
      rw [unpack_infinity, UnpackedFloat.pack]
    · simp only [b, UnpackedFloat.unpack, unpackExponent_packComponents,
        unpackMantissa_packComponents, if_neg hzero] at h
      exact Bool.noConfusion h
  · by_cases hfirst : x = 0#11
    · subst hfirst
      by_cases hzero : y = 0#52
      · subst hzero
        show UnpackedFloat.pack _ (UnpackedFloat.unpack _ (packedZero _ s)) = packedZero _ s
        rw [unpack_packedZero, UnpackedFloat.pack]
      · have hpos : 0 < y.toNat := Nat.pos_of_ne_zero fun h => hzero (BitVec.eq_of_toNat_eq h)
        rw [unpack_subnormal s hzero hpos, pack_finite, if_neg (by decide),
          if_neg ((Nat.log2_lt hpos.ne').2 hy).ne, BitVec.ofNat_toNat, BitVec.setWidth_eq]
    · have hne : x.toNat ≠ 2047 := fun h => hlast (BitVec.eq_of_toNat_eq h)
      have hm := toNat_append y
      have hlog : (1#1 ++ y).toNat.log2 = 52 := (Nat.log2_eq_iff (by omega)).2 (by omega)
      have hmantissa : BitVec.ofNat 52 (1#1 ++ y).toNat = y := by
        refine BitVec.eq_of_toNat_eq ?_
        rw [BitVec.toNat_ofNat, hm]
        omega
      have hexponent : BitVec.ofNat 11 ((x.toNat : Int) - 1075 + 1075).toNat = x := by
        rw [Int.sub_add_cancel, Int.toNat_natCast, BitVec.ofNat_toNat, BitVec.setWidth_eq]
      rw [unpack_normal s y hlast hfirst (by omega), pack_finite, if_neg (by omega), if_pos hlog,
        hmantissa, hexponent]

/-- a number is packed into the bits that it is unpacked from -/
theorem pack_unpack (b : BitVec Format.binary64.numBits)
    (h : (UnpackedFloat.unpack Format.binary64 b).isNaN = false) :
    UnpackedFloat.pack Format.binary64 (UnpackedFloat.unpack Format.binary64 b) = b := by
  have hb := packComponents_unpack b
  rw [← hb] at h ⊢
  exact pack_unpack_packComponents _ _ _ h

/-- numbers that are unpacked alike are one -/
theorem eq_of_unpack_eq {a b : Float} (ha : a.isNaN = false)
    (h : a.toModel.unpack = b.toModel.unpack) : a = b := by
  have hb : b.toModel.unpack.isNaN = false := h ▸ ha
  obtain ⟨⟨⟨x⟩, _⟩⟩ := a
  obtain ⟨⟨⟨y⟩, _⟩⟩ := b
  have hxy : x = y := by
    rw [← pack_unpack x ha, ← pack_unpack y hb]
    exact congrArg _ h
  subst hxy
  rfl

/-! ## floats with a positive sign -/

/-- has a float a positive sign? -/
def Upright (a : Float) : Prop := sign? a.toModel.unpack = some .positive

theorem sign?_roundWithAccuracy (s : Sign) (m : Nat) (e : Int) (c : Accuracy) :
    sign? (roundWithAccuracy Format.binary64 s m e c) = some s := by
  rw [roundWithAccuracy]
  dsimp only
  split <;> rfl

/-- what is above zero is rounded to what has a positive sign -/
theorem sign?_normalize {m : Int} (hm : 0 < m) (e : Int) (s : Sign) :
    sign? (UnpackedFloat.normalize Format.binary64 m e s) = some .positive := by
  rw [UnpackedFloat.normalize, compare_gt_iff_gt.2 hm]
  exact sign?_roundWithAccuracy _ _ _ _

theorem sign?_add {x y : UnpackedFloat} (hx : sign? x = some .positive)
    (hy : sign? y = some .positive) :
    sign? (UnpackedFloat.add Format.binary64 x y) = some .positive := by
  cases x with
  | notANumber => cases hx
  | infinity s =>
    obtain rfl := Option.some.inj hx
    cases y with
    | notANumber => cases hy
    | infinity t =>
      obtain rfl := Option.some.inj hy
      rfl
    | _ => rfl
  | zero s =>
    obtain rfl := Option.some.inj hx
    cases y with
    | notANumber => cases hy
    | zero t =>
      obtain rfl := Option.some.inj hy
      rfl
    | _ => exact hy
  | finite s m e hm =>
    obtain rfl := Option.some.inj hx
    cases y with
    | notANumber => cases hy
    | infinity t => exact hy
    | zero t => rfl
    | finite t n f hn =>
      obtain rfl := Option.some.inj hy
      have hpos {i : Nat} (hi : 0 < i) (j : Nat) : 0 < i <<< j := by
        rw [Nat.shiftLeft_eq]
        exact Nat.mul_pos hi (Nat.two_pow_pos j)
      refine sign?_normalize (Int.add_pos ?_ ?_) _ _
      · exact Int.natCast_pos.2 (hpos hm _)
      · exact Int.natCast_pos.2 (hpos hn _)

theorem sign?_sqrt {x : UnpackedFloat} (hx : sign? x = some .positive) :
    sign? (UnpackedFloat.sqrt Format.binary64 x) = some .positive := by
  cases x with
  | notANumber => cases hx
  | zero s => exact hx
  | infinity s =>
    obtain rfl := Option.some.inj hx
    rfl
  | finite s m e hm =>
    obtain rfl := Option.some.inj hx
    exact sign?_roundWithAccuracy _ _ _ _

/-- a factor above zero keeps the sign -/
theorem sign?_mul (m : Nat) (e : Int) (hm : 0 < m) (y : UnpackedFloat) :
    sign? (UnpackedFloat.mul Format.binary64 (.finite .positive m e hm) y) = sign? y := by
  cases y with
  | notANumber => rfl
  | infinity s => exact congrArg some (positive_mul s)
  | zero s => exact congrArg some (positive_mul s)
  | finite s n f hn =>
    refine (sign?_roundWithAccuracy _ _ _ _).trans ?_
    exact congrArg some (positive_mul s)

theorem sign?_of_lt {x : UnpackedFloat} (h : (UnpackedFloat.zero .positive).lt x = true) :
    sign? x = some .positive := by
  rcases x with (_ | _) | _ | _ | ⟨_ | _, m, e, hm⟩ <;>
    simp [UnpackedFloat.lt, UnpackedFloat.compare, sign?] at h ⊢

theorem le_of_sign? {x : UnpackedFloat} (h : sign? x = some .positive) :
    (UnpackedFloat.zero .positive).le x = true := by
  rcases x with (_ | _) | _ | _ | ⟨_ | _, m, e, hm⟩ <;>
    simp [UnpackedFloat.le, UnpackedFloat.compare, sign?] at h ⊢

theorem unpacked_antisymm {x y : UnpackedFloat} (hx : sign? x = some .positive)
    (hy : sign? y = some .positive) (h : x.le y = true) (h' : y.le x = true) : x = y := by
  rcases x with s | _ | s | ⟨s, m, e, hm⟩ <;> cases hx <;>
    rcases y with t | _ | t | ⟨t, n, f, hn⟩ <;> cases hy <;>
    simp [UnpackedFloat.le, UnpackedFloat.compare, isLE_then] at h h' ⊢
  omega

namespace Upright
variable {a b : Float}

theorem add (ha : Upright a) (hb : Upright b) : Upright (a + b) :=
  (sign?_packed _).trans (sign?_add ha hb)

theorem sqrt (ha : Upright a) : Upright a.sqrt := (sign?_packed _).trans (sign?_sqrt ha)

theorem isNaN (ha : Upright a) : a.isNaN = false := by
  show a.toModel.unpack.isNaN = false
  rw [Upright] at ha
  cases hu : a.toModel.unpack with
  | notANumber =>
    rw [hu] at ha
    cases ha
  | _ => rfl

theorem zero : Upright 0.0 := rfl

theorem of_lt (h : 0.0 < a) : Upright a := sign?_of_lt (decide_eq_true_iff.1 h)

theorem mul {c : Float} (hc : 0.0 < c) (hc' : c.isFinite = true) (ha : Upright a) :
    Upright (c * a) := by
  have hsign : sign? c.toModel.unpack = some .positive := of_lt hc
  have hfinite : c.toModel.unpack.isFinite = true := hc'
  have hlt : (UnpackedFloat.zero .positive).lt c.toModel.unpack = true := decide_eq_true_iff.1 hc
  refine (sign?_packed _).trans ?_
  revert hsign hfinite hlt
  generalize c.toModel.unpack = x
  intro hsign hfinite hlt
  cases x with
  | notANumber => cases hsign
  | infinity s => cases hfinite
  | zero s => cases s <;> cases hlt
  | finite s m e hm =>
    obtain rfl := Option.some.inj hsign
    exact (sign?_mul m e hm _).trans ha

theorem nonneg (ha : Upright a) : 0.0 ≤ a := decide_eq_true_iff.2 (le_of_sign? ha)

theorem total (ha : Upright a) (hb : Upright b) : a ≤ b ∨ b ≤ a :=
  Scale.total ha.nonneg hb.nonneg

theorem antisymm (ha : Upright a) (hb : Upright b) (h : a ≤ b) (h' : b ≤ a) : a = b :=
  eq_of_unpack_eq ha.isNaN
    (unpacked_antisymm ha hb (decide_eq_true_iff.1 h) (decide_eq_true_iff.1 h'))

end Upright

end Floating
end Palette
