import Palette.Color.Oklab
import Palette.Proofs.Number.Bounded
import Palette.Proofs.Number.Upright

/-!
# Distances of colors

How far apart two colors are is computed with powers and roots of floats, and of powers only a few
facts are taken for granted: a square does not look at the sign and is not below zero, and the
exponents of light and of cone responses keep bounded numbers bounded. All the rest is sums,
products and differences of floats that are not too large. So a distance is a number that is not
below zero, it is the same the other way round, and distances are in a linear order.

* `Light.Powers`       what is taken for granted, and `Light.exists_powers` that it can be;
* `Hex.within_oklab`   the coordinates of a color are bounded;
* `Hex.upright_distance`, `Hex.distance_comm`   distances.
-/

namespace Palette
open Floating

/-- what is taken for granted about powers -/
structure Light.Powers (raised : Float → Float → Float) : Prop where
  /-- a square does not look at the sign -/
  even : ∀ x, x.isFinite = true → raised (-x) 2.0 = raised x 2.0
  /-- a square is zero or above it -/
  square : ∀ x, x.isFinite = true → raised x 2.0 = 0.0 ∨ 0.0 < raised x 2.0
  /-- light of a channel between zero and one is between zero and one -/
  light : ∀ x, 0.0 ≤ x → x ≤ 1.0 → 0.0 ≤ raised x 2.4 ∧ raised x 2.4 ≤ 1.0
  /-- a cube root is not above the bound of its argument -/
  root : ∀ x, 0.0 ≤ x → x ≤ 16.0 → 0.0 ≤ raised x (1.0 / 3.0) ∧ raised x (1.0 / 3.0) ≤ 16.0

/-- these facts do not contradict one another -/
theorem Light.exists_powers : ∃ raised, Powers raised := by
  have htwo : ((2.0 : Float) == 2.0) = true := by decide
  have hlight : ((2.4 : Float) == 2.0) = false := by decide
  have hroot : ((1.0 / 3.0 : Float) == 2.0) = false := by decide
  refine ⟨fun x y => if y == 2.0 then 0.0 else x, ?_, ?_, ?_, ?_⟩
  · intro x _
    rw [htwo]
    rfl
  · intro x _
    rw [htwo]
    exact .inl rfl
  · intro x hzero hone
    rw [hlight]
    exact ⟨hzero, hone⟩
  · intro x hzero hbound
    rw [hroot]
    exact ⟨hzero, hbound⟩

/-! ## bounded coordinates -/

/-- are all coordinates bounded? -/
structure Triple.Within (j : Nat) (v : Triple) : Prop where
  x : Floating.Within j v.x
  y : Floating.Within j v.y
  z : Floating.Within j v.z

instance (j : Nat) (v : Triple) : Decidable (v.Within j) :=
  decidable_of_iff (Floating.Within j v.x ∧ Floating.Within j v.y ∧ Floating.Within j v.z)
    ⟨fun ⟨x, y, z⟩ => ⟨x, y, z⟩, fun ⟨x, y, z⟩ => ⟨x, y, z⟩⟩

/-- are all entries of a linear map bounded? -/
structure Matrix.Within (j : Nat) (m : Matrix) : Prop where
  first : m.first.Within j
  second : m.second.Within j
  third : m.third.Within j

instance (j : Nat) (m : Matrix) : Decidable (m.Within j) :=
  decidable_of_iff (m.first.Within j ∧ m.second.Within j ∧ m.third.Within j)
    ⟨fun ⟨x, y, z⟩ => ⟨x, y, z⟩, fun ⟨x, y, z⟩ => ⟨x, y, z⟩⟩

section
variable {i j : Nat} {u v : Triple} {m : Matrix}

theorem Triple.Within.dot (hu : u.Within i) (hv : v.Within j) (h : i + j + 2 < 1024) :
    Floating.Within (i + j + 2) (u.dot v) := by
  have hx := hu.x.mul hv.x (by omega)
  have hy := hu.y.mul hv.y (by omega)
  have hz := hu.z.mul hv.z (by omega)
  exact (hx.add hy (by omega)).add (hz.mono (by omega)) h

theorem Matrix.Within.apply (hm : m.Within i) (hv : v.Within j) (h : i + j + 2 < 1024) :
    (m.apply v).Within (i + j + 2) :=
  ⟨hm.first.dot hv h, hm.second.dot hv h, hm.third.dot hv h⟩

end

/-! ## the coordinates of a color -/

section
variable (hp : Light.Powers Light.raised)

namespace Light

/-- the numbers that stand for the light of a channel are between zero and one -/
theorem channel_bounds : ∀ b : Fin 256,
    let c := channel (UInt8.ofNat b)
    if c ≤ 0.04045 then 0.0 ≤ c / 12.92 ∧ c / 12.92 ≤ 1.0
    else 0.0 ≤ (c + 0.055) / 1.055 ∧ (c + 0.055) / 1.055 ≤ 1.0 := by decide +kernel

include hp

theorem within_linearize (b : UInt8) : Within 0 (linearize (channel b)) := by
  have hbounds := channel_bounds ⟨b.toNat, b.toNat_lt⟩
  rw [UInt8.ofNat_toNat] at hbounds
  dsimp only at hbounds
  have hone : Within 0 1.0 := by decide +kernel
  rw [linearize]
  split at hbounds
  · next hle =>
    rw [if_pos hle]
    exact within_of_le hbounds.1 hbounds.2 hone
  · next hle =>
    rw [if_neg hle]
    obtain ⟨hzero, hle⟩ := hp.light _ hbounds.1 hbounds.2
    exact within_of_le hzero hle hone

end Light

include hp

theorem Oklab.within_cubeRoot {v : Float} (hv : Within 4 v) : Within 4 (cubeRoot v) := by
  have hsixteen : Within 4 16.0 ∧ value 16.0 = (2 ^ 4 * units : Nat) := by decide +kernel
  obtain ⟨hzero, hle⟩ := hv.abs (by decide) hsixteen.1.1 hsixteen.2
  obtain ⟨hzero, hle⟩ := hp.root _ hzero hle
  have hroot := within_of_le hzero hle hsixteen.1
  rw [cubeRoot]
  split
  · exact hroot.neg (by decide)
  · exact hroot

theorem Hex.within_linear (h : Hex) : h.linear.Within 0 :=
  ⟨Light.within_linearize hp _, Light.within_linearize hp _, Light.within_linearize hp _⟩

theorem Hex.within_oklab (h : Hex) : h.oklab.Within 8 := by
  have hxyz : Oklab.linearToXyz.Within 0 := by decide +kernel
  have hcones : Oklab.xyzToCones.Within 0 := by decide +kernel
  have hlab : Oklab.rootsToLab.Within 2 := by decide +kernel
  have hv := hcones.apply (hxyz.apply (h.within_linear hp) (by decide)) (by decide)
  have hroots : (Triple.map Oklab.cubeRoot
      (Oklab.xyzToCones.apply (Oklab.linearToXyz.apply h.linear))).Within 4 :=
    ⟨Oklab.within_cubeRoot hp hv.x, Oklab.within_cubeRoot hp hv.y, Oklab.within_cubeRoot hp hv.z⟩
  exact hlab.apply hroots (by decide)

/-! ## distances -/

theorem Light.upright_square {x : Float} (hx : x.isFinite = true) : Upright (raised x 2.0) := by
  rcases hp.square x hx with h | h
  · rw [h]
    exact Upright.zero
  · exact Upright.of_lt h

/-- a distance is a number with a positive sign -/
theorem Hex.upright_distance (a b : Hex) : Upright (distance a b) := by
  have ha := a.within_oklab hp
  have hb := b.within_oklab hp
  have hx := Light.upright_square hp (ha.x.sub hb.x (by decide)).1
  have hy := Light.upright_square hp (ha.y.sub hb.y (by decide)).1
  have hz := Light.upright_square hp (ha.z.sub hb.z (by decide)).1
  exact ((hx.add hy).add hz).sqrt.mul (by decide) (by decide)

theorem Light.square_swap {a b : Float} (ha : Within 8 a) (hb : Within 8 b) :
    raised (a - b) 2.0 = raised (b - a) 2.0 := by
  rcases sub_swap ha hb (by decide) with h | h
  · rw [h]
  · rw [h, hp.even _ (ha.sub hb (by decide)).1]

theorem Hex.distance_comm (a b : Hex) : distance a b = distance b a := by
  have ha := a.within_oklab hp
  have hb := b.within_oklab hp
  rw [distance, distance, Light.square_swap hp ha.x hb.x, Light.square_swap hp ha.y hb.y,
    Light.square_swap hp ha.z hb.z]

end

end Palette
