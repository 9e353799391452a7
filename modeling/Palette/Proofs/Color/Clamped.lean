import Palette.Color.Light
import Palette.Proofs.Number.Exact
import Palette.Proofs.Number.Range

/-!
# Bytes of channels

A channel of any size is moved into the interval from zero to one, and then 255 times the channel is
rounded to a byte. What is no number counts as one.

* `Light.clamp_cases`, `Light.clamp_bounds`   where a channel is moved to;
* `Light.clamp_clamp`       it is left there when it is moved again;
* `Light.byte_of_le_zero`, `Light.byte_of_not_lt`   bytes of channels beyond the interval;
* `Light.exists_byte_eq`    a byte is the whole number nearest to 255 times the channel: there is
                            always one;
* `Hex.Rounds`              the same for the three bytes of a color.
-/

namespace Palette
namespace Light
open Floating

theorem zero_lt_one : (0.0 : Float) < 1.0 := by decide

theorem clamp_of_lt {c : Float} (h : c < 1.0) : clamp c = if 0.0 < c then c else 0.0 := by
  simp only [clamp, if_pos h]

theorem clamp_of_not_lt {c : Float} (h : ¬c < 1.0) : clamp c = 1.0 := by
  simp only [clamp, if_neg h, if_pos zero_lt_one]

theorem clamp_of_le_zero {c : Float} (h : c ≤ 0.0) : clamp c = 0.0 := by
  rw [clamp_of_lt (lt_of_le_of_lt h zero_lt_one)]
  exact if_neg fun hpos => not_le_of_lt hpos h

/-- a channel is moved to one of the ends, or it is left where it is between them -/
theorem clamp_cases (c : Float) :
    clamp c = 0.0 ∨ clamp c = 1.0 ∨ 0.0 < c ∧ c < 1.0 ∧ clamp c = c := by
  by_cases hlt : c < 1.0
  · have hclamp := clamp_of_lt hlt
    split at hclamp
    · next hpos => exact .inr (.inr ⟨hpos, hlt, hclamp⟩)
    · exact .inl hclamp
  · exact .inr (.inl (clamp_of_not_lt hlt))

theorem clamp_eq_zero_or (c : Float) : clamp c = 0.0 ∨ 0.0 < clamp c ∧ clamp c ≤ 1.0 := by
  rcases clamp_cases c with hzero | hone | ⟨hpos, hlt, hclamp⟩
  · exact .inl hzero
  · rw [hone]
    exact .inr ⟨zero_lt_one, by decide⟩
  · rw [hclamp]
    exact .inr ⟨hpos, le_of_lt hlt⟩

theorem clamp_bounds (c : Float) : 0.0 ≤ clamp c ∧ clamp c ≤ 1.0 := by
  rcases clamp_eq_zero_or c with hzero | ⟨hpos, hle⟩
  · rw [hzero]
    decide
  · exact ⟨le_of_lt hpos, hle⟩

theorem clamp_clamp (c : Float) : clamp (clamp c) = clamp c := by
  rcases clamp_cases c with hzero | hone | ⟨_, _, hclamp⟩
  · rw [hzero]
    exact clamp_of_le_zero (by decide)
  · rw [hone]
    exact clamp_of_not_lt (by decide)
  · rw [hclamp, hclamp]

theorem measures_scale : Measures 255.0 (WithTop.some (255 * units)) := by
  have hexp : (0 + 2148 : Int).toNat = 2148 := rfl
  have hscaled : scaled 255 0 = 255 * units := by rw [scaled, hexp, units]
  have hlt : 255 * units < limit := by decide +kernel
  have hrounded : rounded (255 * units) = 255 * units := rounded_of_dvd (by decide +kernel)
  have h := measures_ofNat 255
  rw [hscaled, Floating.settled, WithTop.map_coe, hrounded, capped_of_lt hlt] at h
  exact h

/-- the whole number nearest to 255 times a channel that was moved is no greater than a byte -/
theorem exists_exact (c : Float) :
    ∃ d, Dyadic.ofFloat? (clamp c * 255.0) = some d ∧ Dyadic.roundDiv d.num d.den ≤ 255 := by
  rcases clamp_eq_zero_or c with hzero | ⟨hpos, hle⟩
  · rw [hzero]
    exact ⟨⟨false, 0, -1074⟩, by decide +kernel, by decide +kernel⟩
  · obtain ⟨k, hk, hpos, hle⟩ := exists_factor hpos hle
    -- 255 is a float, so the product is not rounded to anything above it
    have hsettled : Floating.settled (product k (WithTop.some (255 * units))) ≤
        WithTop.some (255 * units) :=
      calc Floating.settled (product k (WithTop.some (255 * units)))
          ≤ Floating.settled (WithTop.some (255 * units)) := settled_mono (product_le hle _)
        _ = WithTop.some (255 * units) := measures_scale.settled
    have hmul := hk.mul hpos measures_scale
    obtain ⟨n, hn⟩ := WithTop.ne_top_iff_exists.1 (hsettled.trans_lt (WithTop.coe_lt_top _)).ne
    rw [← hn] at hmul hsettled
    exact exists_roundDiv_le hmul (WithTop.coe_le_coe.1 hsettled)

theorem exists_byte_eq (c : Float) :
    ∃ d, Dyadic.ofFloat? (clamp c * 255.0) = some d ∧
      (byte c).toNat = Dyadic.roundDiv d.num d.den := by
  obtain ⟨d, hd, hle⟩ := exists_exact c
  refine ⟨d, hd, ?_⟩
  rw [byte, hd]
  exact Nat.mod_eq_of_lt (Nat.lt_succ_of_le hle)

theorem byte_of_le_zero {c : Float} (h : c ≤ 0.0) : byte c = 0 := by
  rw [byte, clamp_of_le_zero h]
  decide +kernel

theorem byte_of_not_lt {c : Float} (h : ¬c < 1.0) : byte c = 255 := by
  rw [byte, clamp_of_not_lt h]
  decide

end Light

namespace Hex

/-- Is each byte of a color the whole number nearest to 255 times a channel that was moved into the
interval? -/
def Rounds (h : Hex) (v : Triple) : Prop :=
  List.Forall₂ (fun (b : UInt8) c => ∃ d, Dyadic.ofFloat? (Light.clamp c * 255.0) = some d ∧
    b.toNat = Dyadic.roundDiv d.num d.den) [h.red, h.green, h.blue] v.toList

theorem rounds_ofChannels (v : Triple) : Rounds (ofChannels v) v :=
  .cons (Light.exists_byte_eq v.x)
    (.cons (Light.exists_byte_eq v.y) (.cons (Light.exists_byte_eq v.z) .nil))

end Hex
end Palette
