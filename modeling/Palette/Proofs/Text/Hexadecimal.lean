import Mathlib.Algebra.Group.Nat.Defs
import Palette.Color.Hex

/-!
# Hexadecimal numerals are told apart

* `value?_digit`         a digit has the value that it was written for;
* `padded_inj`           as many digits are the same where the numbers are, but for what is dropped;
* `numeral_injective`    numbers with the same shortest numeral are the same;
* `Hex.text_injective`   colors with the same canonical text are the same.
-/

namespace Palette

namespace Hexadecimal

theorem digit_mod (n : Nat) : digit (n % 16) = digit n := by
  rw [digit, digit, Nat.mod_mod]

theorem value?_digit (n : Nat) : value? (digit n) = some (n % 16) := by
  have h : ∀ d < 16, value? (digit d) = some d := by decide
  rw [← digit_mod]
  exact h _ (Nat.mod_lt n (by decide))

theorem digit_inj {m n : Nat} : digit m = digit n ↔ m % 16 = n % 16 := by
  constructor
  · intro h
    have hv := value?_digit m
    rw [h, value?_digit] at hv
    exact (Option.some.inj hv).symm
  · intro h
    rw [← digit_mod m, h, digit_mod]

theorem padded_inj {w m n : Nat} : padded w m = padded w n ↔ m % 16 ^ w = n % 16 ^ w := by
  induction w generalizing m n with
  | zero => exact iff_of_true rfl (by rw [Nat.pow_zero, Nat.mod_one, Nat.mod_one])
  | succ w ih =>
    have hparts (k : Nat) : k % 16 ^ (w + 1) = k % 16 + 16 * (k / 16 % 16 ^ w) := by
      rw [Nat.pow_succ', Nat.mod_mul]
    rw [padded_succ, padded_succ, hparts, hparts]
    constructor
    · intro h
      obtain ⟨hfront, hlast⟩ := List.append_inj' h rfl
      rw [digit_inj.1 (List.cons.inj hlast).1, ih.1 hfront]
    · intro h
      have hm := Nat.mod_lt m (by decide : 0 < 16)
      have hn := Nat.mod_lt n (by decide : 0 < 16)
      have hfront : m / 16 % 16 ^ w = n / 16 % 16 ^ w := by omega
      have hlast : m % 16 = n % 16 := by omega
      rw [ih.2 hfront, digit_inj.2 hlast]

theorem lt_pow_width (n : Nat) : n < 16 ^ width n := by
  calc n < 2 ^ (n.log2 + 1) := Nat.lt_log2_self
    _ ≤ 2 ^ (4 * (n.log2 / 4 + 1)) := Nat.pow_le_pow_right (by decide) (by omega)
    _ = 16 ^ width n := by rw [Nat.pow_mul]; rfl

theorem numeral_injective {m n : Nat} (h : numeral m = numeral n) : m = n := by
  have hwidth : width m = width n := by
    have hlength := congrArg List.length h
    rwa [numeral, numeral, length_padded, length_padded] at hlength
  rw [numeral, numeral, hwidth, padded_inj, ← hwidth, Nat.mod_eq_of_lt (lt_pow_width m), hwidth,
    Nat.mod_eq_of_lt (lt_pow_width n)] at h
  exact h

end Hexadecimal

namespace Hex

theorem eq_of_padded {a b : UInt8}
    (h : Hexadecimal.padded 2 a.toNat = Hexadecimal.padded 2 b.toNat) : a = b := by
  have hlt (x : UInt8) : x.toNat < 16 ^ 2 := x.toNat_lt
  rw [Hexadecimal.padded_inj, Nat.mod_eq_of_lt (hlt a), Nat.mod_eq_of_lt (hlt b)] at h
  exact UInt8.toNat.inj h

theorem chars_injective {h k : Hex} (heq : h.chars = k.chars) : h = k := by
  obtain ⟨red, green, blue⟩ := h
  obtain ⟨red', green', blue'⟩ := k
  obtain ⟨hfront, hblue⟩ := List.append_inj' (List.cons.inj heq).2
    (by rw [Hexadecimal.length_padded, Hexadecimal.length_padded])
  obtain ⟨hred, hgreen⟩ := List.append_inj' hfront
    (by rw [Hexadecimal.length_padded, Hexadecimal.length_padded])
  obtain rfl : red = red' := eq_of_padded hred
  obtain rfl : green = green' := eq_of_padded hgreen
  obtain rfl : blue = blue' := eq_of_padded hblue
  rfl

theorem text_injective {h k : Hex} (heq : h.text = k.text) : h = k :=
  chars_injective (String.ofList_injective heq)

end Hex
end Palette
