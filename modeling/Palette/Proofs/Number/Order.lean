import Mathlib.Data.Prod.Lex
import Mathlib.Order.Compare

/-!
# The order of floats

Floats are compared by sign, exponent and mantissa; what is no number is neither below nor above
anything.

* `Scale`, `StrictScale`   what is asked of the order of measurements: any linear order is one, and
                       that of floats;
* `Floating.height?`   where a float stands in the order;
* `Floating.le_iff`, `Floating.lt_iff`   comparisons compare heights;
* `Floating.lt_of_not_le`   of two numbers, one is at most the other or above it;
* `Floating.isNaN_of_le`    what is compared is a number.
-/

namespace Palette

/-- an order that chains, and in which any two values that reach something are comparable -/
class Scale (κ : Type) [LE κ] : Prop where
  trans {a b c : κ} : a ≤ b → b ≤ c → a ≤ c
  total {a b m n : κ} : m ≤ a → n ≤ b → a ≤ b ∨ b ≤ a

instance {κ : Type} [LinearOrder κ] : Scale κ where
  trans := le_trans
  total _ _ := le_total _ _

/-- what reaches something is no less than itself -/
theorem Scale.refl {κ : Type} [LE κ] [Scale κ] {a m : κ} (h : m ≤ a) : a ≤ a :=
  (total h h).elim id id

/-- a scale whose comparisons exclude one another, where values reach something -/
class StrictScale (κ : Type) [LE κ] [LT κ] : Prop extends Scale κ where
  le_of_lt {a b : κ} : a < b → a ≤ b
  le_of_not_lt {a b m n : κ} : m ≤ a → n ≤ b → ¬a < b → b ≤ a

instance {κ : Type} [LinearOrder κ] : StrictScale κ where
  le_of_lt := le_of_lt
  le_of_not_lt _ _ := not_lt.1

/-! ## floats -/

namespace Floating
open Float.Model

/-- where a float stands: below zero, at zero or above, then by exponent, then by mantissa -/
def height? : UnpackedFloat → Option (Int ×ₗ Int ×ₗ Int)
  | .infinity .negative => some (toLex (-2, toLex (0, 0)))
  | .finite .negative m e _ => some (toLex (-1, toLex (-e, -(m : Int))))
  | .zero _ => some (toLex (0, toLex (0, 0)))
  | .finite .positive m e _ => some (toLex (1, toLex (e, (m : Int))))
  | .infinity .positive => some (toLex (2, toLex (0, 0)))
  | .notANumber => none

theorem compare_sign (s t : UnpackedFloat.Sign) :
    compare s t = match s, t with
      | .negative, .positive => .lt
      | .positive, .negative => .gt
      | _, _ => .eq := by
  cases s <;> cases t <;> rfl

theorem isLE_then {a b : Int} {m n : Nat} :
    ((compare a b).then (compare m n)).isLE = true ↔ a < b ∨ a = b ∧ m ≤ n := by
  rcases lt_trichotomy a b with h | rfl | h
  · rw [compare_lt_iff_lt.2 h]
    simp [h]
  · rw [compare_eq_iff_eq.2 rfl]
    simp [Nat.isLE_compare]
  · rw [compare_gt_iff_gt.2 h]
    simp
    omega

theorem isGE_then {a b : Int} {m n : Nat} :
    ((compare a b).then (compare m n)).isGE = true ↔ b < a ∨ a = b ∧ n ≤ m := by
  rcases lt_trichotomy a b with h | rfl | h
  · rw [compare_lt_iff_lt.2 h]
    simp
    omega
  · rw [compare_eq_iff_eq.2 rfl]
    simp [Nat.isGE_compare]
  · rw [compare_gt_iff_gt.2 h]
    simp [h]

theorem unpacked_le_iff (a b : UnpackedFloat) :
    a.le b = true ↔ ∃ x y, height? a = some x ∧ height? b = some y ∧ x ≤ y := by
  -- only two finite floats of one sign are compared by exponents and mantissas
  rcases a with (_ | _) | _ | _ | ⟨_ | _, m, e, _⟩ <;>
    rcases b with (_ | _) | _ | _ | ⟨_ | _, n, f, _⟩ <;>
    dsimp only [UnpackedFloat.le, UnpackedFloat.compare, height?] <;>
    simp [Prod.Lex.le_iff, compare_sign, isLE_then, isGE_then]

theorem le_iff (a b : Float) :
    a ≤ b ↔ ∃ x y, height? a.toModel.unpack = some x ∧ height? b.toModel.unpack = some y ∧
      x ≤ y := by
  rw [← unpacked_le_iff]
  exact decide_eq_true_iff

theorem then_eq_lt {a b : Int} {m n : Nat} :
    (compare a b).then (compare m n) = .lt ↔ a < b ∨ a = b ∧ m < n := by
  rcases lt_trichotomy a b with h | rfl | h
  · rw [compare_lt_iff_lt.2 h]
    simp [h]
  · rw [compare_eq_iff_eq.2 rfl]
    simp [Nat.compare_eq_lt]
  · rw [compare_gt_iff_gt.2 h]
    simp
    omega

theorem then_eq_gt {a b : Int} {m n : Nat} :
    (compare a b).then (compare m n) = .gt ↔ b < a ∨ a = b ∧ n < m := by
  rcases lt_trichotomy a b with h | rfl | h
  · rw [compare_lt_iff_lt.2 h]
    simp
    omega
  · rw [compare_eq_iff_eq.2 rfl]
    simp [Nat.compare_eq_gt]
  · rw [compare_gt_iff_gt.2 h]
    simp [h]

theorem unpacked_lt_iff (a b : UnpackedFloat) :
    a.lt b = true ↔ ∃ x y, height? a = some x ∧ height? b = some y ∧ x < y := by
  rcases a with (_ | _) | _ | _ | ⟨_ | _, m, e, _⟩ <;>
    rcases b with (_ | _) | _ | _ | ⟨_ | _, n, f, _⟩ <;>
    dsimp only [UnpackedFloat.lt, UnpackedFloat.compare, height?] <;>
    simp [Prod.Lex.lt_iff, compare_sign, then_eq_lt, then_eq_gt]

theorem lt_iff (a b : Float) :
    a < b ↔ ∃ x y, height? a.toModel.unpack = some x ∧ height? b.toModel.unpack = some y ∧
      x < y := by
  rw [← unpacked_lt_iff]
  exact decide_eq_true_iff

/-- whatever is a number stands somewhere -/
theorem exists_height {a : Float} (h : a.isNaN = false) :
    ∃ x, height? a.toModel.unpack = some x := by
  have hn : a.toModel.unpack.isNaN = false := h
  cases hu : a.toModel.unpack with
  | notANumber =>
    rw [hu] at hn
    cases hn
  | infinity s => cases s <;> exact ⟨_, rfl⟩
  | zero s => exact ⟨_, rfl⟩
  | finite s m e hm => cases s <;> exact ⟨_, rfl⟩

/-- of two numbers, one is at most the other or above it -/
theorem lt_of_not_le {a b : Float} (ha : a.isNaN = false) (hb : b.isNaN = false) (h : ¬a ≤ b) :
    b < a := by
  obtain ⟨x, hx⟩ := exists_height ha
  obtain ⟨y, hy⟩ := exists_height hb
  refine (lt_iff b a).2 ⟨y, x, hy, hx, not_le.1 fun hxy => ?_⟩
  exact h ((le_iff a b).2 ⟨x, y, hx, hy, hxy⟩)

theorem le_of_lt {a b : Float} (h : a < b) : a ≤ b := by
  obtain ⟨x, y, hx, hy, hlt⟩ := (lt_iff a b).1 h
  exact (le_iff a b).2 ⟨x, y, hx, hy, hlt.le⟩

theorem not_le_of_lt {a b : Float} (h : a < b) : ¬b ≤ a := by
  intro hle
  obtain ⟨x, y, hx, hy, hlt⟩ := (lt_iff a b).1 h
  obtain ⟨y', x', hy', hx', hle⟩ := (le_iff b a).1 hle
  obtain rfl := Option.some.inj (hx.symm.trans hx')
  obtain rfl := Option.some.inj (hy.symm.trans hy')
  exact hlt.not_ge hle

theorem lt_of_le_of_lt {a b c : Float} (h : a ≤ b) (h' : b < c) : a < c := by
  obtain ⟨x, y, hx, hy, hle⟩ := (le_iff a b).1 h
  obtain ⟨y', z, hy', hz, hlt⟩ := (lt_iff b c).1 h'
  obtain rfl := Option.some.inj (hy.symm.trans hy')
  exact (lt_iff a c).2 ⟨x, z, hx, hz, hle.trans_lt hlt⟩

/-- what is compared is a number -/
theorem isNaN_of_le {a b : Float} (h : a ≤ b) : a.isNaN = false ∧ b.isNaN = false := by
  obtain ⟨x, y, hx, hy, _⟩ := (le_iff a b).1 h
  have hnumber {u : UnpackedFloat} {z : Int ×ₗ Int ×ₗ Int} (hu : height? u = some z) :
      u.isNaN = false := by
    cases u with
    | notANumber => cases hu
    | _ => rfl
  exact ⟨hnumber hx, hnumber hy⟩

instance : Scale Float where
  trans {a b c} h h' := by
    obtain ⟨x, y, hx, hy, hxy⟩ := (le_iff a b).1 h
    obtain ⟨y', z, hy', hz, hyz⟩ := (le_iff b c).1 h'
    obtain rfl := Option.some.inj (hy.symm.trans hy')
    exact (le_iff a c).2 ⟨x, z, hx, hz, hxy.trans hyz⟩
  total {a b m n} h h' := by
    obtain ⟨_, x, _, hx, _⟩ := (le_iff m a).1 h
    obtain ⟨_, y, _, hy, _⟩ := (le_iff n b).1 h'
    rcases le_total x y with hxy | hyx
    · exact .inl ((le_iff a b).2 ⟨x, y, hx, hy, hxy⟩)
    · exact .inr ((le_iff b a).2 ⟨y, x, hy, hx, hyx⟩)

theorem le_of_not_lt {a b : Float} (ha : a.isNaN = false) (hb : b.isNaN = false) (h : ¬a < b) :
    b ≤ a := by
  obtain ⟨x, hx⟩ := exists_height ha
  obtain ⟨y, hy⟩ := exists_height hb
  exact (le_iff b a).2 ⟨y, x, hy, hx, not_lt.1 fun hlt => h ((lt_iff a b).2 ⟨x, y, hx, hy, hlt⟩)⟩

instance : StrictScale Float where
  le_of_lt := Floating.le_of_lt
  le_of_not_lt h h' := Floating.le_of_not_lt (isNaN_of_le h).2 (isNaN_of_le h').2

end Floating
end Palette
