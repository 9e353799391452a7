import Palette.Text.Point

/-!
# Points are told apart

Points that no stray mark is among are found again in the characters that write them. Written and
read once more they are as they were, but for halves side by side, which become the character of the
pair.

* `ofChars_flatMap_chars`   points write characters that are read as the same points;
* `isHigh_iff`, `isLow_iff`   which numbers are halves, and no character's is;
* `ofUnit_toNat`, `ofUnit_code`, `toNat_ofPair`   the points of units;
* `joined`                  the points that are read where points are written.
-/

namespace Palette.Point

/-! ## characters of points -/

theorem standIn_ne_mark (i : Fin 2048) : standIn i ≠ mark := by
  intro h
  have hcode := congrArg Char.toNat h
  rw [toNat_standIn] at hcode
  have hmark : mark.toNat = 0xfd7ff := by decide
  rw [hmark, firstStandIn] at hcode
  omega

theorem marked?_standIn (i : Fin 2048) : marked? (standIn i) = some (.half i) := by
  rw [marked?, if_neg (standIn_ne_mark i), index?_standIn]
  rfl

theorem ofChars_cons_of_ne {c : Char} (h : c ≠ mark) (cs : List Char) :
    ofChars (c :: cs) = .char c :: ofChars cs := by
  cases cs with
  | nil =>
    show [if c = mark then Point.stray else .char c] = _
    rw [if_neg h]
    rfl
  | cons d cs => rw [ofChars, if_neg h]

/-- points write characters that are read as the same points -/
theorem ofChars_flatMap_chars {ps : List Point} (h : .stray ∉ ps) :
    ofChars (ps.flatMap chars) = ps := by
  induction ps with
  | nil => rfl
  | cons p ps ih =>
    rw [List.mem_cons, not_or] at h
    have hps := ih h.2
    rw [List.flatMap_cons]
    cases p with
    | char c =>
      by_cases hc : c = mark
      · rw [chars, if_pos hc]
        show ofChars (mark :: mark :: _) = _
        rw [ofChars, if_pos rfl, marked?, if_pos rfl, hc]
        exact congrArg _ hps
      · rw [chars, if_neg hc]
        exact (ofChars_cons_of_ne hc _).trans (congrArg _ hps)
    | half i =>
      show ofChars (mark :: standIn i :: _) = _
      rw [ofChars, if_pos rfl, marked?_standIn]
      exact congrArg _ hps
    | stray => exact absurd rfl h.1

/-! ## points of units -/

theorem code_half (i : Fin 2048) : (Point.half i).code = 0xd800 + i := rfl

/-- no character is a half -/
theorem toNat_lt (c : Char) : c.toNat < 0xd800 ∨ 0xdfff < c.toNat ∧ c.toNat < 0x110000 := c.valid

theorem isHigh_iff {n : Nat} : isHigh n = true ↔ 0xd800 ≤ n ∧ n < 0xdc00 := by
  rw [isHigh, Bool.and_eq_true, decide_eq_true_eq, decide_eq_true_eq]

theorem isLow_iff {n : Nat} : isLow n = true ↔ 0xdc00 ≤ n ∧ n < 0xe000 := by
  rw [isLow, Bool.and_eq_true, decide_eq_true_eq, decide_eq_true_eq]

theorem isHigh_toNat (c : Char) : isHigh c.toNat = false := by
  have hvalid := toNat_lt c
  rw [Bool.eq_false_iff, Ne, isHigh_iff]
  omega

theorem isLow_toNat (c : Char) : isLow c.toNat = false := by
  have hvalid := toNat_lt c
  rw [Bool.eq_false_iff, Ne, isLow_iff]
  omega

theorem ofUnit_toNat (c : Char) : ofUnit c.toNat = .char c := by
  have hvalid := toNat_lt c
  rw [ofUnit, dif_neg (by rw [firstHalf]; omega), Char.ofNat_toNat]

theorem ofUnit_code (i : Fin 2048) : ofUnit (half i).code = .half i := by
  have hbound : firstHalf ≤ (half i).code ∧ (half i).code < firstHalf + 2048 :=
    ⟨Nat.le_add_right _ _, Nat.add_lt_add_left i.isLt _⟩
  rw [ofUnit, dif_pos hbound]
  exact congrArg _ (Fin.ext (Nat.add_sub_cancel_left _ _))

theorem ofUnit_ne_stray (n : Nat) : ofUnit n ≠ .stray := by
  rw [ofUnit]
  split
  · exact fun h => nomatch h
  · exact fun h => nomatch h

theorem code_of_ofUnit {n : Nat} {i : Fin 2048} (h : ofUnit n = .half i) : (half i).code = n := by
  rw [ofUnit] at h
  split at h
  · next hn =>
    rw [← Point.half.inj h]
    exact Nat.add_sub_cancel' hn.1
  · cases h

/-- the number of the character of a pair -/
theorem toNat_ofPair {m n : Nat} (hm : isHigh m = true) (hn : isLow n = true) :
    (Char.ofNat (0x10000 + (m - 0xd800) * 0x400 + (n - 0xdc00))).toNat =
      0x10000 + (m - 0xd800) * 0x400 + (n - 0xdc00) := by
  rw [isHigh_iff] at hm
  rw [isLow_iff] at hn
  have hvalid : (0x10000 + (m - 0xd800) * 0x400 + (n - 0xdc00)).isValidChar := by
    right
    constructor <;> omega
  rw [Char.ofNat, dif_pos hvalid]
  rfl

/-! ## halves side by side -/

/-- the points that are read where points are written: a first half and a second one behind it are
the character of the pair, and a mark that was left over is a character -/
def joined : List Point → List Point
  | [] => []
  | .half i :: .half j :: ps =>
    if isHigh (half i).code && isLow (half j).code then
      ofPair (half i).code (half j).code :: joined ps
    else .half i :: joined (.half j :: ps)
  | .stray :: ps => .char mark :: joined ps
  | p :: ps => p :: joined ps

theorem joined_char (c : Char) (ps : List Point) :
    joined (.char c :: ps) = .char c :: joined ps := by
  rw [joined]
  · intro i j qs h
    cases h
  · intro h
    cases h

theorem joined_half {i : Fin 2048} {ps : List Point}
    (h : ∀ j qs, ps = .half j :: qs → (isHigh (half i).code && isLow (half j).code) = false) :
    joined (.half i :: ps) = .half i :: joined ps := by
  cases ps with
  | nil => rfl
  | cons p ps =>
    cases p with
    | char c => rfl
    | half j =>
      rw [joined, h j ps rfl]
      rfl
    | stray => rfl

theorem stray_not_mem_joined (ps : List Point) : .stray ∉ joined ps := by
  fun_induction joined ps with
  | case1 => exact List.not_mem_nil
  | case2 i j ps hpair ih => simp [ofPair, ih]
  | case3 i j ps hpair ih => simpa using ih
  | case4 ps ih => simpa using ih
  | case5 p ps hhalf hstray ih =>
    rw [List.mem_cons, not_or]
    exact ⟨Ne.symm hstray, ih⟩

end Palette.Point
