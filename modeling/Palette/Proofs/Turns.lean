import Palette.Proofs.Entries
import Palette.Proofs.Search

/-!
# The order in which a search comes to steps

However a search goes, with a default step, a mirrored step, one side first and then both sides, it
comes to the steps of the ramp in one order that does not depend on the test. What it takes is the
first step in this order that passes, so a test that lets more colors pass ends it sooner.

* `turn`               when a search from an origin comes to a step;
* `turn_closest?`      what it finds comes before every other step that passes;
* `place`              the same with the default step in front, which is tried before the origin;
* `place_getD_chosen?`, `place_injective`   the step that is taken is the first one that passes, and
                       there is only one first one;
* `of_laxer`           what a laxer test takes in place of a step that passes the stricter one.
-/

namespace Palette.Ramp
variable {r : Ramp} {passes : Hex → Bool} {origin default i j : Int} {d : Direction}

/-- When does a search from an origin come to a step? Toward one side, the other side comes after
all of it; on both sides, the step above comes before the one below at the same distance. -/
def turn (r : Ramp) (origin : Int) : Direction → Int → Int
  | .darker, i => if origin ≤ i then i - origin else r.length + (origin - i)
  | .lighter, i => if i ≤ origin then origin - i else r.length + (i - origin)
  | .other _, i => if origin < i then 2 * (i - origin) - 1 else 2 * (origin - i)

theorem turn_self : r.turn origin d origin = 0 := by
  cases d <;> simp [turn]

theorem turn_nonneg : 0 ≤ r.turn origin d i := by
  cases d <;> rw [turn] <;> split <;> omega

theorem turn_injective (hi : r.hasStep i = true) (hj : r.hasStep j = true)
    (ho : r.hasStep origin = true) (h : r.turn origin d i = r.turn origin d j) : i = j := by
  rw [hasStep_iff] at hi hj ho
  cases d <;> rw [turn, turn] at h <;> split at h <;> split at h <;> omega

/-- on either side, what is nearer comes first -/
theorem turn_le_of_above (hi : origin < i) (hij : i ≤ j) :
    r.turn origin d i ≤ r.turn origin d j := by
  cases d <;> grind [turn]

theorem turn_le_of_below (hi : i < origin) (hji : j ≤ i) :
    r.turn origin d i ≤ r.turn origin d j := by
  cases d <;> grind [turn]

/-- a search toward one side leaves the other side for later -/
theorem turn_le_across (hi : r.hasStep i = true) (hj : r.hasStep j = true)
    (h : match d with
      | .darker => origin < i ∧ j < origin
      | .lighter => i < origin ∧ origin < j
      | .other _ => False) : r.turn origin d i ≤ r.turn origin d j := by
  rw [hasStep_iff] at hi hj
  cases d <;> grind [turn]

/-! ## one side -/

theorem pairwise_cells : r.cells.Pairwise fun a b => a.1 < b.1 := by
  rw [cells, List.pairwise_iff_getElem]
  intro m n _ _ hmn
  rw [List.getElem_mapIdx, List.getElem_mapIdx]
  exact Int.ofNat_lt.2 hmn

theorem lt_of_above? (h : r.above? passes origin = some i) : origin < i := by
  obtain ⟨c, hc, rfl⟩ := Option.map_eq_some_iff.1 h
  have hp := List.find?_some hc
  rw [Bool.and_eq_true] at hp
  exact of_decide_eq_true hp.1

theorem lt_of_below? (h : r.below? passes origin = some i) : i < origin := by
  obtain ⟨c, hc, rfl⟩ := Option.map_eq_some_iff.1 h
  have hp := List.find?_some hc
  rw [Bool.and_eq_true] at hp
  exact of_decide_eq_true hp.1

section
variable (hj : r.passesAt passes j = true)
include hj

theorem exists_above? (hlt : origin < j) : ∃ a, r.above? passes origin = some a ∧ a ≤ j := by
  cases ha : r.above? passes origin with
  | none =>
    rw [above?_eq_none ha hlt] at hj
    cases hj
  | some a =>
    refine ⟨a, rfl, ?_⟩
    obtain ⟨c, hc, rfl⟩ := Option.map_eq_some_iff.1 ha
    have hm := mem_cells_of_passesAt hj
    rw [passesAt, Bool.and_eq_true] at hj
    have hp : (decide (origin < j) && passes (r.color j)) = true := by
      rw [decide_eq_true hlt, hj.2]
      rfl
    rcases Entries.rel_of_find? pairwise_cells hc hm hp with rfl | hR
    · exact Int.le_refl _
    · exact Int.le_of_lt hR

theorem exists_below? (hlt : j < origin) : ∃ b, r.below? passes origin = some b ∧ j ≤ b := by
  cases hb : r.below? passes origin with
  | none =>
    rw [below?_eq_none hb hlt] at hj
    cases hj
  | some b =>
    refine ⟨b, rfl, ?_⟩
    obtain ⟨c, hc, rfl⟩ := Option.map_eq_some_iff.1 hb
    have hm := List.mem_reverse.2 (mem_cells_of_passesAt hj)
    rw [passesAt, Bool.and_eq_true] at hj
    have hp : (decide (j < origin) && passes (r.color j)) = true := by
      rw [decide_eq_true hlt, hj.2]
      rfl
    have hrev : r.cells.reverse.Pairwise fun a b => b.1 < a.1 :=
      List.pairwise_reverse.2 pairwise_cells
    rcases Entries.rel_of_find? hrev hc hm hp with rfl | hR
    · exact Int.le_refl _
    · exact Int.le_of_lt hR

end

/-! ## both sides -/

/-- the nearer of a step above and a step below comes before both of them -/
theorem turn_nearer {w : String} {a b : Option Int} (h : nearer origin a b = some i)
    (ha : ∀ k, a = some k → origin < k) (hb : ∀ k, b = some k → k < origin) :
    ∀ k, a = some k ∨ b = some k → r.turn origin (.other w) i ≤ r.turn origin (.other w) k := by
  cases a with
  | none =>
    obtain rfl : b = some i := h
    rintro k (hk | hk)
    · cases hk
    · obtain rfl := Option.some.inj hk
      exact Int.le_refl _
  | some a =>
    cases b with
    | none =>
      obtain rfl := Option.some.inj h
      rintro k (hk | hk)
      · obtain rfl := Option.some.inj hk
        exact Int.le_refl _
      · cases hk
    | some b =>
      have hlta := ha a rfl
      have hltb := hb b rfl
      rw [nearer, Option.some.injEq] at h
      rintro k (⟨⟩ | ⟨⟩)
      · grind [turn]
      · grind [turn]

theorem turn_nearest? (h : r.nearest? passes origin d = some i)
    (hj : r.passesAt passes j = true) : r.turn origin d i ≤ r.turn origin d j := by
  have hi := hasStep_of_passesAt (passesAt_of_nearest? h)
  rw [nearest?.eq_def] at h
  split at h
  · obtain rfl := Option.some.inj h
    rw [turn_self]
    exact turn_nonneg
  · next hp =>
    have hne : j ≠ origin := by
      rintro rfl
      exact hp hj
    have hboth {w : String}
        (h : nearer origin (r.above? passes origin) (r.below? passes origin) = some i) :=
      turn_nearer (r := r) (w := w) h (fun _ => lt_of_above?) fun _ => lt_of_below?
    -- on the side of `j`, the nearest step that passes comes before `j`
    rcases Int.lt_or_gt_of_ne hne with hside | hside
    · obtain ⟨b, hb, hle⟩ := exists_below? hj hside
      have hbj : r.turn origin d b ≤ r.turn origin d j := turn_le_of_below (lt_of_below? hb) hle
      cases d with
      | darker => exact turn_le_across hi (hasStep_of_passesAt hj) ⟨lt_of_above? h, hside⟩
      | lighter =>
        obtain rfl := Option.some.inj (hb.symm.trans h)
        exact hbj
      | other w => exact Int.le_trans (hboth h b (.inr hb)) hbj
    · obtain ⟨a, ha, hle⟩ := exists_above? hj hside
      have haj : r.turn origin d a ≤ r.turn origin d j := turn_le_of_above (lt_of_above? ha) hle
      cases d with
      | darker =>
        obtain rfl := Option.some.inj (ha.symm.trans h)
        exact haj
      | lighter => exact turn_le_across hi (hasStep_of_passesAt hj) ⟨lt_of_below? h, hside⟩
      | other w => exact Int.le_trans (hboth h a (.inl ha)) haj

/-- a search that widens to both sides finds what is nearest on the side that it had left out -/
theorem turn_widened (hn : r.nearest? passes origin d = none) {w : String}
    (h : r.nearest? passes origin (.other w) = some i) (hj : r.passesAt passes j = true) :
    r.turn origin d i ≤ r.turn origin d j := by
  rw [nearest?.eq_def] at hn h
  split at hn
  · cases hn
  · next hp =>
    rw [if_neg hp] at h
    have hne : j ≠ origin := by
      rintro rfl
      exact hp hj
    -- nothing passes on the side of `d`, so `j` is on the other one, as is what is found
    cases d with
    | darker =>
      have habove : r.above? passes origin = none := hn
      have hb : r.below? passes origin = some i := by
        rw [habove] at h
        exact h
      rcases Int.lt_or_gt_of_ne hne with hside | hside
      · obtain ⟨b, hb', hle⟩ := exists_below? hj hside
        obtain rfl := Option.some.inj (hb.symm.trans hb')
        exact turn_le_of_below (lt_of_below? hb) hle
      · obtain ⟨a, ha, _⟩ := exists_above? hj hside
        rw [habove] at ha
        cases ha
    | lighter =>
      have hbelow : r.below? passes origin = none := hn
      have ha : r.above? passes origin = some i := by
        rcases of_nearer h with ha | hb
        · exact ha
        · rw [hbelow] at hb
          cases hb
      rcases Int.lt_or_gt_of_ne hne with hside | hside
      · obtain ⟨b, hb, _⟩ := exists_below? hj hside
        rw [hbelow] at hb
        cases hb
      · obtain ⟨a, ha', hle⟩ := exists_above? hj hside
        obtain rfl := Option.some.inj (ha.symm.trans ha')
        exact turn_le_of_above (lt_of_above? ha) hle
    | other w' => exact absurd (hn.symm.trans h) (by simp)

/-- what a search finds comes before every other step that passes -/
theorem turn_closest? (h : r.closest? passes origin d = some i)
    (hj : r.passesAt passes j = true) : r.turn origin d i ≤ r.turn origin d j := by
  rw [closest?] at h
  split at h
  · next hn => exact turn_nearest? (hn.trans h) hj
  · next hn => exact turn_widened hn h hj

/-! ## the step that is taken -/

/-- where a search for another step than the default one begins -/
def start (r : Ramp) (default : Int) (mirrored : Bool) : Int :=
  if mirrored then r.last - default else default

theorem hasStep_start {mirrored : Bool} (hd : r.hasStep default = true) :
    r.hasStep (r.start default mirrored) = true := by
  cases mirrored with
  | true => exact hasStep_mirrored hd
  | false => exact hd

theorem chosen?_eq {mirrored decorative : Bool} :
    r.chosen? passes default mirrored decorative d =
      if mirrored && decorative then some (r.start default mirrored)
      else if r.passesFrom passes default then none
      else if mirrored && r.passesFrom passes (r.start default mirrored) then
        some (r.start default mirrored)
      else r.closest? passes (r.start default mirrored) d := rfl

/-- When is a step tried in place of a default step? The default step itself comes first. -/
def place (r : Ramp) (default : Int) (mirrored : Bool) (d : Direction) (i : Int) : Int :=
  if i = default then -1 else r.turn (r.start default mirrored) d i

theorem place_of_ne {mirrored : Bool} (h : i ≠ default) :
    r.place default mirrored d i = r.turn (r.start default mirrored) d i := if_neg h

theorem place_le_turn {mirrored : Bool} :
    r.place default mirrored d i ≤ r.turn (r.start default mirrored) d i := by
  rw [place]
  split
  · exact Int.le_trans (by omega) turn_nonneg
  · exact Int.le_refl _

theorem place_injective {mirrored : Bool} (hd : r.hasStep default = true)
    (hi : r.hasStep i = true) (hj : r.hasStep j = true)
    (h : r.place default mirrored d i = r.place default mirrored d j) : i = j := by
  have hnonneg (k : Int) : 0 ≤ r.turn (r.start default mirrored) d k := turn_nonneg
  have h0i := hnonneg i
  have h0j := hnonneg j
  rw [place, place] at h
  by_cases hid : i = default
  · by_cases hjd : j = default
    · rw [hid, hjd]
    · rw [if_pos hid, if_neg hjd] at h
      omega
  · by_cases hjd : j = default
    · rw [if_neg hid, if_pos hjd] at h
      omega
    · rw [if_neg hid, if_neg hjd] at h
      exact turn_injective hi hj (hasStep_start hd) h

/-- the step that is taken is the first one that passes, unless it is taken without a test -/
theorem place_getD_chosen? {mirrored decorative : Bool} (hd : r.hasStep default = true)
    (hx : (mirrored && decorative) = false) (hj : r.passesAt passes j = true) :
    r.place default mirrored d ((r.chosen? passes default mirrored decorative d).getD default) ≤
      r.place default mirrored d j := by
  rw [chosen?_eq, hx, if_neg Bool.false_ne_true, passesFrom_of_hasStep hd]
  by_cases hp : r.passesAt passes default = true
  · rw [if_pos hp, Option.getD_none, place, if_pos rfl, place]
    split
    · exact Int.le_refl _
    · exact Int.le_trans (by omega) turn_nonneg
  have hne : j ≠ default := by
    rintro rfl
    exact hp hj
  rw [if_neg hp, place_of_ne hne]
  by_cases hm : (mirrored && r.passesFrom passes (r.start default mirrored)) = true
  · rw [if_pos hm, Option.getD_some]
    refine Int.le_trans place_le_turn ?_
    rw [turn_self]
    exact turn_nonneg
  · rw [if_neg hm]
    cases hc : r.closest? passes (r.start default mirrored) d with
    | some k => exact Int.le_trans place_le_turn (turn_closest? hc hj)
    | none =>
      rw [closest?_eq_none.1 hc j] at hj
      cases hj

/-- Where a stricter test lets the step pass that it takes, a laxer one takes a step that passes it
too. It is the same step, or else one that the stricter test refuses. -/
theorem of_laxer {strict lax : Hex → Bool} (h : ∀ c, strict c = true → lax c = true)
    {mirrored decorative : Bool} (hd : r.hasStep default = true)
    (hs : r.passesAt strict ((r.chosen? strict default mirrored decorative d).getD default)
      = true) :
    r.passesAt lax ((r.chosen? lax default mirrored decorative d).getD default) = true ∧
      (r.passesAt strict ((r.chosen? lax default mirrored decorative d).getD default) = true →
        (r.chosen? lax default mirrored decorative d).getD default =
          (r.chosen? strict default mirrored decorative d).getD default) := by
  have weaken {k : Int} (hk : r.passesAt strict k = true) : r.passesAt lax k = true := by
    rw [passesAt, Bool.and_eq_true] at hk ⊢
    exact ⟨hk.1, h _ hk.2⟩
  by_cases hx : (mirrored && decorative) = true
  · rw [chosen?_eq, hx, if_pos rfl] at hs
    rw [chosen?_eq, chosen?_eq, hx, if_pos rfl, if_pos rfl]
    exact ⟨weaken hs, fun _ => rfl⟩
  · rw [Bool.not_eq_true] at hx
    have hl := (passesAt_getD_chosen? lax d hd hx).1.2 ⟨_, weaken hs⟩
    -- where the stricter test lets both steps pass, either comes before the other
    refine ⟨hl, fun hboth => ?_⟩
    have hlax := place_getD_chosen? (d := d) hd hx (weaken hs)
    have hstrict := place_getD_chosen? (d := d) hd hx hboth
    exact place_injective hd (hasStep_of_passesAt hl) (hasStep_of_passesAt hs)
      (Int.le_antisymm hlax hstrict)

end Palette.Ramp
