import Palette.Proofs.Turns

/-!
# The nearest step that passes

What a search returns, told without the search: the origin if it passes, and else the step that
passes next to it on the side that the direction names, or on either side, where a tie goes to the
higher step. The origin may be any number, and the ramp may be empty.

* `above?_eq_some_iff`, `below?_eq_some_iff`   the two sides;
* `Nearer`, `Reaches`      the order in which steps are preferred, and the steps that a search in a
                           direction comes to;
* `IsNearest`              a step of a side that passes and is nearer than all others that do;
* `nearest?_iff_isNearest` a search returns it;
* `read`, `walk`, `walkFrom`   the same search by reads of the ramp at one number after the other,
                           with a fault for a number that is no step;
* `walkFrom_eq`            it meets no fault and returns the same;
* `nearest?_exact`         all of this together.
-/

namespace Palette.Ramp
variable {r : Ramp} {passes : Hex → Bool} {origin i j : Int} {d : Direction}

/-! ## one side -/

theorem above?_eq_some_iff :
    r.above? passes origin = some i ↔
      r.passesAt passes i = true ∧ origin < i ∧
        ∀ j, r.passesAt passes j = true → origin < j → i ≤ j := by
  constructor
  · intro h
    refine ⟨passesAt_of_above? h, lt_of_above? h, fun j hj hlt => ?_⟩
    obtain ⟨a, ha, hle⟩ := exists_above? hj hlt
    obtain rfl := Option.some.inj (h.symm.trans ha)
    exact hle
  · rintro ⟨hi, hlt, hleast⟩
    obtain ⟨a, ha, hle⟩ := exists_above? hi hlt
    have hge := hleast a (passesAt_of_above? ha) (lt_of_above? ha)
    rw [ha, Int.le_antisymm hle hge]

theorem below?_eq_some_iff :
    r.below? passes origin = some i ↔
      r.passesAt passes i = true ∧ i < origin ∧
        ∀ j, r.passesAt passes j = true → j < origin → j ≤ i := by
  constructor
  · intro h
    refine ⟨passesAt_of_below? h, lt_of_below? h, fun j hj hlt => ?_⟩
    obtain ⟨b, hb, hle⟩ := exists_below? hj hlt
    obtain rfl := Option.some.inj (h.symm.trans hb)
    exact hle
  · rintro ⟨hi, hlt, hgreatest⟩
    obtain ⟨b, hb, hle⟩ := exists_below? hi hlt
    have hge := hgreatest b (passesAt_of_below? hb) (lt_of_below? hb)
    rw [hb, Int.le_antisymm hge hle]

/-! ## both sides -/

/-- is a step nearer to an origin than another one, or as near and not below it? -/
def Nearer (origin i j : Int) : Prop :=
  (i - origin).natAbs < (j - origin).natAbs ∨
    (i - origin).natAbs = (j - origin).natAbs ∧ j ≤ i

theorem Nearer.antisymm (hij : Nearer origin i j) (hji : Nearer origin j i) : i = j := by
  rw [Nearer] at hij hji
  omega

/-- on both sides, a step comes before another one exactly if it is nearer -/
theorem nearer_iff_turn {w : String} :
    Nearer origin i j ↔ r.turn origin (.other w) i ≤ r.turn origin (.other w) j := by
  rw [Nearer, turn, turn]
  split <;> split <;> omega

theorem nearest?_other_eq_some_iff {w : String} :
    r.nearest? passes origin (.other w) = some i ↔
      r.passesAt passes i = true ∧ ∀ j, r.passesAt passes j = true → Nearer origin i j := by
  constructor
  · exact fun h => ⟨passesAt_of_nearest? h, fun j hj => nearer_iff_turn.2 (turn_nearest? h hj)⟩
  · rintro ⟨hi, hnearest⟩
    cases h : r.nearest? passes origin (.other w) with
    | none =>
      rw [nearest?_other_eq_none h] at hi
      cases hi
    | some k =>
      have hki : Nearer origin k i := nearer_iff_turn.2 (turn_nearest? h hi)
      rw [hki.antisymm (hnearest k (passesAt_of_nearest? h))]

/-- does a search in a direction come to a step? -/
def Reaches (origin : Int) : Direction → Int → Prop
  | .darker, i => origin ≤ i
  | .lighter, i => i ≤ origin
  | .other _, _ => True

/-- a search comes to where it starts -/
theorem reaches_self : Reaches origin d origin := by
  cases d <;> simp [Reaches]

/-- a step of a side that passes and that no other such step is nearer than -/
structure IsNearest (r : Ramp) (passes : Hex → Bool) (origin : Int) (side : Int → Prop)
    (i : Int) : Prop where
  passing : r.passesAt passes i = true
  onSide : side i
  nearest (j : Int) (hj : r.passesAt passes j = true) (hs : side j) : Nearer origin i j

/-- what a search finds beside its origin -/
def beside? (r : Ramp) (passes : Hex → Bool) (origin : Int) : Direction → Option Int
  | .darker => r.above? passes origin
  | .lighter => r.below? passes origin
  | .other _ => nearer origin (r.above? passes origin) (r.below? passes origin)

theorem nearest?_eq :
    r.nearest? passes origin d =
      if r.passesAt passes origin then some origin else r.beside? passes origin d := by
  cases d <;> rfl

section
variable (ho : r.passesAt passes origin = false)
include ho

theorem nearest?_eq_beside? : r.nearest? passes origin d = r.beside? passes origin d := by
  rw [nearest?_eq, ho, if_neg Bool.false_ne_true]

theorem ne_origin (hi : r.passesAt passes i = true) : i ≠ origin := by
  rintro rfl
  exact Bool.noConfusion (hi.symm.trans ho)

/-- a side may be told without the origin, and the order on it by what is next -/
theorem isNearest_iff {side beyond : Int → Prop} {next : Int → Int → Prop}
    (hside : ∀ j, j ≠ origin → (side j ↔ beyond j))
    (hnext : ∀ i j, beyond i → beyond j → (Nearer origin i j ↔ next i j)) :
    IsNearest r passes origin side i ↔
      r.passesAt passes i = true ∧ beyond i ∧
        ∀ j, r.passesAt passes j = true → beyond j → next i j := by
  constructor
  · rintro ⟨hi, hs, hnearest⟩
    have hbeyond := (hside i (ne_origin ho hi)).1 hs
    refine ⟨hi, hbeyond, fun j hj hb => (hnext i j hbeyond hb).1 ?_⟩
    exact hnearest j hj ((hside j (ne_origin ho hj)).2 hb)
  · rintro ⟨hi, hb, hall⟩
    refine ⟨hi, (hside i (ne_origin ho hi)).2 hb, fun j hj hs => ?_⟩
    have hbeyond := (hside j (ne_origin ho hj)).1 hs
    exact (hnext i j hb hbeyond).2 (hall j hj hbeyond)

/-- where the origin does not pass, a search returns the nearest step that it comes to -/
theorem nearest?_iff_isNearest :
    r.nearest? passes origin d = some i ↔ IsNearest r passes origin (Reaches origin d) i := by
  cases d with
  | darker =>
    rw [nearest?_eq_beside? ho, beside?, above?_eq_some_iff, isNearest_iff ho]
    · exact fun j hne => by rw [Reaches]; omega
    · exact fun i j hi hj => by rw [Nearer]; omega
  | lighter =>
    rw [nearest?_eq_beside? ho, beside?, below?_eq_some_iff, isNearest_iff ho]
    · exact fun j hne => by rw [Reaches]; omega
    · exact fun i j hi hj => by rw [Nearer]; omega
  | other w =>
    rw [nearest?_other_eq_some_iff]
    exact ⟨fun h => ⟨h.1, trivial, fun j hj _ => h.2 j hj⟩,
      fun h => ⟨h.passing, fun j hj => h.nearest j hj trivial⟩⟩

end

/-- nothing is found exactly where nothing passes that the search comes to -/
theorem nearest?_eq_none_iff :
    r.nearest? passes origin d = none ↔ ∀ i, Reaches origin d i → r.passesAt passes i = false := by
  cases ho : r.passesAt passes origin with
  | true =>
    rw [nearest?_eq, if_pos ho]
    exact ⟨fun h => absurd h (Option.some_ne_none _),
      fun h => Bool.noConfusion (ho.symm.trans (h origin reaches_self))⟩
  | false =>
    constructor
    · intro h i hi
      cases d with
      | darker =>
        rcases Int.lt_or_eq_of_le hi with hlt | rfl
        · exact above?_eq_none ((nearest?_eq_beside? ho).symm.trans h) hlt
        · exact ho
      | lighter =>
        rcases Int.lt_or_eq_of_le hi with hlt | rfl
        · exact below?_eq_none ((nearest?_eq_beside? ho).symm.trans h) hlt
        · exact ho
      | other w => exact nearest?_other_eq_none h
    · intro h
      rw [Option.eq_none_iff_forall_ne_some]
      intro i hi
      have hn := (nearest?_iff_isNearest ho).1 hi
      exact Bool.noConfusion (hn.passing.symm.trans (h i hn.onSide))

/-! ## reads -/

/-- the color at a number, if it is a step of the ramp -/
def read (r : Ramp) (i : Int) : Except Fault Hex :=
  if r.hasStep i then .ok (r.color i) else .error .outOfRange

/-- the first of some numbers whose color passes -/
def walk (r : Ramp) (passes : Hex → Bool) : List Int → Except Fault (Option Int)
  | [] => .ok none
  | i :: rest => do
    let h ← r.read i
    if passes h then return some i else r.walk passes rest

/-- the numbers above an origin up to the end of the ramp, from zero on -/
def upward (r : Ramp) (origin : Int) : List Int :=
  let first := max (origin + 1) 0
  (List.range (r.length - first).toNat).map fun n : Nat => first + n

/-- the numbers below an origin down to zero, from the end of the ramp on -/
def downward (r : Ramp) (origin : Int) : List Int :=
  let first := min (origin - 1) r.last
  (List.range (first + 1).toNat).map fun n : Nat => first - n

/-- a walk to the side that a direction names, or one to either side -/
def walkBeside (r : Ramp) (passes : Hex → Bool) (origin : Int) :
    Direction → Except Fault (Option Int)
  | .darker => r.walk passes (r.upward origin)
  | .lighter => r.walk passes (r.downward origin)
  | .other _ => do
    let above ← r.walk passes (r.upward origin)
    let below ← r.walk passes (r.downward origin)
    return nearer origin above below

/-- the search for the nearest step that passes, by reads; a number that is no step is not read
where the search starts -/
def walkFrom (r : Ramp) (passes : Hex → Bool) (origin : Int) (d : Direction) :
    Except Fault (Option Int) :=
  if r.hasStep origin then do
    let h ← r.read origin
    if passes h then return some origin else r.walkBeside passes origin d
  else r.walkBeside passes origin d

theorem read_eq (h : r.hasStep i = true) : r.read i = .ok (r.color i) := if_pos h

theorem walk_eq {l : List Int} (h : ∀ i ∈ l, r.hasStep i = true) :
    r.walk passes l = .ok (l.find? fun i => passes (r.color i)) := by
  induction l with
  | nil => rfl
  | cons i l ih =>
    rw [List.forall_mem_cons] at h
    rw [walk, read_eq h.1, List.find?_cons]
    show (if passes (r.color i) = true then _ else _) = _
    cases passes (r.color i) with
    | true => rfl
    | false => exact ih h.2

theorem mem_upward : i ∈ r.upward origin ↔ r.hasStep i = true ∧ origin < i := by
  rw [upward, List.mem_map, hasStep_iff]
  constructor
  · rintro ⟨n, hn, rfl⟩
    rw [List.mem_range] at hn
    omega
  · rintro ⟨⟨h0, hlt⟩, ho⟩
    refine ⟨(i - max (origin + 1) 0).toNat, List.mem_range.2 ?_, ?_⟩ <;> omega

theorem mem_downward : i ∈ r.downward origin ↔ r.hasStep i = true ∧ i < origin := by
  rw [downward, List.mem_map, hasStep_iff, last]
  constructor
  · rintro ⟨n, hn, rfl⟩
    rw [List.mem_range] at hn
    omega
  · rintro ⟨⟨h0, hlt⟩, ho⟩
    refine ⟨(min (origin - 1) (r.length - 1) - i).toNat, List.mem_range.2 ?_, ?_⟩ <;> omega

theorem pairwise_upward : (r.upward origin).Pairwise (· < ·) := by
  rw [upward, List.pairwise_map]
  exact List.pairwise_lt_range.imp fun h => by omega

theorem pairwise_downward : (r.downward origin).Pairwise fun i j => j < i := by
  rw [downward, List.pairwise_map]
  exact List.pairwise_lt_range.imp fun h => by omega

/-- what is found first among the steps of a side comes before all others of it that pass -/
theorem find?_color_eq_some_iff {l : List Int} {side : Int → Prop} {R : Int → Int → Prop}
    (hl : l.Pairwise R) (hasymm : ∀ i j, R i j → ¬R j i)
    (hm : ∀ i, i ∈ l ↔ r.hasStep i = true ∧ side i) :
    l.find? (fun i => passes (r.color i)) = some i ↔
      r.passesAt passes i = true ∧ side i ∧
        ∀ j, r.passesAt passes j = true → side j → j = i ∨ R i j := by
  have hmem {j : Int} (hj : r.passesAt passes j = true) (hside : side j) :
      j ∈ l ∧ passes (r.color j) = true := by
    rw [passesAt, Bool.and_eq_true] at hj
    exact ⟨(hm j).2 ⟨hj.1, hside⟩, hj.2⟩
  constructor
  · intro h
    obtain ⟨hstep, hside⟩ := (hm i).1 (List.mem_of_find?_eq_some h)
    refine ⟨?_, hside, fun j hj hs => ?_⟩
    · rw [passesAt, hstep, List.find?_some h]
      rfl
    · obtain ⟨hjl, hjp⟩ := hmem hj hs
      exact Entries.rel_of_find? hl h hjl hjp
  · rintro ⟨hi, hside, hfirst⟩
    obtain ⟨hil, hip⟩ := hmem hi hside
    cases h : l.find? fun i => passes (r.color i) with
    | none => exact absurd hip (List.find?_eq_none.1 h i hil)
    | some k =>
      obtain ⟨hstep, hs⟩ := (hm k).1 (List.mem_of_find?_eq_some h)
      have hk : r.passesAt passes k = true := by
        rw [passesAt, hstep, List.find?_some h]
        rfl
      rcases hfirst k hk hs with rfl | hik
      · rfl
      · rcases Entries.rel_of_find? hl h hil hip with rfl | hki
        · rfl
        · exact absurd hki (hasymm i k hik)

theorem walk_upward : r.walk passes (r.upward origin) = .ok (r.above? passes origin) := by
  rw [walk_eq fun i hi => (mem_upward.1 hi).1]
  congr 1
  refine Option.ext fun i => ?_
  rw [find?_color_eq_some_iff pairwise_upward (fun i j h => by omega) fun _ => mem_upward,
    above?_eq_some_iff]
  have hle (j : Int) : i ≤ j ↔ j = i ∨ i < j := by omega
  simp only [hle]

theorem walk_downward : r.walk passes (r.downward origin) = .ok (r.below? passes origin) := by
  rw [walk_eq fun i hi => (mem_downward.1 hi).1]
  congr 1
  refine Option.ext fun i => ?_
  rw [find?_color_eq_some_iff pairwise_downward (fun i j h => by omega) fun _ => mem_downward,
    below?_eq_some_iff]
  have hle (j : Int) : j ≤ i ↔ j = i ∨ j < i := by omega
  simp only [hle]

theorem walkBeside_eq : r.walkBeside passes origin d = .ok (r.beside? passes origin d) := by
  cases d with
  | darker => exact walk_upward
  | lighter => exact walk_downward
  | other w =>
    rw [walkBeside, walk_upward, walk_downward]
    rfl

/-- a search by reads comes to steps of the ramp alone, and returns the same -/
theorem walkFrom_eq : r.walkFrom passes origin d = .ok (r.nearest? passes origin d) := by
  rw [walkFrom, nearest?_eq, passesAt]
  cases hs : r.hasStep origin with
  | false => exact walkBeside_eq
  | true =>
    rw [if_pos rfl, read_eq hs, Bool.true_and]
    show (if passes (r.color origin) = true then _ else _) = _
    cases passes (r.color origin) with
    | true => rfl
    | false => exact walkBeside_eq

/-- The search from any number, on any ramp and with any test. A number that is a step and passes is
returned itself. Otherwise it is the first step above or below that passes, or on both sides the
nearest one, the higher one of two. There is none exactly where no step passes that the direction
allows, and no color is read but those of the ramp. -/
theorem nearest?_exact (r : Ramp) (passes : Hex → Bool) (origin : Int) :
    (r.passesAt passes origin = true → ∀ d, r.nearest? passes origin d = some origin) ∧
    (r.passesAt passes origin = false →
      (∀ i, r.nearest? passes origin .darker = some i ↔
        r.passesAt passes i = true ∧ origin < i ∧
          ∀ j, r.passesAt passes j = true → origin < j → i ≤ j) ∧
      (∀ i, r.nearest? passes origin .lighter = some i ↔
        r.passesAt passes i = true ∧ i < origin ∧
          ∀ j, r.passesAt passes j = true → j < origin → j ≤ i) ∧
      ∀ w i, r.nearest? passes origin (.other w) = some i ↔
        r.passesAt passes i = true ∧ ∀ j, r.passesAt passes j = true → Nearer origin i j) ∧
    ∀ d, (r.nearest? passes origin d = none ↔
        ∀ i, Reaches origin d i → r.passesAt passes i = false) ∧
      r.walkFrom passes origin d = .ok (r.nearest? passes origin d) := by
  refine ⟨fun ho d => ?_, fun ho => ⟨fun i => ?_, fun i => ?_, fun w i => ?_⟩, fun d => ?_⟩
  · rw [nearest?_eq, if_pos ho]
  · rw [nearest?_eq_beside? ho]
    exact above?_eq_some_iff
  · rw [nearest?_eq_beside? ho]
    exact below?_eq_some_iff
  · exact nearest?_other_eq_some_iff
  · exact ⟨nearest?_eq_none_iff, walkFrom_eq⟩

/-- four grays, of which the first and the third pass: as near to the second one on either side, the
third one is taken, and it is the first one below a number far past the end -/
theorem nearest?_exact_tied :
    let r : Ramp := ⟨.text "gray", [⟨0, 0, 0⟩, ⟨119, 119, 119⟩, ⟨187, 187, 187⟩, ⟨255, 255, 255⟩]⟩
    let passes (h : Hex) : Bool := h.red == 0 || h.red == 187
    r.passesAt passes 1 = false ∧ r.nearest? passes 1 (.other "either") = some 2 ∧
      r.passesAt passes 9 = false ∧ r.nearest? passes 9 .lighter = some 2 := by
  intro r passes
  have hsteps {j : Int} (hj : r.passesAt passes j = true) : j = 0 ∨ j = 2 := by
    have hstep := (hasStep_iff r j).1 (hasStep_of_passesAt hj)
    have hlength : r.length = 4 := rfl
    obtain rfl | rfl | rfl | rfl : j = 0 ∨ j = 1 ∨ j = 2 ∨ j = 3 := by omega
    · exact .inl rfl
    · cases hj
    · exact .inr rfl
    · cases hj
  obtain ⟨_, hone, _⟩ := nearest?_exact r passes 1
  obtain ⟨_, hnine, _⟩ := nearest?_exact r passes 9
  refine ⟨rfl, ((hone rfl).2.2 "either" 2).2 ⟨rfl, fun j hj => ?_⟩, rfl,
    ((hnine rfl).2.1 2).2 ⟨rfl, by decide, fun j hj _ => ?_⟩⟩
  · rw [Nearer]
    have hj := hsteps hj
    omega
  · have hj := hsteps hj
    omega

end Palette.Ramp
