import Palette.Search

/-!
# Searches find what there is

A search for a step that passes returns a step of the ramp that passes, and returns none only
where no step passes. Nothing is assumed of the test: the steps that pass may lie anywhere.

* `mem_cells`              the steps with their colors;
* `passesAt_of_nearest?`, `passesAt_of_closest?`   what is found passes;
* `closest?_eq_none`       nothing is found exactly where nothing passes: the second search, on both
                           sides, sees the steps that the first one leaves out;
* `chosen?_mirrored`       a decorative color takes the mirrored step;
* `passesAt_getD_chosen?`  any other color takes a step that passes, if there is one, and keeps its
                           default step if there is none.
-/

namespace Palette.Ramp
variable {r : Ramp} {passes : Hex → Bool} {origin default i : Int}

theorem mem_cells {c : Int × Hex} : c ∈ r.cells ↔ r.hasStep c.1 = true ∧ r.color c.1 = c.2 := by
  obtain ⟨i, h⟩ := c
  rw [cells, List.mem_mapIdx, hasStep_iff]
  constructor
  · rintro ⟨n, hn, hc⟩
    cases hc
    have hlt : (n : Int) < r.length := Int.ofNat_lt.2 hn
    refine ⟨⟨Int.natCast_nonneg n, hlt⟩, ?_⟩
    rw [color, color?, if_pos (Int.natCast_nonneg n), Int.toNat_natCast,
      List.getElem?_eq_getElem hn]
    rfl
  · rintro ⟨⟨h0, hlt⟩, hc⟩
    have hn : i.toNat < r.colors.length := (Int.toNat_lt h0).2 hlt
    refine ⟨i.toNat, hn, Prod.ext (Int.toNat_of_nonneg h0) (Eq.trans ?_ hc)⟩
    show r.colors[i.toNat] = (r.color? i).getD Hex.black
    rw [color?, if_pos h0, List.getElem?_eq_getElem hn]
    rfl

theorem color_mem_colors (h : r.hasStep i = true) : r.color i ∈ r.colors := by
  have hc := color?_eq_some_of_hasStep r i h
  rw [color?, if_pos ((hasStep_iff r i).1 h).1] at hc
  exact List.mem_of_getElem? hc

theorem mem_cells_of_passesAt (h : r.passesAt passes i = true) : (i, r.color i) ∈ r.cells := by
  rw [passesAt, Bool.and_eq_true] at h
  exact mem_cells.2 ⟨h.1, rfl⟩

theorem hasStep_of_passesAt (h : r.passesAt passes i = true) : r.hasStep i = true := by
  rw [passesAt, Bool.and_eq_true] at h
  exact h.1

/-- on the ramp, counting from the end makes no difference -/
theorem passesFrom_of_hasStep (h : r.hasStep i = true) :
    r.passesFrom passes i = r.passesAt passes i := by
  rw [passesFrom, passesAt, color?_eq_some_of_hasStep r i h, h, Bool.true_and]
  rfl

theorem hasStep_mirrored (h : r.hasStep i = true) : r.hasStep (r.last - i) = true := by
  rw [hasStep_iff] at h ⊢
  rw [last]
  omega

theorem exists_passesAt :
    (∃ i, r.passesAt passes i = true) ↔ ∃ h ∈ r.colors, passes h = true := by
  constructor
  · rintro ⟨i, hi⟩
    have hc := mem_cells_of_passesAt hi
    rw [cells, List.mem_mapIdx] at hc
    obtain ⟨n, hn, hc⟩ := hc
    rw [passesAt, Bool.and_eq_true, ← (Prod.mk.inj hc).2] at hi
    exact ⟨_, List.getElem_mem hn, hi.2⟩
  · rintro ⟨h, hm, hp⟩
    obtain ⟨n, hn, rfl⟩ := List.mem_iff_getElem.1 hm
    have hc : ((n : Int), r.colors[n]) ∈ r.cells := List.mem_mapIdx.2 ⟨n, hn, rfl⟩
    obtain ⟨hs, hcolor⟩ := mem_cells.1 hc
    refine ⟨n, ?_⟩
    rw [passesAt, hs, hcolor, hp]
    rfl

/-! ## one side -/

theorem of_find?_cells (side : Int → Bool) {l : List (Int × Hex)} (hl : ∀ c ∈ l, c ∈ r.cells)
    (h : (l.find? fun c => side c.1 && passes c.2).map (·.1) = some i) :
    r.passesAt passes i = true := by
  obtain ⟨c, hc, rfl⟩ := Option.map_eq_some_iff.1 h
  obtain ⟨hs, hcolor⟩ := mem_cells.1 (hl c (List.mem_of_find?_eq_some hc))
  have hp := List.find?_some hc
  rw [Bool.and_eq_true, ← hcolor] at hp
  rw [passesAt, hs, hp.2]
  rfl

theorem of_find?_cells_eq_none (side : Int → Bool) {l : List (Int × Hex)}
    (hl : ∀ c ∈ r.cells, c ∈ l) (h : (l.find? fun c => side c.1 && passes c.2).map (·.1) = none)
    (hi : side i = true) : r.passesAt passes i = false := by
  rw [Option.map_eq_none_iff, List.find?_eq_none] at h
  rw [← Bool.not_eq_true]
  intro hp
  have hc := h _ (hl _ (mem_cells_of_passesAt hp))
  rw [passesAt, Bool.and_eq_true] at hp
  rw [hi, hp.2] at hc
  exact hc rfl

theorem passesAt_of_above? (h : r.above? passes origin = some i) : r.passesAt passes i = true :=
  of_find?_cells (fun j => origin < j) (fun _ hc => hc) h

theorem passesAt_of_below? (h : r.below? passes origin = some i) : r.passesAt passes i = true :=
  of_find?_cells (fun j => j < origin) (fun _ hc => List.mem_reverse.1 hc) h

theorem above?_eq_none (h : r.above? passes origin = none) (hi : origin < i) :
    r.passesAt passes i = false :=
  of_find?_cells_eq_none (fun j => origin < j) (fun _ hc => hc) h (decide_eq_true hi)

theorem below?_eq_none (h : r.below? passes origin = none) (hi : i < origin) :
    r.passesAt passes i = false :=
  of_find?_cells_eq_none (fun j => j < origin) (fun _ hc => List.mem_reverse.2 hc) h
    (decide_eq_true hi)

/-! ## both sides -/

theorem of_nearer {a b : Option Int} (h : nearer origin a b = some i) :
    a = some i ∨ b = some i := by
  cases a with
  | none => exact .inr h
  | some x =>
    cases b with
    | none => exact .inl h
    | some y =>
      rw [nearer] at h
      split at h
      · exact .inl h
      · exact .inr h

theorem nearer_eq_none {a b : Option Int} (h : nearer origin a b = none) : a = none ∧ b = none := by
  cases a with
  | none => exact ⟨rfl, h⟩
  | some x => cases b <;> cases h

theorem passesAt_of_nearest? {d : Direction} (h : r.nearest? passes origin d = some i) :
    r.passesAt passes i = true := by
  unfold nearest? at h
  split at h
  · next hp =>
    obtain rfl := Option.some.inj h
    exact hp
  · cases d with
    | darker => exact passesAt_of_above? h
    | lighter => exact passesAt_of_below? h
    | other w =>
      rcases of_nearer h with h | h
      · exact passesAt_of_above? h
      · exact passesAt_of_below? h

/-- a search on both sides misses nothing -/
theorem nearest?_other_eq_none {w : String} (h : r.nearest? passes origin (.other w) = none) :
    r.passesAt passes i = false := by
  rw [nearest?] at h
  split at h
  · cases h
  -- the origin, the steps below it and those above it are all steps
  · next hp =>
    obtain ⟨ha, hb⟩ := nearer_eq_none h
    rcases Int.lt_trichotomy i origin with hi | rfl | hi
    · exact below?_eq_none hb hi
    · exact Bool.not_eq_true _ ▸ hp
    · exact above?_eq_none ha hi

theorem passesAt_of_closest? {d : Direction} (h : r.closest? passes origin d = some i) :
    r.passesAt passes i = true := by
  rw [closest?] at h
  split at h
  · next hn => exact passesAt_of_nearest? (hn.trans h)
  · exact passesAt_of_nearest? h

theorem closest?_eq_none {d : Direction} :
    r.closest? passes origin d = none ↔ ∀ i, r.passesAt passes i = false := by
  constructor
  · intro h i
    rw [closest?] at h
    split at h
    · cases h
    · exact nearest?_other_eq_none h
  · intro h
    rw [Option.eq_none_iff_forall_ne_some]
    intro i hi
    have hp := passesAt_of_closest? hi
    rw [h i] at hp
    cases hp

/-! ## the step that is taken -/

theorem chosen?_mirrored {d : Direction} :
    r.chosen? passes default true true d = some (r.last - default) := rfl

theorem hasStep_of_chosen? {mirrored decorative : Bool} {d : Direction}
    (hd : r.hasStep default = true) (h : r.chosen? passes default mirrored decorative d = some i) :
    r.hasStep i = true := by
  have horigin : r.hasStep (if mirrored then r.last - default else default) = true := by
    cases mirrored with
    | true => exact hasStep_mirrored hd
    | false => exact hd
  rw [chosen?] at h
  generalize (if mirrored then r.last - default else default) = o at h horigin
  split at h
  · exact Option.some.inj h ▸ horigin
  · split at h
    · cases h
    · split at h
      · exact Option.some.inj h ▸ horigin
      · exact hasStep_of_passesAt (passesAt_of_closest? h)

/-- a color that is not exempt takes a step that passes, if there is one, and stays if there is
none -/
theorem passesAt_getD_chosen? (passes : Hex → Bool) (d : Direction) {mirrored decorative : Bool}
    (hd : r.hasStep default = true) (hx : (mirrored && decorative) = false) :
    (r.passesAt passes ((r.chosen? passes default mirrored decorative d).getD default) = true ↔
      ∃ i, r.passesAt passes i = true) ∧
    ((∀ i, r.passesAt passes i = false) →
      r.chosen? passes default mirrored decorative d = none) := by
  rw [chosen?, hx]
  simp only [Bool.false_eq_true, ↓reduceIte]
  rw [passesFrom_of_hasStep hd]
  by_cases hp : r.passesAt passes default = true
  -- a default step that passes stays
  · rw [if_pos hp]
    refine ⟨⟨fun _ => ⟨default, hp⟩, fun _ => hp⟩, fun _ => rfl⟩
  rw [if_neg hp]
  by_cases hm : (mirrored && r.passesFrom passes (if mirrored then r.last - default else default))
      = true
  -- where steps are mirrored, a mirrored step that passes is next
  · rw [if_pos hm]
    rw [Bool.and_eq_true] at hm
    obtain ⟨rfl, hm⟩ := hm
    rw [if_pos rfl] at hm ⊢
    rw [passesFrom_of_hasStep (hasStep_mirrored hd)] at hm
    refine ⟨⟨fun _ => ⟨_, hm⟩, fun _ => hm⟩, fun hn => ?_⟩
    rw [hn] at hm
    cases hm
  -- and otherwise the search, from wherever it starts, leaves no step out
  · rw [if_neg hm]
    refine ⟨⟨fun h => ⟨_, h⟩, ?_⟩, fun hn => closest?_eq_none.2 hn⟩
    rintro ⟨i, hi⟩
    cases hc : r.closest? passes (if mirrored then r.last - default else default) d with
    | some j => exact passesAt_of_closest? hc
    | none =>
      rw [closest?_eq_none.1 hc i] at hi
      cases hi

end Palette.Ramp
