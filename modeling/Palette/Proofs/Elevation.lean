import Mathlib
import Palette.Document.Edit
import Palette.Proofs.Spec.Misfit

/-!
# Surfaces follow elevation

The surface of a stack is the base step of the theme moved by the offset of the stack, and held on
the ramp. Themes past the middle of their ramp rise toward its first step, the others toward its
last one. A ramp that is turned around turns the surfaces around with it, unless the base lies
exactly in the middle: then both themes rise toward the last step.

* `Stacks.ofDocument_offsets`   the stacks of whole offsets;
* `Ramp.Held`                   a number where it is a step, or else the nearest end;
* `Theme.Read`, `Theme.ofDocument_eq_ok_iff`   what is read of a theme;
* `Theme.Rises`                 the surfaces of a theme, as its stacks rise;
* `Ramp.reversed`, `Theme.surfaceOf_reversed`  a ramp turned around, and the surfaces on it;
* `Theme.surfaces_follow`       the surfaces of every theme.
-/

namespace Palette
open Outcome

/-! ## stacks -/

/-- whole offsets are taken as they are, the base level first; it may be left out, or be zero -/
theorem Stacks.ofDocument_offsets {offsets : Entries Atom Int} (hne : offsets ≠ [])
    {layers : Stacks} :
    Stacks.ofDocument (some (.map (offsets.map fun e => (e.1, .int e.2)))) = .ok layers ↔
      (offsets.lookup base).getD 0 = 0 ∧
        layers = (base, 0) :: offsets.filter fun e => !(e.1 == base) := by
  have htruthy : (Document.map (offsets.map fun e => (e.1, .int e.2))).truthy = true := by
    cases offsets with
    | nil => exact absurd rfl hne
    | cons e es => rfl
  have hroot : ((offsets.map fun e => (e.1, Document.int e.2)).lookup base).getD (.int 0) =
      .int ((offsets.lookup base).getD 0) := by
    rw [Entries.lookup_map]
    cases offsets.lookup base <;> rfl
  have hwhole : ((offsets.map fun e => (e.1, Document.int e.2)).filter fun e =>
      !(e.1 == base)).mapM (fun m => do return (m.1, ← m.2.whole)) =
        (.ok (offsets.filter fun e => !(e.1 == base)) : Except Fault Stacks) := by
    rw [List.filter_map, mapM_ok, List.forall₂_map_left_iff]
    exact List.forall₂_same.2 fun _ _ => rfl
  show (if _ = true then _ else _) = _ ↔ _
  rw [if_pos htruthy]
  show ofMembers _ = _ ↔ _
  rw [ofMembers]
  simp only [hroot, hwhole]
  rw [← Spec.same_int]
  cases (Document.int ((offsets.lookup base).getD 0)).same (.int 0) with
  | false =>
    constructor
    · intro h
      cases h
    · rintro ⟨h, _⟩
      cases h
  | true => exact ⟨fun h => ⟨rfl, (Except.ok.inj h).symm⟩, fun h => congrArg Except.ok h.2.symm⟩

/-! ## themes that are read -/

/-- what is read of a theme on a ramp -/
structure Theme.Read (name : Atom) (d : Document) (ramps : Ramps) (layers : Stacks) (r : Ramp)
    (t : Theme) : Prop where
  ramp : ∃ n, d.get "ramp" = .ok (some (.text n)) ∧ ramps.lookup (.text n) = some r
  step : ∃ v, d.get "step" = .ok (some v) ∧ Choice.ofDocument? v = some t.step ∧
    r.hasStep t.step.index = true
  fallback : ∃ o, d.get "fallback" = .ok o ∧ Document.elementsOf o = .ok t.fallback
  aliases : ∃ o, d.get "aliases" = .ok o ∧ Document.elementsOf o = .ok t.aliases
  theme : t = .ofStep name r t.step layers t.fallback t.aliases

theorem Ramps.require_eq_ok_iff {ramps : Ramps} {owner : String} {name : Option Document}
    {r : Ramp} :
    ramps.require owner name = .ok r ↔
      ∃ n, name = some (.text n) ∧ ramps.lookup (.text n) = some r := by
  have hfound : (name.bind Document.text?).bind (fun n => ramps.lookup (.text n)) = some r ↔
      ∃ n, name = some (.text n) ∧ ramps.lookup (.text n) = some r := by
    rw [Option.bind_eq_some_iff]
    refine exists_congr fun n => and_congr_left' ?_
    cases name with
    | none =>
      constructor
      · intro h
        cases h
      · intro h
        cases h
    | some d => cases d <;> simp [Document.text?]
  rw [← hfound, require]
  split
  · next r' hr => rw [hr, Except.ok.injEq, Option.some.injEq]
  · next hr =>
    rw [hr]
    constructor
    · intro h
      cases h
    · intro h
      cases h

theorem Theme.ofDocument_eq_ok_iff {name : Atom} {d : Document} {ramps : Ramps} {layers : Stacks}
    {t : Theme} :
    Theme.ofDocument name d ramps layers = .ok t ↔ ∃ r, Theme.Read name d ramps layers r t := by
  constructor
  · intro h
    obtain ⟨o, ho, h⟩ := bind_ok.1 h
    obtain ⟨r, hr, h⟩ := bind_ok.1 h
    obtain ⟨v, hv, h⟩ := bind_ok.1 h
    obtain ⟨step, hs, h⟩ := bind_ok.1 h
    obtain ⟨f, hf, h⟩ := bind_ok.1 h
    obtain ⟨fallback, hfallback, h⟩ := bind_ok.1 h
    obtain ⟨a, ha, h⟩ := bind_ok.1 h
    obtain ⟨aliases, haliases, h⟩ := bind_ok.1 h
    obtain rfl := pure_ok.1 h
    obtain ⟨n, rfl, hn⟩ := Ramps.require_eq_ok_iff.1 hr
    obtain ⟨hstep, hon⟩ := (r.require_eq_ok_iff _ _ step).1 hs
    obtain ⟨v, rfl, hstep⟩ := Option.bind_eq_some_iff.1 hstep
    exact ⟨r, ⟨n, ho, hn⟩, ⟨v, hv, hstep, hon⟩, ⟨f, hf, hfallback⟩, ⟨a, ha, haliases⟩, rfl⟩
  · rintro ⟨r, ⟨n, ho, hn⟩, ⟨v, hv, hstep, hon⟩, ⟨f, hf, hfallback⟩, ⟨a, ha, haliases⟩, ht⟩
    refine bind_ok.2 ⟨_, ho, bind_ok.2 ⟨r, Ramps.require_eq_ok_iff.2 ⟨n, rfl, hn⟩, ?_⟩⟩
    refine bind_ok.2 ⟨_, hv, bind_ok.2 ⟨t.step, (r.require_eq_ok_iff _ _ _).2 ⟨hstep, hon⟩, ?_⟩⟩
    refine bind_ok.2 ⟨f, hf, bind_ok.2 ⟨t.fallback, hfallback, ?_⟩⟩
    exact bind_ok.2 ⟨a, ha, bind_ok.2 ⟨t.aliases, haliases, pure_ok.2 ht.symm⟩⟩

/-! ## steps of surfaces -/

/-- a number where it is a step, or else the nearest end of the ramp -/
structure Ramp.Held (r : Ramp) (i j : Int) : Prop where
  within : 0 ≤ i → i ≤ r.last → j = i
  below : i < 0 → j = 0
  above : r.last < i → j = r.last

theorem Ramp.held_clamp {r : Ramp} (hr : 0 ≤ r.last) (i : Int) : r.Held i (r.clamp i) := by
  constructor <;> rw [clamp] <;> omega

theorem Ramp.clamp_mono (r : Ramp) : Monotone r.clamp :=
  fun _ _ h => max_le_max_left 0 (min_le_min_left r.last h)

/-- the surfaces of a theme on a ramp, as its stacks rise -/
structure Theme.Rises (t : Theme) (r : Ramp) (layers : Stacks) (rise : Int → Int) : Prop where
  surfaces : t.surfaces = layers.map fun s => (s.1, ⟨rise s.2, r.color (rise s.2)⟩)
  base : rise 0 = t.step.index
  hex : t.hex = r.color t.step.index
  within (k : Int) : 0 ≤ rise k ∧ rise k ≤ r.last
  elevation : t.elevation = .lighter ↔ (r.last : ℚ) / 2 < t.step.index
  lighter : t.elevation = .lighter → Antitone rise ∧ ∀ k, r.Held (t.step.index - k) (rise k)
  darker : t.elevation = .darker → Monotone rise ∧ ∀ k, r.Held (t.step.index + k) (rise k)

theorem Elevation.ofStep_eq_lighter_iff {r : Ramp} {i : Int} :
    Elevation.ofStep r i = .lighter ↔ (r.last : ℚ) / 2 < i := by
  rw [div_lt_iff₀ two_pos, mul_comm, Elevation.ofStep]
  norm_cast
  split <;> simp_all

theorem Theme.Read.rises {name : Atom} {d : Document} {ramps : Ramps} {layers : Stacks} {r : Ramp}
    {t : Theme} (h : Theme.Read name d ramps layers r t) :
    t.Rises r layers fun k => (Theme.surfaceOf r t.step.index k).step := by
  obtain ⟨_, _, _, hon⟩ := h.step
  have hbounds := (r.hasStep_iff _).1 hon
  have hlast : r.last = r.length - 1 := rfl
  have helevation : t.elevation = .ofStep r t.step.index := by rw [h.theme]; rfl
  have hstep (k : Int) : (surfaceOf r t.step.index k).step =
      r.clamp (t.step.index + t.elevation.sign * k) := by rw [helevation]; rfl
  simp only [hstep]
  exact {
    surfaces := by
      conv_lhs => rw [h.theme]
      rw [helevation]
      rfl
    base := by
      rw [mul_zero, add_zero]
      exact r.clamp_of_hasStep _ hon
    hex := by rw [h.theme]; rfl
    within := fun k => by
      rw [Ramp.clamp]
      omega
    elevation := by
      rw [helevation]
      exact Elevation.ofStep_eq_lighter_iff
    lighter := fun hl => by
      have hsign (k : Int) : t.step.index + t.elevation.sign * k = t.step.index - k := by
        rw [hl, Elevation.sign]
        omega
      simp only [hsign]
      refine ⟨fun i j hij => r.clamp_mono ?_, fun k => Ramp.held_clamp (by omega) _⟩
      omega
    darker := fun hd => by
      have hsign (k : Int) : t.step.index + t.elevation.sign * k = t.step.index + k := by
        rw [hd, Elevation.sign]
        omega
      simp only [hsign]
      refine ⟨fun i j hij => r.clamp_mono ?_, fun k => Ramp.held_clamp (by omega) _⟩
      omega }

/-! ## ramps turned around -/

def Ramp.reversed (r : Ramp) : Ramp := { r with colors := r.colors.reverse }

def Ramps.reversed (ramps : Ramps) : Ramps := ramps.map fun e => (e.1, e.2.reversed)

section
variable {r r' : Ramp} (hr : r'.colors = r.colors.reverse)
include hr

theorem Ramp.length_reversed : r'.length = r.length := by
  rw [length, length, hr, List.length_reverse]

theorem Ramp.last_reversed : r'.last = r.last := by
  rw [last, last, length_reversed hr]

theorem Ramp.clamp_reversed (hlast : 0 ≤ r.last) (i : Int) :
    r'.clamp (r.last - i) = r.last - r.clamp i := by
  rw [clamp, clamp, last_reversed hr]
  omega

theorem Ramp.color_reversed {i : Int} (hi : r.hasStep i = true) :
    r'.color (r.last - i) = r.color i := by
  obtain ⟨h0, hlt⟩ := (r.hasStep_iff i).1 hi
  have hlast : r.last = r.colors.length - 1 := rfl
  have hlength : r.length = r.colors.length := rfl
  have hplace : (r.last - i).toNat < r.colors.length := by omega
  have hback : r.colors.length - 1 - (r.last - i).toNat = i.toNat := by omega
  rw [color, color, color?, color?, if_pos h0, if_pos (by omega), hr, List.getElem?_reverse hplace,
    hback]

theorem Theme.surfaceOf_reversed {step : Int} (hstep : r.hasStep step = true)
    (hmiddle : 2 * step ≠ r.last) (k : Int) :
    surfaceOf r' (r.last - step) k =
      ⟨r.last - (surfaceOf r step k).step, (surfaceOf r step k).hex⟩ := by
  have hbounds := (r.hasStep_iff _).1 hstep
  have hlast : r.last = r.length - 1 := rfl
  -- off the middle, the two themes rise toward the same colors
  have hsign : (Elevation.ofStep r' (r.last - step)).sign = -(Elevation.ofStep r step).sign := by
    rw [Elevation.ofStep, Elevation.ofStep, Ramp.last_reversed hr]
    split <;> split <;> first | rfl | omega
  have hmoved : r.last - step + (Elevation.ofStep r' (r.last - step)).sign * k =
      r.last - (step + (Elevation.ofStep r step).sign * k) := by
    rw [hsign, Int.neg_mul]
    omega
  have hon := r.clamp_mem (step + (Elevation.ofStep r step).sign * k) (by omega)
  rw [surfaceOf, surfaceAt, hmoved]
  simp only [Ramp.clamp_reversed hr (by omega : 0 ≤ r.last), Ramp.color_reversed hr hon]
  rfl

/-- the surfaces of two themes whose ramps and bases are turned around -/
theorem Theme.Read.surfaces_reversed {name name' : Atom} {d d' : Document} {ramps ramps' : Ramps}
    {layers : Stacks} {t t' : Theme} (h : Theme.Read name d ramps layers r t)
    (h' : Theme.Read name' d' ramps' layers r' t') (hstep : t'.step.index = r.last - t.step.index)
    (hmiddle : 2 * t.step.index ≠ r.last) :
    t'.surfaces = t.surfaces.map fun u => (u.1, ⟨r.last - u.2.step, u.2.hex⟩) := by
  obtain ⟨_, _, _, hon⟩ := h.step
  rw [h.theme, h'.theme]
  show surfacesOf r' t'.step.index layers = (surfacesOf r t.step.index layers).map _
  rw [surfacesOf, surfacesOf, List.map_map, hstep]
  refine List.map_congr_left fun s _ => ?_
  rw [Theme.surfaceOf_reversed hr hon hmiddle]
  rfl

end

/-- what is read with another base step, where ramps are turned around -/
theorem Theme.Read.exists_reversed {name : Atom} {d : Document} {ramps : Ramps} {layers : Stacks}
    {r : Ramp} {t : Theme} (h : Theme.Read name d ramps layers r t) :
    ∃ d' t', d.withPart (.text "step") (.int (r.last - t.step.index)) = .ok d' ∧
      Theme.Read name d' ramps.reversed layers r.reversed t' ∧
      t'.step.index = r.last - t.step.index := by
  obtain ⟨n, hn, hr⟩ := h.ramp
  obtain ⟨_, _, _, hon⟩ := h.step
  obtain ⟨f, hf, hfallback⟩ := h.fallback
  obtain ⟨a, ha, haliases⟩ := h.aliases
  cases d with
  | map ms =>
    let step : Choice := .number (r.last - t.step.index)
    have hother {k : String} (hk : k ≠ "step") :
        (Document.map (Entries.put (.text "step") (.int (r.last - t.step.index)) ms)).get k =
          (Document.map ms).get k := by
      show Except.ok (List.lookup _ _) = _
      rw [Entries.lookup_put, Atom.text_beq, beq_false_of_ne hk.symm]
      rfl
    refine ⟨_, .ofStep name r.reversed step layers t.fallback t.aliases, rfl, ?_, rfl⟩
    exact {
      ramp := ⟨n, (hother (by decide)).trans hn, by
        rw [Ramps.reversed, Entries.lookup_map, hr]
        rfl⟩
      step := ⟨.int (r.last - t.step.index), by
        show Except.ok (List.lookup _ _) = _
        rw [Entries.lookup_put, Atom.text_beq, beq_self_eq_true, if_pos rfl], rfl, by
        have hbounds := (r.hasStep_iff _).1 hon
        have hlast : r.last = r.length - 1 := rfl
        show r.reversed.hasStep (r.last - t.step.index) = true
        rw [Ramp.hasStep_iff, Ramp.length_reversed rfl]
        omega⟩
      fallback := ⟨f, (hother (by decide)).trans hf, hfallback⟩
      aliases := ⟨a, (hother (by decide)).trans ha, haliases⟩
      theme := rfl }
  | _ => cases hn

/-- The surfaces of every theme, with any whole offsets that are accepted. The base level is at zero
and comes first, the declared levels follow with their offsets; each of them has one surface, whose
step goes from the base toward one end of the ramp as far as the offset says, or to the end. On the
ramp turned around, with the base counted from its other end, each step is counted from there too,
unless the base lies exactly in the middle. -/
theorem Theme.surfaces_follow {offsets : Entries Atom Int} (hne : offsets ≠ []) {layers : Stacks}
    (hl : Stacks.ofDocument (some (.map (offsets.map fun e => (e.1, .int e.2)))) = .ok layers)
    {name : Atom} {d : Document} {ramps : Ramps} {t : Theme}
    (ht : Theme.ofDocument name d ramps layers = .ok t) :
    layers = (Stacks.base, 0) :: offsets.filter (fun e => !(e.1 == Stacks.base)) ∧
    ∃ r, (∃ n, d.get "ramp" = .ok (some (.text n)) ∧ ramps.lookup (.text n) = some r) ∧
      (∃ rise, t.Rises r layers rise) ∧
      (∃ d' t', d.withPart (.text "step") (.int (r.last - t.step.index)) = .ok d' ∧
        Theme.ofDocument name d' ramps.reversed layers = .ok t' ∧
        t'.step.index = r.last - t.step.index) ∧
      ∀ {name' : Atom} {d' : Document} {ramps' : Ramps} {n' : String} {r' : Ramp} {t' : Theme},
        Theme.ofDocument name' d' ramps' layers = .ok t' →
        d'.get "ramp" = .ok (some (.text n')) → ramps'.lookup (.text n') = some r' →
        r'.colors = r.colors.reverse → t'.step.index = r.last - t.step.index →
        2 * t.step.index ≠ r.last →
        t'.surfaces = t.surfaces.map fun u => (u.1, ⟨r.last - u.2.step, u.2.hex⟩) := by
  obtain ⟨r, hr⟩ := Theme.ofDocument_eq_ok_iff.1 ht
  obtain ⟨_, hlayers⟩ := (Stacks.ofDocument_offsets hne).1 hl
  obtain ⟨d', t', hd', hr', hstep'⟩ := hr.exists_reversed
  refine ⟨hlayers, r, hr.ramp, ⟨_, hr.rises⟩, ⟨d', t', hd', ?_, hstep'⟩, ?_⟩
  · exact Theme.ofDocument_eq_ok_iff.2 ⟨_, hr'⟩
  · intro name' d' ramps' n' r' t' ht' hn' hfound hcolors hstep hmiddle
    obtain ⟨r₀, hr₀⟩ := Theme.ofDocument_eq_ok_iff.1 ht'
    obtain ⟨n₀, hn₀, hfound₀⟩ := hr₀.ramp
    obtain rfl : n' = n₀ := Document.text.inj (Option.some.inj (Except.ok.inj (hn'.symm.trans hn₀)))
    obtain rfl := Option.some.inj (hfound.symm.trans hfound₀)
    exact hr.surfaces_reversed hcolors hr₀ hstep hmiddle

/-- offsets far beyond both ends of a ramp, on a theme past its middle and on the ramp turned
around -/
theorem Theme.surfaces_follow_steep :
    let offsets : Entries Atom Int := [(.text "attic", 9), (.text "root", 0), (.text "cellar", -7)]
    let gray : Ramp := ⟨.text "gray", [⟨0, 0, 0⟩, ⟨85, 85, 85⟩, ⟨170, 170, 170⟩, ⟨255, 255, 255⟩]⟩
    let theme (step : Int) := Document.record [("ramp", .text "gray"), ("step", .int step)]
    ∃ layers t t',
      Stacks.ofDocument (some (.map (offsets.map fun e => (e.1, .int e.2)))) = .ok layers ∧
      Theme.ofDocument (.text "night") (theme 2) [(.text "gray", gray)] layers = .ok t ∧
      Theme.ofDocument (.text "day") (theme 1) [(.text "gray", gray.reversed)] layers = .ok t' ∧
      layers = [(.text "root", 0), (.text "attic", 9), (.text "cellar", -7)] ∧
      t.surfaces.map (fun u => u.2.step) = [2, 0, 3] ∧
      t'.surfaces.map (fun u => u.2.step) = [1, 3, 0] := by
  intro offsets gray theme
  let layers : Stacks := [(.text "root", 0), (.text "attic", 9), (.text "cellar", -7)]
  have hl : Stacks.ofDocument (some (.map (offsets.map fun e => (e.1, .int e.2)))) = .ok layers :=
    (Stacks.ofDocument_offsets (List.cons_ne_nil _ _)).2 ⟨rfl, rfl⟩
  have ht : (Theme.ofDocument (.text "night") (theme 2) [(.text "gray", gray)]
      layers).toOption.isSome = true := by decide
  have ht' : (Theme.ofDocument (.text "day") (theme 1) [(.text "gray", gray.reversed)]
      layers).toOption.isSome = true := by decide
  obtain ⟨hlayers, r, ⟨n, hn, hr⟩, _, _, hturned⟩ :=
    Theme.surfaces_follow (List.cons_ne_nil _ _) hl (eq_ok_get ht)
  obtain rfl := Document.text.inj (Option.some.inj (Except.ok.inj hn))
  obtain rfl : gray = r := Option.some.inj hr
  refine ⟨_, _, _, hl, eq_ok_get ht, eq_ok_get ht', hlayers, rfl, ?_⟩
  have hmiddle : (2 * 2 : Int) ≠ gray.last := by decide
  rw [hturned (eq_ok_get ht') rfl rfl rfl rfl hmiddle]
  rfl

end Palette
