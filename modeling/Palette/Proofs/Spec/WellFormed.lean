import Palette.Archive.Basic
import Palette.Proofs.Spec.Names

/-!
# Steps that references lead to

Whatever compiles, with the check of the whole value or without it, has its ramps numbered from
zero, and everything that names a step of a ramp names one that is there. What a theme or a surface
keeps of its step is what the ramp has there, however far an offset would lead.

* `Ramp.Has`            a number of a step with the color and the luminance there;
* `Ramp.has_of_hasStep` every step of a ramp has the color there;
* `Spec.WellFormed`     ramps, themes, stacks and semantic colors;
* `Spec.wellFormed_of_compile`  whatever compiles is well formed.
-/

namespace Palette
open Outcome

/-- has a ramp, at a number, the step of this number, with a color and a luminance as stored? -/
def Ramp.Has (r : Ramp) (i : Int) (h : Hex) (luminance : Document) : Prop :=
  ∃ (n : Nat) (s : Step), i = n ∧ r.steps[n]? = some s ∧
    s.index = n ∧ s.hex = h ∧ .float s.luminance = luminance

namespace Ramp
variable {r : Ramp} {i : Int}

theorem index_steps (r : Ramp) : r.steps.map Step.index = List.range r.steps.length := by
  refine List.ext_getElem (by simp) fun n _ _ => ?_
  simp [steps]

theorem getElem?_steps {n : Nat} (hn : n < r.colors.length) :
    r.steps[n]? = some ⟨n, r.colors[n], r.colors[n].oklch, r.colors[n].luminance⟩ := by
  rw [steps, List.getElem?_mapIdx, List.getElem?_eq_getElem hn, Option.map_some]

theorem has_of_hasStep (h : r.hasStep i = true) :
    r.Has i (r.color i) (.float (r.color i).luminance) := by
  obtain ⟨h0, hlt⟩ := (r.hasStep_iff i).1 h
  obtain ⟨n, rfl⟩ := Int.eq_ofNat_of_zero_le h0
  have hn : n < r.colors.length := Int.ofNat_lt.1 hlt
  have hcolor : r.color n = r.colors[n] := by simp [color, color?, hn]
  rw [hcolor]
  exact ⟨n, _, rfl, getElem?_steps hn, rfl, rfl, rfl⟩

end Ramp

namespace Spec

/-- a specification whose references lead to steps, with a surface of each theme for each stack -/
structure WellFormed (p : Spec) : Prop where
  steps : ∀ r ∈ p.ramps, r.2.steps.map Step.index = List.range r.2.steps.length
  theme : ∀ t ∈ p.themes, ∃ r, p.ramps.lookup t.2.ramp = some r ∧
    r.Has t.2.step.index t.2.hex t.2.stored.luminance ∧ t.2.surfaces.keys = p.layers.keys ∧
    ∀ u ∈ t.2.surfaces, r.Has u.2.step u.2.hex u.2.stored.luminance
  layers : p.layers.Distinct
  root : ∃ others, p.layers = (Stacks.base, 0) :: others
  semantic : ∀ t ∈ p.semantics, t.2.Fits p.ramps

theorem theme_of_fits {ramps : Ramps} {layers : Stacks} {t : Theme} (h : t.Fits ramps layers) :
    ∃ r, ramps.lookup t.ramp = some r ∧ r.Has t.step.index t.hex t.stored.luminance ∧
      t.surfaces.keys = layers.keys ∧
      ∀ u ∈ t.surfaces, r.Has u.2.step u.2.hex u.2.stored.luminance := by
  have hkeys := h.keys_surfaces
  obtain ⟨r, step, hr, hstep, ht⟩ := h
  have hpos : 0 < r.length := by
    have hbounds := (r.hasStep_iff _).1 hstep
    omega
  rw [ht] at hkeys ⊢
  refine ⟨r, hr, Ramp.has_of_hasStep hstep, hkeys, fun u hu => ?_⟩
  obtain ⟨s, _, rfl⟩ := List.mem_map.1 hu
  exact Ramp.has_of_hasStep (r.clamp_mem _ hpos)

theorem Coherent.wellFormed {p : Spec} (hp : p.Coherent)
    (hroot : ∃ others, p.layers = (Stacks.base, 0) :: others) : p.WellFormed where
  steps := fun r _ => r.2.index_steps
  theme := fun t ht => theme_of_fits (hp.theme t ht).2
  layers := hp.distinct_layers
  root := hroot
  semantic := hp.semantic

/-- whatever compiles, with the check or without it, is well formed -/
theorem wellFormed_of_compile {d : Document} (hd : d.isKeyed = true) {p : Spec}
    (h : compile d = .ok p ∨ compileUnchecked d = .ok p) : p.WellFormed := by
  have hc : compileUnchecked d = .ok p := by
    rcases h with h | h
    · obtain ⟨_, _, h⟩ := bind_ok.1 h
      exact h
    · exact h
  obtain ⟨texts, parts, hr⟩ := read_of_compileUnchecked hc
  exact (hr.coherent hd).wellFormed (Stacks.root_of_ofDocument hr.layers)

end Spec

/-- a value that the check refuses: offsets beyond both ends of the ramp, truth values for steps,
and filters that name no theme -/
def Sample.steep : Document := .record [
  ("primitives", .record [
    ("gray", .list [.text "#000000", .text "#777777", .text "#ffffff"]),
    ("sand", .list [.text "#ffffff", .text "#000000"])]),
  ("themes", .record [
    ("day", .record [("ramp", .text "gray"), ("step", .bool true), ("aliases", .text "noon")])]),
  ("foreground", .record [
    ("a", .record [("ramp", .text "gray"), ("defaultStep", .int 1),
      ("interactions", .record [("hover", .record [("step", .bool false),
        ("overrides", .list [.record [("bg", .text "dusk"), ("step", .int 2)]])])]),
      ("vision", .record [("dusk", .record [("ramp", .text "sand"),
        ("overrides", .list [.record [("bg", .list []), ("step", .int 0)]])])])])]),
  ("config", .record [
    ("stacks", .record [("attic", .int 9), ("root", .bool false), ("cellar", .float (-7.5))])])]

/-- it compiles without the check, and its surfaces are held on the ramp -/
theorem Spec.wellFormed_of_compile_steep :
    isValid Sample.steep = false ∧ ∃ p, compileUnchecked Sample.steep = .ok p ∧ p.WellFormed ∧
      p.layers.keys = [.text "root", .text "attic", .text "cellar"] ∧
      p.themes.map (fun t => t.2.surfaces.map fun u => u.2.step) = [[1, 2, 0]] := by
  have hs : (compileUnchecked Sample.steep).toOption.isSome = true := by decide
  have hc := eq_ok_get hs
  have hkeyed : Sample.steep.isKeyed = true := by decide
  exact ⟨by decide, _, hc, wellFormed_of_compile hkeyed (.inr hc), rfl, rfl⟩

end Palette
