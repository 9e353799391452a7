import Palette.Contrast.Engines
import Palette.Proofs.Number.Order

/-!
# Engines that compare a value with a requirement

Both engines of this library measure a value and let a color pass where it reaches what the context
requires. The value does not look at the level or the font size, and the requirement falls with
larger fonts and rises with the level.

* `Engine.Graded`   the engines that compare so;
* `Graded.passes_of_laxer`, `Graded.value_le_of_laxer`   what follows for two contexts, one of which
                    requires more;
* `Engines.graded`  the engines of this library are such ones.
-/

namespace Palette

/-! ## engines -/

/-- an engine that lets a color pass where its value reaches what the context needs -/
structure Engine.Graded {κ : Type} [LE κ] (e : Engine) (value : Evaluation → κ)
    (need : Context → κ) : Prop where
  passed (fg bg : Hex) (c : Context) :
    (e.evaluate fg bg c).passed = true ↔ need c ≤ value (e.evaluate fg bg c)
  /-- the value does not look at the level or the font size -/
  value_eq (fg bg : Hex) (c c' : Context) : c.target = c'.target →
    value (e.evaluate fg bg c) = value (e.evaluate fg bg c')
  level (px : Int) (t : Target) : need ⟨px, t, .aa⟩ ≤ need ⟨px, t, .aaa⟩
  size (px px' : Int) (t : Target) (l : Level) : px ≤ px' → need ⟨px', t, l⟩ ≤ need ⟨px, t, l⟩

namespace Engine.Graded
variable {κ : Type} [LE κ] [Scale κ] {e : Engine} {value : Evaluation → κ} {need : Context → κ}
variable (h : e.Graded value need) (c c' : Context) (ht : c.target = c'.target)
include h ht

/-- what passes in a context passes where less is needed -/
theorem passes_of_laxer (hn : need c' ≤ need c) {fg bg : Hex} (hp : e.passes bg c fg = true) :
    e.passes bg c' fg = true := by
  have hreach := (h.passed fg bg c).1 hp
  rw [h.value_eq fg bg c c' ht] at hreach
  exact (h.passed fg bg c').2 (Scale.trans hn hreach)

/-- Of two colors that pass, one where more is needed and one where less is, the second has no
greater value, unless it is a color that passes where more is needed too, and not the first. -/
theorem value_le_of_laxer {fg fg' bg : Hex} (hp : e.passes bg c fg = true)
    (hp' : e.passes bg c' fg' = true) (hfirst : e.passes bg c fg' = true → fg' = fg) :
    value (e.evaluate fg' bg c') ≤ value (e.evaluate fg bg c) := by
  have hreach := (h.passed fg bg c).1 hp
  have hreach' := (h.passed fg' bg c').1 hp'
  rcases Scale.total hreach hreach' with hle | hle
  · have hmore : e.passes bg c fg' = true := by
      refine (h.passed fg' bg c).2 ?_
      rw [h.value_eq fg' bg c c' ht]
      exact Scale.trans hreach hle
    obtain rfl := hfirst hmore
    rw [h.value_eq fg' bg c c' ht] at hle ⊢
    exact hle
  · exact hle

end Engine.Graded

/-! ## the engines of this library -/

section
variable {κ : Type} [LE κ] {p q : Prop} [Decidable p] [Decidable q] {a x y : κ}

theorem ite_le_of_imp (h : p → q) (ha : a ≤ a) (hx : y ≤ x) (hya : y ≤ a) :
    (if p then a else y) ≤ if q then a else x := by
  by_cases hp : p
  · rw [if_pos hp, if_pos (h hp)]
    exact ha
  · rw [if_neg hp]
    split
    · exact hya
    · exact hx

theorem ite_le_of_imp' (h : q → p) (ha : a ≤ a) (hx : x ≤ x) (hax : a ≤ x) :
    (if p then a else x) ≤ if q then a else x := by
  by_cases hq : q
  · rw [if_pos hq, if_pos (h hq)]
    exact ha
  · rw [if_neg hq]
    split
    · exact hax
    · exact hx

end

/-- an engine that measures two colors, unless every color passes for the target -/
structure Engine.Measures (e : Engine) (measure : Hex → Hex → Float)
    (required : Context → Float) : Prop where
  exempt {fg bg : Hex} {c : Context} : c.target = .decorative →
    e.evaluate fg bg c = Evaluation.exempt
  passed {fg bg : Hex} {c : Context} : c.target ≠ .decorative →
    (e.evaluate fg bg c).passed = decide (required c ≤ measure fg bg)
  value {fg bg : Hex} {c : Context} : c.target ≠ .decorative →
    (e.evaluate fg bg c).value = measure fg bg

/-- what a context needs, where every color passes for some targets -/
def Engine.needed (required : Context → Float) (c : Context) : Float :=
  if c.target = .decorative then 0.0 else required c

theorem Engine.Measures.graded {e : Engine} {measure : Hex → Hex → Float}
    {required : Context → Float} (h : e.Measures measure required)
    (level : ∀ px t, required ⟨px, t, .aa⟩ ≤ required ⟨px, t, .aaa⟩)
    (size : ∀ px px' t l, px ≤ px' → required ⟨px', t, l⟩ ≤ required ⟨px, t, l⟩) :
    e.Graded Evaluation.value (needed required) where
  passed fg bg c := by
    rw [needed]
    by_cases ht : c.target = .decorative
    · rw [if_pos ht, h.exempt ht]
      exact ⟨fun _ => by decide, fun _ => rfl⟩
    · rw [if_neg ht, h.passed ht, h.value ht]
      exact decide_eq_true_iff
  value_eq fg bg c c' ht := by
    by_cases hd : c.target = .decorative
    · rw [h.exempt hd, h.exempt (ht.symm.trans hd)]
    · rw [h.value hd, h.value fun hd' => hd (ht.trans hd')]
  level px t := by
    rw [needed, needed]
    split
    · decide
    · exact level px t
  size px px' t l hle := by
    rw [needed, needed]
    split
    · decide
    · exact size px px' t l hle

namespace Wcag

theorem measures : engine.Measures contrast required where
  exempt ht := if_pos ht
  passed ht := congrArg Evaluation.passed (if_neg ht)
  value ht := congrArg Evaluation.value (if_neg ht)

theorem required_level (px : Int) (t : Target) :
    required ⟨px, t, .aa⟩ ≤ required ⟨px, t, .aaa⟩ := by
  have htext : (if largePx ≤ px then 3.0 else 4.5 : Float) ≤
      if largePx ≤ px then 4.5 else 7.0 := by
    split <;> decide
  cases t with
  | text => exact htext
  | uiComponent =>
    show (3.0 : Float) ≤ 4.5
    decide
  | decorative => exact htext

theorem required_size (px px' : Int) (t : Target) (l : Level) (hle : px ≤ px') :
    required ⟨px', t, l⟩ ≤ required ⟨px, t, l⟩ := by
  have hlarge : largePx ≤ px → largePx ≤ px' := fun h => h.trans hle
  cases t with
  | uiComponent =>
    simp only [required]
    cases l.strict <;> decide
  | _ =>
    simp only [required]
    cases l.strict
    · exact ite_le_of_imp' hlarge (by decide) (by decide) (by decide)
    · exact ite_le_of_imp' hlarge (by decide) (by decide) (by decide)

end Wcag

namespace Apca

theorem measures : engine.Measures (fun fg bg => (contrast fg bg).1.abs) required where
  exempt ht := if_pos ht
  passed ht := congrArg Evaluation.passed (if_neg ht)
  value ht := congrArg Evaluation.value (if_neg ht)

theorem required_level (px : Int) (t : Target) :
    required ⟨px, t, .aa⟩ ≤ required ⟨px, t, .aaa⟩ := by
  have htext : (if px < 14 then 75.0 else if px < 24 then 60.0 else 45.0 : Float) ≤
      if px < 14 then 90.0 else if px < 24 then 75.0 else 60.0 := by
    split
    · decide
    · split <;> decide
  cases t with
  | text => exact htext
  | uiComponent =>
    show (30.0 : Float) ≤ 45.0
    decide
  | decorative => exact htext

theorem required_size (px px' : Int) (t : Target) (l : Level) (hle : px ≤ px') :
    required ⟨px', t, l⟩ ≤ required ⟨px, t, l⟩ := by
  have h14 : px' < 14 → px < 14 := hle.trans_lt
  have h24 : px' < 24 → px < 24 := hle.trans_lt
  have hsmall {a b c : Float} (ha : a ≤ a) (hb : b ≤ b) (hc : c ≤ c) (hba : b ≤ a) (hca : c ≤ a)
      (hcb : c ≤ b) : (if px' < 14 then a else if px' < 24 then b else c) ≤
        if px < 14 then a else if px < 24 then b else c := by
    refine ite_le_of_imp h14 ha (ite_le_of_imp h24 hb hc hcb) ?_
    split
    · exact hba
    · exact hca
  cases t with
  | uiComponent =>
    simp only [required]
    cases l.strict <;> decide
  | _ =>
    simp only [required]
    cases l.strict
    · exact hsmall (by decide) (by decide) (by decide) (by decide) (by decide) (by decide)
    · exact hsmall (by decide) (by decide) (by decide) (by decide) (by decide) (by decide)

end Apca

/-- the engines of this library compare a value with what a context needs -/
theorem Engines.graded {x : String × Engine} (hx : x ∈ builtin) :
    ∃ need, x.2.Graded Evaluation.value need := by
  rcases List.mem_cons.1 hx with rfl | hx
  · exact ⟨_, Wcag.measures.graded Wcag.required_level Wcag.required_size⟩
  · obtain rfl := List.mem_singleton.1 hx
    exact ⟨_, Apca.measures.graded Apca.required_level Apca.required_size⟩

end Palette
