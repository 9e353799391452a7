import Mathlib.Data.List.Nodup
import Palette.Proofs.Entries
import Palette.Proofs.Stylesheet.Selectors

/-!
# What elements make of a variable

An element with a stack stands inside one with a theme, and this one may stand inside one with a
vision. A variable has at an element what the blocks for this very element declare, those that name
the vision first, or else what it has at the element around it; around all is the root.

* `Block.find?_of_mem`, `Block.find?_append_last`   the declaration that counts in a block;
* `Stylesheet.declared?`   what the blocks of one selector make of a variable;
* `Stylesheet.shown?`      what a variable has inside a vision, a theme and a stack;
* `Showing.mem_blocks`     the blocks of a stylesheet, one family after the other.
-/

namespace Palette

/-! ## one block -/

namespace Block
variable {b : Block} {name : String} {v : Binding}

/-- where all declarations of a variable say the same, this is what counts -/
theorem find?_eq {o : Option Binding}
    (h : ∀ d ∈ b.declarations, d.name = name → o = some d.binding)
    (ho : o.isSome → ∃ d ∈ b.declarations, d.name = name) : b.find? name = o := by
  rw [find?]
  cases hf : b.declarations.reverse.find? fun d => d.name == name with
  | some d =>
    have hm := List.mem_reverse.1 (List.mem_of_find?_eq_some hf)
    have hn := List.find?_some hf
    exact (h d hm (eq_of_beq hn)).symm
  | none =>
    cases o with
    | none => rfl
    | some v =>
      obtain ⟨d, hd, hn⟩ := ho rfl
      have hne := List.find?_eq_none.1 hf d (List.mem_reverse.2 hd)
      rw [hn, BEq.rfl] at hne
      exact absurd rfl hne

theorem find?_of_mem (hb : (b.declarations.map Declaration.name).Nodup) {d : Declaration}
    (hd : d ∈ b.declarations) : b.find? d.name = some d.binding := by
  refine find?_eq (fun d' hd' hn => ?_) fun _ => ⟨d, hd, rfl⟩
  rw [List.inj_on_of_nodup_map hb hd' hd hn]

theorem find?_append_last {s : Selector} {ds : List Declaration} {d : Declaration} :
    Block.find? ⟨s, ds ++ [d]⟩ d.name = some d.binding := by
  rw [find?, List.reverse_append, List.reverse_singleton, List.singleton_append, List.find?_cons,
    BEq.rfl]
  rfl

theorem of?_eq_some {s : Selector} {ds : List Declaration} :
    of? s ds = some b ↔ ds ≠ [] ∧ b = ⟨s, ds⟩ := by
  rw [of?]
  cases ds with
  | nil => simp
  | cons d ds => simp [eq_comm]

end Block

/-! ## the blocks of one selector -/

namespace Stylesheet

/-- What the blocks of a selector make of a variable. Blocks are found by the texts of their
selectors, and the last block that declares the variable counts. -/
def declared? (blocks : List Block) (s : Selector) (name : String) : Option Binding :=
  (blocks.reverse.filter fun b => b.selector.text = s.text).findSome? fun b => b.find? name

/-- What a variable has inside a vision, if there is one, a theme and a stack. On each element the
block that names the vision comes before the one that does not. -/
def shown? (blocks : List Block) (vision : Option String) (theme stack name : String) :
    Option Binding :=
  let on (theme stack : Option String) : Option Binding :=
    (vision.bind fun m => declared? blocks ⟨some m, theme, stack⟩ name).or
      (declared? blocks ⟨none, theme, stack⟩ name)
  (on (some theme) (some stack)).or ((on (some theme) none).or (on none none))

variable {blocks : List Block} {s : Selector} {name : String}

/-- a selector whose blocks, if there are any, hold the same declarations -/
theorem declared?_eq (ds : List Declaration)
    (h : ∀ b ∈ blocks, b.selector.text = s.text → b = ⟨s, ds⟩)
    (hm : ds ≠ [] → ⟨s, ds⟩ ∈ blocks) : declared? blocks s name = Block.find? ⟨s, ds⟩ name := by
  have hall : ∀ b ∈ blocks.reverse.filter fun b => b.selector.text = s.text, b = ⟨s, ds⟩ := by
    intro b hb
    obtain ⟨hb, hs⟩ := List.mem_filter.1 hb
    exact h b (List.mem_reverse.1 hb) (of_decide_eq_true hs)
  rw [declared?]
  cases hf : blocks.reverse.filter fun b => b.selector.text = s.text with
  | nil =>
    have hds : ds = [] := by
      by_contra hne
      have hmem : (⟨s, ds⟩ : Block) ∈ blocks.reverse.filter fun b => b.selector.text = s.text :=
        List.mem_filter.2 ⟨List.mem_reverse.2 (hm hne), decide_eq_true rfl⟩
      rw [hf] at hmem
      exact absurd hmem List.not_mem_nil
    rw [hds]
    rfl
  | cons b bs =>
    rw [hf] at hall
    obtain rfl := hall b List.mem_cons_self
    cases hv : Block.find? ⟨s, ds⟩ name with
    | some v => rw [List.findSome?_cons, hv]
    | none =>
      rw [List.findSome?_eq_none_iff]
      intro b hb
      rw [hall b hb]
      exact hv

end Stylesheet

/-! ## the blocks of a stylesheet -/

namespace Showing
variable {q : Showing} {b : Block}

theorem mem_visionThemeBlocks {m : Deficiency} {theme : Atom} :
    b ∈ q.visionThemeBlocks m theme ↔
      q.visionBlock? m (some (word theme)) none (atBase theme) (atBase theme) = some b ∨
      ∃ stack ∈ q.layers, q.visionBlock? m (some (word theme)) (some (word stack))
        { atBase theme with stack } { atBase theme with stack } = some b := by
  rw [visionThemeBlocks, List.mem_append, Option.mem_toList, List.mem_filterMap]

theorem mem_visionBlocks {m : Deficiency} :
    b ∈ q.visionBlocks m ↔
      q.visionBlock? m none none (atBase q.defaultTheme) (atBase q.defaultTheme) = some b ∨
      ∃ t ∈ q.archive.themes, b ∈ q.visionThemeBlocks m t.1 := by
  rw [visionBlocks, List.mem_append, Option.mem_toList, List.mem_flatMap]

theorem mem_blocks :
    b ∈ q.blocks ↔ b = q.rootBlock ∨
      (∃ t ∈ q.archive.themes, t.1.differs q.defaultTheme = true ∧ b = q.themeBlock t) ∨
      (∃ t ∈ q.archive.themes, ∃ stack ∈ q.layers, q.stackBlock? t stack = some b) ∨
      ∃ m ∈ q.visions, b ∈ q.visionBlocks m := by
  simp only [blocks, List.mem_append, List.mem_singleton, List.mem_map, List.mem_filter,
    List.mem_flatMap, List.mem_filterMap, or_assoc, and_assoc, eq_comm]

end Showing
end Palette
