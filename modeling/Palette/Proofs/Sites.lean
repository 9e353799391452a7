import Palette.Proofs.Spec.Coherent
import Palette.Registry.Build

/-!
# Sites of a specification

The sites are the product of themes, stacks and font sizes, each with the surface of its theme.

* `Site.mem_list`          which sites there are;
* `Site.pairwise_setting`  no two sites have one setting, where no name is there twice;
* `exists_site`, `length_sites`   a coherent specification has a site for each theme, stack and
                           font size, and no others.
-/

namespace Palette

theorem Setting.beq_eq_false {a b : Setting Atom} :
    (a == b) = false ↔ (a.theme == b.theme) = false ∨ (a.fontSize == b.fontSize) = false ∨
      (a.stack == b.stack) = false := by
  show (a.theme == b.theme && a.fontSize == b.fontSize && a.stack == b.stack) = false ↔ _
  simp only [Bool.and_eq_false_iff, or_assoc]

/-- rows of one length, one after the other -/
theorem length_flatMap_of_forall {α β : Type} {l : List α} {f : α → List β} {n : Nat}
    (h : ∀ a ∈ l, (f a).length = n) : (l.flatMap f).length = l.length * n := by
  induction l with
  | nil => rw [List.flatMap_nil, List.length_nil, List.length_nil, Nat.zero_mul]
  | cons a l ih =>
    rw [List.flatMap_cons, List.length_append, h a List.mem_cons_self,
      ih fun b hb => h b (List.mem_cons_of_mem _ hb), List.length_cons, Nat.succ_mul, Nat.add_comm]

/-- rows whose elements are all kept or all dropped -/
theorem filter_flatMap_of_forall {α β : Type} {l : List α} {f : α → List β} {q : β → Bool}
    {p : α → Bool} (h : ∀ a ∈ l, ∀ b ∈ f a, q b = p a) :
    (l.flatMap f).filter q = (l.filter p).flatMap f := by
  induction l with
  | nil => rfl
  | cons a l ih =>
    have ha := h a List.mem_cons_self
    rw [List.flatMap_cons, List.filter_append, ih fun b hb => h b (List.mem_cons_of_mem a hb),
      List.filter_cons]
    cases hp : p a with
    | true =>
      rw [hp] at ha
      rw [List.filter_eq_self.2 ha, if_pos rfl, List.flatMap_cons]
    | false =>
      rw [hp] at ha
      rw [List.filter_eq_nil_iff.2 fun b hb => Bool.eq_false_iff.1 (ha b hb),
        if_neg Bool.false_ne_true, List.nil_append]

namespace Site

/-- the sites of a theme at a stack -/
def atStack (fontSizes : List Atom) (name : Atom) (t : Theme) (k : Atom) : List Site :=
  match t.surfaces.lookup k with
  | some u => fontSizes.map fun f => ⟨name, t, k, u, f⟩
  | none => []

theorem ofTheme_eq (layers fontSizes : List Atom) (name : Atom) (t : Theme) :
    ofTheme layers fontSizes name t = layers.flatMap (atStack fontSizes name t) := rfl

theorem mem_atStack {fontSizes : List Atom} {name : Atom} {t : Theme} {k : Atom} {s : Site} :
    s ∈ atStack fontSizes name t k ↔
      s.themeName = name ∧ s.theme = t ∧ s.stack = k ∧
        t.surfaces.lookup s.stack = some s.surface ∧ s.fontSize ∈ fontSizes := by
  obtain ⟨n, t', k', u', f⟩ := s
  rw [atStack]
  cases hu : t.surfaces.lookup k with
  | none =>
    refine ⟨fun h => absurd h List.not_mem_nil, ?_⟩
    rintro ⟨_, _, rfl, h, _⟩
    rw [hu] at h
    cases h
  | some u =>
    rw [List.mem_map]
    constructor
    · rintro ⟨f', hf, h⟩
      cases h
      exact ⟨rfl, rfl, rfl, hu, hf⟩
    · rintro ⟨rfl, rfl, rfl, h, hf⟩
      obtain rfl := Option.some.inj (hu.symm.trans h)
      exact ⟨f, hf, rfl⟩

theorem mem_ofTheme {layers fontSizes : List Atom} {name : Atom} {t : Theme} {s : Site} :
    s ∈ ofTheme layers fontSizes name t ↔
      s.themeName = name ∧ s.theme = t ∧ s.stack ∈ layers ∧
        t.surfaces.lookup s.stack = some s.surface ∧ s.fontSize ∈ fontSizes := by
  rw [ofTheme_eq, List.mem_flatMap]
  constructor
  · rintro ⟨k, hk, hs⟩
    obtain ⟨hn, ht, rfl, hu, hf⟩ := mem_atStack.1 hs
    exact ⟨hn, ht, hk, hu, hf⟩
  · rintro ⟨hn, ht, hk, hu, hf⟩
    exact ⟨s.stack, hk, mem_atStack.2 ⟨hn, ht, rfl, hu, hf⟩⟩

theorem mem_list {themes : Entries Atom Theme} {layers fontSizes : List Atom} {s : Site} :
    s ∈ list themes layers fontSizes ↔
      (s.themeName, s.theme) ∈ themes ∧ s.stack ∈ layers ∧
        s.theme.surfaces.lookup s.stack = some s.surface ∧ s.fontSize ∈ fontSizes := by
  rw [list, List.mem_flatMap]
  constructor
  · rintro ⟨⟨n, t⟩, ht, hs⟩
    obtain ⟨rfl, rfl, h⟩ := mem_ofTheme.1 hs
    exact ⟨ht, h⟩
  · rintro ⟨ht, h⟩
    exact ⟨_, ht, mem_ofTheme.2 ⟨rfl, rfl, h⟩⟩

/-- the sites of one theme -/
theorem filter_list (themes : Entries Atom Theme) (layers fontSizes : List Atom) (name : Atom) :
    (list themes layers fontSizes).filter (fun s => s.themeName == name) =
      list (themes.filter fun t => t.1 == name) layers fontSizes :=
  filter_flatMap_of_forall fun _ _ _ hs => by rw [(mem_ofTheme.1 hs).1]

theorem pairwise_setting {themes : Entries Atom Theme} (ht : themes.Distinct)
    {layers : List Atom} (hl : layers.Pairwise fun a b => (a == b) = false)
    {fontSizes : List Atom} (hf : fontSizes.Pairwise fun a b => (a == b) = false) :
    (list themes layers fontSizes).Pairwise fun a b => (a.setting == b.setting) = false := by
  rw [list, List.pairwise_flatMap]
  constructor
  · rintro ⟨n, t⟩ _
    rw [ofTheme_eq, List.pairwise_flatMap]
    constructor
    · intro k _
      rw [atStack]
      cases t.surfaces.lookup k with
      | none => exact .nil
      | some u =>
        rw [List.pairwise_map]
        exact hf.imp fun h => Setting.beq_eq_false.2 (.inr (.inl h))
    · refine hl.imp fun h a ha b hb => Setting.beq_eq_false.2 (.inr (.inr ?_))
      obtain ⟨_, _, ha, _⟩ := mem_atStack.1 ha
      obtain ⟨_, _, hb, _⟩ := mem_atStack.1 hb
      show (a.stack == b.stack) = false
      rw [ha, hb]
      exact h
  · refine (List.pairwise_map.1 ht).imp fun h a ha b hb => Setting.beq_eq_false.2 (.inl ?_)
    obtain ⟨ha, _⟩ := mem_ofTheme.1 ha
    obtain ⟨hb, _⟩ := mem_ofTheme.1 hb
    show (a.themeName == b.themeName) = false
    rw [ha, hb]
    exact h

end Site

namespace Spec

theorem mem_sites {p : Spec} {s : Site} :
    s ∈ p.sites ↔
      (s.themeName, s.theme) ∈ p.themes ∧ s.stack ∈ p.layers.keys ∧
        s.theme.surfaces.lookup s.stack = some s.surface ∧ s.fontSize ∈ FontSize.names :=
  Site.mem_list

theorem pairwise_fontSizes : FontSize.names.Pairwise fun a b => (a == b) = false := by decide

namespace Coherent
variable {p : Spec}

theorem pairwise_sites (h : p.Coherent) :
    p.sites.Pairwise fun a b => (a.setting == b.setting) = false :=
  Site.pairwise_setting h.distinct_themes h.distinct_layers pairwise_fontSizes

theorem exists_surface (h : p.Coherent) {x : Atom × Theme} (hx : x ∈ p.themes) {k : Atom}
    (hk : k ∈ p.layers.keys) : ∃ u, x.2.surfaces.lookup k = some u := by
  rw [← (h.theme x hx).2.keys_surfaces] at hk
  have hs : (x.2.surfaces.lookup k).isSome = true := by
    rw [Entries.isSome_lookup]
    exact List.any_eq_true.2 ⟨k, hk, BEq.rfl⟩
  exact Option.isSome_iff_exists.1 hs

theorem exists_site (h : p.Coherent) {x : Atom × Theme} (hx : x ∈ p.themes) {k : Atom}
    (hk : k ∈ p.layers.keys) {f : Atom} (hf : f ∈ FontSize.names) :
    ∃ u, x.2.surfaces.lookup k = some u ∧ ⟨x.1, x.2, k, u, f⟩ ∈ p.sites := by
  obtain ⟨u, hu⟩ := h.exists_surface hx hk
  exact ⟨u, hu, mem_sites.2 ⟨hx, hk, hu, hf⟩⟩

theorem length_sites (h : p.Coherent) :
    p.sites.length = p.themes.length * p.layers.length * 6 := by
  have hstack {x : Atom × Theme} (hx : x ∈ p.themes) : ∀ k ∈ p.layers.keys,
      (Site.atStack FontSize.names x.1 x.2 k).length = 6 := by
    intro k hk
    obtain ⟨u, hu⟩ := h.exists_surface hx hk
    rw [Site.atStack, hu]
    rfl
  have htheme : ∀ x ∈ p.themes,
      (Site.ofTheme p.layers.keys FontSize.names x.1 x.2).length = p.layers.length * 6 := by
    intro x hx
    rw [Site.ofTheme_eq, length_flatMap_of_forall (hstack hx), Entries.length_keys]
  rw [sites, Site.list, length_flatMap_of_forall htheme, Nat.mul_assoc]

end Coherent
end Spec
end Palette
