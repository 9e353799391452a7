import Palette.Proofs.Stylesheet.Cascade

/-!
# What a stylesheet shows

Every block but the root declares only what differs from one place around it. Without a vision this
is the place that the element inherits from, so what is left out is what is inherited. Under a
vision it is the same place without the vision, which need not be what the element inherits from.

* `Showing.shade`, `Showing.change`   a color as a text, and what a block makes of it;
* `Showing.Legible`    stylesheets of plain names, with colors that are texts and variables told
                       apart;
* `selector_of_mem_blocks`   which family a block is from, by its selector;
* `Legible.shown?_surface`   the surface of every place;
* `Legible.shown?_plain`     the color of every place without a vision;
* `Legible.shown?_vision`, `Legible.shown?_vision_iff`   what is shown under a vision, and when it
                       is the color there.
-/

namespace Palette
namespace Showing

/-- the text of a color at a place -/
def shade (q : Showing) (p : Place) (n : String) : String := (q.color p n).shown

/-- what a block that is written against another place makes of a color -/
def change (q : Showing) (p around : Place) (n : String) : Option Binding :=
  if (q.color p n).differs (q.color around n) then some (.value (q.shade p n)) else none

/-- a place without a vision -/
def spot (x k : String) : Place := ⟨.text x, .text k, Archive.plain⟩

/-- names that are plain words, colors that are texts, and variables of the root that are told
apart -/
structure Legible (q : Showing) : Prop where
  color (p : Place) (n : String) : ∃ s, q.color p n = .text s
  theme : ∀ t ∈ q.archive.themes, t.1.isPlain = true
  layer : ∀ k ∈ q.archive.layers.keys, k.isPlain = true
  defaultTheme : ∃ x, q.defaultTheme = .text x
  distinct_themes : q.archive.themes.Distinct
  nodup : (q.rootBlock.declarations.map Declaration.name).Nodup

theorem selector_of_mem_blocks {q : Showing} {b : Block} (hb : b ∈ q.blocks) :
    match b.selector with
    | ⟨none, none, none⟩ => b = q.rootBlock
    | ⟨none, some x, none⟩ =>
      ∃ t ∈ q.archive.themes, word t.1 = x ∧ t.1.differs q.defaultTheme = true ∧ b = q.themeBlock t
    | ⟨none, some x, some k⟩ =>
      ∃ t ∈ q.archive.themes, word t.1 = x ∧ ∃ stack ∈ q.layers, word stack = k ∧
        q.stackBlock? t stack = some b
    | ⟨some m, none, none⟩ =>
      ∃ m' ∈ q.visions, m'.name = m ∧
        q.visionBlock? m' none none (atBase q.defaultTheme) (atBase q.defaultTheme) = some b
    | ⟨some m, some x, none⟩ =>
      ∃ m' ∈ q.visions, m'.name = m ∧ ∃ t ∈ q.archive.themes, word t.1 = x ∧
        q.visionBlock? m' (some x) none (atBase t.1) (atBase t.1) = some b
    | ⟨some m, some x, some k⟩ =>
      ∃ m' ∈ q.visions, m'.name = m ∧ ∃ t ∈ q.archive.themes, word t.1 = x ∧
        ∃ stack ∈ q.layers, word stack = k ∧
          q.visionBlock? m' (some x) (some k) { atBase t.1 with stack } { atBase t.1 with stack } =
            some b
    | _ => False := by
  rcases mem_blocks.1 hb with rfl | ⟨t, ht, hd, rfl⟩ | ⟨t, ht, k, hk, h⟩ | ⟨m, hm, h⟩
  · rfl
  · exact ⟨t, ht, rfl, hd, rfl⟩
  · obtain ⟨_, rfl⟩ := Block.of?_eq_some.1 h
    exact ⟨t, ht, rfl, k, hk, rfl, h⟩
  · rcases mem_visionBlocks.1 h with h | ⟨t, ht, h⟩
    · obtain ⟨_, rfl⟩ := Block.of?_eq_some.1 h
      exact ⟨m, hm, rfl, h⟩
    · rcases mem_visionThemeBlocks.1 h with h | ⟨k, hk, h⟩
      · obtain ⟨_, rfl⟩ := Block.of?_eq_some.1 h
        exact ⟨m, hm, rfl, t, ht, rfl, h⟩
      · obtain ⟨_, rfl⟩ := Block.of?_eq_some.1 h
        exact ⟨m, hm, rfl, t, ht, rfl, k, hk, rfl, h⟩

theorem mem_layers_iff {q : Showing} {k : String} :
    .text k ∈ q.layers ↔ .text k ∈ q.archive.layers.keys ∧ k ≠ "root" := by
  rw [layers, List.mem_filter, base, Atom.text_beq]
  simp

@[simp]
theorem name_baseSurface (x : Atom) (T : StoredTheme) :
    (baseSurface x T).name = Property.surface := by
  rw [baseSurface, surface?]
  cases T.surfaces.lookup base <;> rfl

/-- the variables of the root -/
theorem names_rootBlock (q : Showing) :
    q.rootBlock.declarations.map Declaration.name =
      q.names.map Property.ofToken ++
        (((q.archive.themes.lookup q.defaultTheme).map fun _ => Property.surface).toList ++
          (q.archive.themes.map (fun t => Property.ofTheme (word t.1)) ++
            q.archive.ramps.flatMap fun r =>
              r.2.steps.map fun s => Property.ofStep (word r.1) s.index.shown)) := by
  simp only [rootBlock, themeDeclarations, rampDeclarations, declaration, List.map_append,
    List.map_map, List.map_flatMap, Option.toList_map, Function.comp_def,
    name_baseSurface, List.append_assoc]

namespace Legible
variable {q : Showing} (h : q.Legible)
include h

/-! ## names and colors -/

theorem color_eq (p : Place) (n : String) : q.color p n = .text (q.shade p n) := by
  obtain ⟨s, hs⟩ := h.color p n
  rw [shade, hs]
  rfl

theorem change_eq (p around : Place) (n : String) :
    q.change p around n =
      if q.shade p n = q.shade around n then none else some (.value (q.shade p n)) := by
  rw [change, h.color_eq p n, h.color_eq around n]
  show (if (!(Atom.text _ == Atom.text _)) = true then _ else _) = _
  rw [Atom.text_beq]
  by_cases hc : q.shade p n = q.shade around n
  · rw [if_pos hc, hc, BEq.rfl]
    rfl
  · rw [if_neg hc, beq_false_of_ne hc]
    rfl

theorem change_self (p : Place) (n : String) : q.change p p n = none := by
  rw [h.change_eq, if_pos rfl]

theorem eq_of_word {x : String} {T : StoredTheme} (hx : (.text x, T) ∈ q.archive.themes)
    {t : Atom × StoredTheme} (ht : t ∈ q.archive.themes) (hw : word t.1 = x) :
    t = (.text x, T) := by
  obtain ⟨y, hy⟩ := Atom.exists_of_isPlain (h.theme t ht)
  have hname : t.1 = .text x := by
    rw [hy] at hw ⊢
    exact congrArg Atom.text hw
  have hl := Entries.lookup_of_mem h.distinct_themes ht
  rw [hname, Entries.lookup_of_mem h.distinct_themes hx] at hl
  exact Prod.ext hname (Option.some.inj hl).symm

theorem eq_of_mem_layers {k : String} {stack : Atom} (hs : stack ∈ q.layers)
    (hw : word stack = k) : stack = .text k := by
  obtain ⟨s, rfl⟩ := Atom.exists_of_isPlain (h.layer stack (List.mem_filter.1 hs).1)
  exact congrArg Atom.text hw

theorem isWord_layer {k : String} (hk : .text k ∈ q.layers) : Property.isWord k = true :=
  h.layer _ (List.mem_filter.1 hk).1

theorem differs_default {x : String} (hx : q.defaultTheme ≠ .text x) :
    (Atom.text x).differs q.defaultTheme = true := by
  obtain ⟨y, hy⟩ := h.defaultTheme
  rw [hy] at hx ⊢
  rw [Atom.text_differs]
  exact bne_iff_ne.2 fun hxy => hx (congrArg Atom.text hxy.symm)

/-! ## the blocks of a selector -/

theorem plain_selector {b : Block} (hb : b ∈ q.blocks) : b.selector.Plain := by
  have theme {t : Atom × StoredTheme} (ht : t ∈ q.archive.themes) :=
    Property.Words.some (Atom.isWord_word (h.theme t ht))
  have stack {k : Atom} (hk : k ∈ q.layers) :=
    Property.Words.some (Atom.isWord_word (h.layer k (List.mem_filter.1 hk).1))
  rcases mem_blocks.1 hb with rfl | ⟨t, ht, _, rfl⟩ | ⟨t, ht, k, hk, hb⟩ | ⟨m, _, hb⟩
  · exact ⟨.none, .none, .none⟩
  · exact ⟨.none, theme ht, .none⟩
  · obtain ⟨_, rfl⟩ := Block.of?_eq_some.1 hb
    exact ⟨.none, theme ht, stack hk⟩
  · have vision := Property.Words.some m.isWord_name
    rcases mem_visionBlocks.1 hb with hb | ⟨t, ht, hb⟩
    · obtain ⟨_, rfl⟩ := Block.of?_eq_some.1 hb
      exact ⟨vision, .none, .none⟩
    · rcases mem_visionThemeBlocks.1 hb with hb | ⟨k, hk, hb⟩
      · obtain ⟨_, rfl⟩ := Block.of?_eq_some.1 hb
        exact ⟨vision, theme ht, .none⟩
      · obtain ⟨_, rfl⟩ := Block.of?_eq_some.1 hb
        exact ⟨vision, theme ht, stack hk⟩

/-- the blocks of a plain selector, if there are any, are those that are made for it -/
theorem declared?_eq {s : Selector} {name : String} (hs : s.Plain) (ds : List Declaration)
    (hall : ∀ b ∈ q.blocks, b.selector = s → b = ⟨s, ds⟩) (hone : ds ≠ [] → ⟨s, ds⟩ ∈ q.blocks) :
    Stylesheet.declared? q.blocks s name = Block.find? ⟨s, ds⟩ name :=
  Stylesheet.declared?_eq ds
    (fun b hb ht => hall b hb ((h.plain_selector hb).eq_of_text hs ht)) hone

theorem declared?_root_of_mem {d : Declaration} (hd : d ∈ q.rootBlock.declarations) :
    Stylesheet.declared? q.blocks Selector.root d.name = some d.binding := by
  rw [h.declared?_eq ⟨.none, .none, .none⟩ q.rootBlock.declarations]
  · exact Block.find?_of_mem h.nodup hd
  · intro b hb hs
    have hfam := selector_of_mem_blocks hb
    rw [hs] at hfam
    exact hfam
  · exact fun _ => mem_blocks.2 (.inl rfl)

/-- no block is for the base level inside a theme -/
theorem declared?_base {vision : Option String} {x name : String}
    (hvision : Property.Words vision) (hx : Property.isWord x = true) :
    Stylesheet.declared? q.blocks ⟨vision, some x, some "root"⟩ name = none := by
  have absent {stack : Atom} (hs : stack ∈ q.layers) : word stack ≠ "root" := by
    intro hw
    rw [h.eq_of_mem_layers hs hw, mem_layers_iff] at hs
    exact hs.2 rfl
  have hbase := Property.Words.some (by decide : Property.isWord "root" = true)
  rw [h.declared?_eq ⟨hvision, .some hx, hbase⟩ []]
  · rfl
  · intro b hb hs
    have hfam := selector_of_mem_blocks hb
    rw [hs] at hfam
    cases vision with
    | none =>
      obtain ⟨_, _, _, stack, hstack, hw, _⟩ := hfam
      exact absurd hw (absent hstack)
    | some m =>
      obtain ⟨_, _, _, _, _, _, stack, hstack, hw, _⟩ := hfam
      exact absurd hw (absent hstack)
  · exact fun hne => absurd rfl hne

section
variable {x : String} {T : StoredTheme} (hx : (.text x, T) ∈ q.archive.themes) {name : String}
include hx

theorem isWord_theme : Property.isWord x = true := h.theme _ hx

/-- no block is for the default theme -/
theorem declared?_default (hd : q.defaultTheme = .text x) :
    Stylesheet.declared? q.blocks ⟨none, some x, none⟩ name = none := by
  rw [h.declared?_eq ⟨.none, .some (h.isWord_theme hx), .none⟩ []]
  · rfl
  · intro b hb hs
    have hfam := selector_of_mem_blocks hb
    rw [hs] at hfam
    obtain ⟨t, ht, hw, hdiff, _⟩ := hfam
    rw [h.eq_of_word hx ht hw, hd, Atom.text_differs, bne_self_eq_false] at hdiff
    cases hdiff
  · exact fun hne => absurd rfl hne

theorem declared?_themeBlock (hd : q.defaultTheme ≠ .text x) :
    Stylesheet.declared? q.blocks ⟨none, some x, none⟩ name =
      (q.themeBlock (.text x, T)).find? name := by
  rw [h.declared?_eq ⟨.none, .some (h.isWord_theme hx), .none⟩
    (q.themeBlock (.text x, T)).declarations]
  · rfl
  · intro b hb hs
    have hfam := selector_of_mem_blocks hb
    rw [hs] at hfam
    obtain ⟨t, ht, hw, _, rfl⟩ := hfam
    rw [h.eq_of_word hx ht hw]
    rfl
  · exact fun _ => mem_blocks.2 (.inr (.inl ⟨_, hx, h.differs_default hd, rfl⟩))

theorem declared?_stackBlock {k : String} (hk : .text k ∈ q.layers) :
    Stylesheet.declared? q.blocks ⟨none, some x, some k⟩ name =
      Block.find? ⟨⟨none, some x, some k⟩,
        q.differences (spot x k) (atBase (.text x)) ++ (surface? T (.text k)).toList⟩ name := by
  rw [h.declared?_eq ⟨.none, .some (h.isWord_theme hx),
      .some (h.isWord_layer hk)⟩
    (q.differences (spot x k) (atBase (.text x)) ++ (surface? T (.text k)).toList)]
  · intro b hb hs
    have hfam := selector_of_mem_blocks hb
    rw [hs] at hfam
    obtain ⟨t, ht, hw, stack, hstack, hw', hb⟩ := hfam
    obtain rfl := h.eq_of_word hx ht hw
    obtain rfl := h.eq_of_mem_layers hstack hw'
    exact (Block.of?_eq_some.1 hb).2
  · intro hne
    refine mem_blocks.2 (.inr (.inr (.inl ⟨_, hx, _, hk, ?_⟩)))
    exact Block.of?_eq_some.2 ⟨hne, rfl⟩

/-- every place of a theme shows the surface of its stack -/
theorem shown?_surface {k : String} (hk : .text k ∈ q.archive.layers.keys) {u : StoredSurface}
    (hu : T.surfaces.lookup (.text k) = some u) :
    Stylesheet.shown? q.blocks none x k Property.surface =
      some (.variable (Property.ofStep T.ramp.shown u.step.shown)) := by
  have hsurface : surface? T (.text k) =
      some ⟨Property.surface, .variable (Property.ofStep T.ramp.shown u.step.shown)⟩ := by
    rw [surface?, hu]
    rfl
  show (Stylesheet.declared? q.blocks ⟨none, some x, some k⟩ _).or
    ((Stylesheet.declared? q.blocks ⟨none, some x, none⟩ _).or
      (Stylesheet.declared? q.blocks Selector.root _)) = _
  by_cases hroot : k = "root"
  · subst hroot
    have hbase : baseSurface (.text x) T =
        ⟨Property.surface, .variable (Property.ofStep T.ramp.shown u.step.shown)⟩ := by
      rw [baseSurface, base, hsurface]
      rfl
    rw [h.declared?_base .none (h.isWord_theme hx), Option.none_or]
    by_cases hd : q.defaultTheme = .text x
    · have hmem : baseSurface (.text x) T ∈ q.rootBlock.declarations := by
        refine List.mem_append_left _ (List.mem_append_left _ (List.mem_append_right _ ?_))
        rw [hd, Entries.lookup_of_mem h.distinct_themes hx]
        exact List.mem_singleton.2 rfl
      have hroot := h.declared?_root_of_mem hmem
      rw [hbase] at hroot
      rw [h.declared?_default hx hd, Option.none_or, hroot]
    · rw [h.declared?_themeBlock hx hd, themeBlock, hbase, Block.find?_append_last, Option.some_or]
  · rw [h.declared?_stackBlock hx (mem_layers_iff.2 ⟨hk, hroot⟩), hsurface, Option.toList_some,
      Block.find?_append_last, Option.some_or]

end

/-! ## what the blocks of a selector make of a color -/

section
variable {n : String} (hn : n ∈ q.names)
include hn

theorem eq_of_ofToken {n' : String} (hn' : n' ∈ q.names)
    (he : Property.ofToken n' = Property.ofToken n) : n' = n := by
  have hnodup := h.nodup
  rw [names_rootBlock] at hnodup
  exact List.inj_on_of_nodup_map hnodup.of_append_left hn' hn he

theorem declared?_root :
    Stylesheet.declared? q.blocks Selector.root (Property.ofToken n) =
      some (.value (q.shade (atBase q.defaultTheme) n)) := by
  have hd : q.declaration (atBase q.defaultTheme) n ∈ q.rootBlock.declarations := by
    refine List.mem_append_left _ (List.mem_append_left _ (List.mem_append_left _ ?_))
    exact List.mem_map.2 ⟨n, hn, rfl⟩
  exact h.declared?_root_of_mem hd

/-! A stylesheet that does not declare the surface at the root may have a color with the variable of
the surface, and then it shows the surface in its place. -/

variable (hs : Property.ofToken n ≠ Property.surface)
include hs

theorem find?_differences {s : Selector} {p around : Place} {extra : List Declaration}
    (hextra : ∀ d ∈ extra, d.name = Property.surface) :
    Block.find? ⟨s, q.differences p around ++ extra⟩ (Property.ofToken n) =
      q.change p around n := by
  have declared {d : Declaration} (hd : d ∈ q.differences p around ++ extra)
      (hname : d.name = Property.ofToken n) :
      (q.color p n).differs (q.color around n) = true ∧ d = q.declaration p n := by
    rcases List.mem_append.1 hd with hd | hd
    · obtain ⟨n', hn', rfl⟩ := List.mem_map.1 hd
      obtain ⟨hn', hdiff⟩ := List.mem_filter.1 hn'
      obtain rfl := h.eq_of_ofToken hn hn' hname
      exact ⟨hdiff, rfl⟩
    · exact absurd (hname.symm.trans (hextra d hd)) hs
  refine Block.find?_eq (fun d hd hname => ?_) fun ho => ?_
  · obtain ⟨hdiff, rfl⟩ := declared hd hname
    exact if_pos hdiff
  · rw [change] at ho
    split at ho
    · next hdiff =>
      refine ⟨q.declaration p n, List.mem_append_left _ ?_, rfl⟩
      exact List.mem_map.2 ⟨n, List.mem_filter.2 ⟨hn, hdiff⟩, rfl⟩
    · cases ho

section
variable {x : String} {T : StoredTheme} (hx : (.text x, T) ∈ q.archive.themes)
include hx

theorem declared?_theme :
    Stylesheet.declared? q.blocks ⟨none, some x, none⟩ (Property.ofToken n) =
      q.change (atBase (.text x)) (atBase q.defaultTheme) n := by
  by_cases hd : q.defaultTheme = .text x
  · rw [h.declared?_default hx hd, hd, h.change_self]
  · rw [h.declared?_themeBlock hx hd]
    refine h.find?_differences hn hs fun d hd => ?_
    obtain rfl := List.mem_singleton.1 hd
    exact name_baseSurface _ _

theorem declared?_stack {k : String} (hk : .text k ∈ q.archive.layers.keys) :
    Stylesheet.declared? q.blocks ⟨none, some x, some k⟩ (Property.ofToken n) =
      q.change (spot x k) (atBase (.text x)) n := by
  by_cases hroot : k = "root"
  -- the base level is the theme itself
  · subst hroot
    rw [h.declared?_base .none (h.isWord_theme hx)]
    exact (h.change_self _ _).symm
  · rw [h.declared?_stackBlock hx (mem_layers_iff.2 ⟨hk, hroot⟩)]
    refine h.find?_differences hn hs fun d hd => ?_
    rw [Option.mem_toList, surface?, Option.map_eq_some_iff] at hd
    obtain ⟨_, _, rfl⟩ := hd
    rfl

end

/-- a family of blocks that hold nothing but differences -/
theorem declared?_differences {s : Selector} (hplain : s.Plain) {p around : Place}
    (hall : ∀ b ∈ q.blocks, b.selector = s → Block.of? s (q.differences p around) = some b)
    (hone : ∀ b, Block.of? s (q.differences p around) = some b → b ∈ q.blocks) :
    Stylesheet.declared? q.blocks s (Property.ofToken n) = q.change p around n := by
  rw [h.declared?_eq hplain (q.differences p around ++ [])]
  · exact h.find?_differences hn hs fun d hd => absurd hd List.not_mem_nil
  · intro b hb hb'
    rw [List.append_nil]
    exact (Block.of?_eq_some.1 (hall b hb hb')).2
  · rw [List.append_nil]
    exact fun hne => hone _ (Block.of?_eq_some.2 ⟨hne, rfl⟩)

section
variable {m : Deficiency} (hm : m ∈ q.visions)
include hm

theorem declared?_vision :
    Stylesheet.declared? q.blocks ⟨some m.name, none, none⟩ (Property.ofToken n) =
      q.change (under (atBase q.defaultTheme) m) (atBase q.defaultTheme) n := by
  have hplain : Selector.Plain ⟨some m.name, none, none⟩ := ⟨.some m.isWord_name, .none, .none⟩
  refine h.declared?_differences hn hs hplain (fun b hb hsel => ?_) fun b hb => ?_
  · have hfam := selector_of_mem_blocks hb
    rw [hsel] at hfam
    obtain ⟨m', _, hname, hb⟩ := hfam
    obtain rfl := Deficiency.name_injective hname
    exact hb
  · exact mem_blocks.2 (.inr (.inr (.inr ⟨m, hm, mem_visionBlocks.2 (.inl hb)⟩)))

variable {x : String} {T : StoredTheme} (hx : (.text x, T) ∈ q.archive.themes)
include hx

theorem declared?_visionTheme :
    Stylesheet.declared? q.blocks ⟨some m.name, some x, none⟩ (Property.ofToken n) =
      q.change (under (atBase (.text x)) m) (atBase (.text x)) n := by
  have hplain : Selector.Plain ⟨some m.name, some x, none⟩ :=
    ⟨.some m.isWord_name, .some (h.isWord_theme hx), .none⟩
  refine h.declared?_differences hn hs hplain (fun b hb hsel => ?_) fun b hb => ?_
  · have hfam := selector_of_mem_blocks hb
    rw [hsel] at hfam
    obtain ⟨m', _, hname, t, ht, hw, hb⟩ := hfam
    obtain rfl := Deficiency.name_injective hname
    rw [h.eq_of_word hx ht hw] at hb
    exact hb
  · have hb := mem_visionBlocks.2 (.inr ⟨_, hx, mem_visionThemeBlocks.2 (.inl hb)⟩)
    exact mem_blocks.2 (.inr (.inr (.inr ⟨m, hm, hb⟩)))

theorem declared?_visionStack {k : String} (hk : .text k ∈ q.layers) :
    Stylesheet.declared? q.blocks ⟨some m.name, some x, some k⟩ (Property.ofToken n) =
      q.change (under (spot x k) m) (spot x k) n := by
  have hplain : Selector.Plain ⟨some m.name, some x, some k⟩ :=
    ⟨.some m.isWord_name, .some (h.isWord_theme hx), .some (h.isWord_layer hk)⟩
  refine h.declared?_differences hn hs hplain (fun b hb hsel => ?_) fun b hb => ?_
  · have hfam := selector_of_mem_blocks hb
    rw [hsel] at hfam
    obtain ⟨m', _, hname, t, ht, hw, stack, hstack, hw', hb⟩ := hfam
    obtain rfl := Deficiency.name_injective hname
    obtain rfl := h.eq_of_mem_layers hstack hw'
    rw [h.eq_of_word hx ht hw] at hb
    exact hb
  · have hb := mem_visionBlocks.2 (.inr ⟨_, hx, mem_visionThemeBlocks.2 (.inr ⟨_, hk, hb⟩)⟩)
    exact mem_blocks.2 (.inr (.inr (.inr ⟨m, hm, hb⟩)))

end

/-! ## what is shown -/

section
variable {x k : String} {T : StoredTheme} (hx : (.text x, T) ∈ q.archive.themes)
variable (hk : .text k ∈ q.archive.layers.keys)
include hx hk

/-- without a vision every place shows its color -/
theorem shown?_plain :
    Stylesheet.shown? q.blocks none x k (Property.ofToken n) =
      some (.value (q.shade (spot x k) n)) := by
  show (Stylesheet.declared? q.blocks ⟨none, some x, some k⟩ _).or
    ((Stylesheet.declared? q.blocks ⟨none, some x, none⟩ _).or
      (Stylesheet.declared? q.blocks Selector.root _)) = _
  rw [h.declared?_stack hn hs hx hk, h.declared?_theme hn hs hx, h.declared?_root hn, h.change_eq,
    h.change_eq]
  by_cases hstack : q.shade (spot x k) n = q.shade (atBase (.text x)) n
  · rw [if_pos hstack, hstack, Option.none_or]
    by_cases htheme : q.shade (atBase (.text x)) n = q.shade (atBase q.defaultTheme) n
    · rw [if_pos htheme, htheme, Option.none_or]
    · rw [if_neg htheme, Option.some_or]
  · rw [if_neg hstack, Option.some_or]

variable {m : Deficiency} (hm : m ∈ q.visions)
include hm

/-- what is shown under a vision, by the differences at the place and around it -/
theorem shown?_vision :
    Stylesheet.shown? q.blocks (some m.name) x k (Property.ofToken n) =
      (q.change (under (spot x k) m) (spot x k) n).or
        ((q.change (spot x k) (atBase (.text x)) n).or
          ((q.change (under (atBase (.text x)) m) (atBase (.text x)) n).or
            ((q.change (atBase (.text x)) (atBase q.defaultTheme) n).or
              ((q.change (under (atBase q.defaultTheme) m) (atBase q.defaultTheme) n).or
                (some (.value (q.shade (atBase q.defaultTheme) n))))))) := by
  show ((Stylesheet.declared? q.blocks ⟨some m.name, some x, some k⟩ _).or
      (Stylesheet.declared? q.blocks ⟨none, some x, some k⟩ _)).or
    (((Stylesheet.declared? q.blocks ⟨some m.name, some x, none⟩ _).or
      (Stylesheet.declared? q.blocks ⟨none, some x, none⟩ _)).or
    ((Stylesheet.declared? q.blocks ⟨some m.name, none, none⟩ _).or
      (Stylesheet.declared? q.blocks Selector.root _))) = _
  rw [h.declared?_stack hn hs hx hk, h.declared?_visionTheme hn hs hm hx,
    h.declared?_theme hn hs hx, h.declared?_vision hn hs hm, h.declared?_root hn]
  by_cases hroot : k = "root"
  -- at the base level the place is the theme itself, whose difference comes once more
  · subst hroot
    have hself : q.change (spot x "root") (atBase (.text x)) n = none := h.change_self _ n
    have htwice (o p : Option Binding) : o.or (o.or p) = o.or p := by
      rw [← Option.or_assoc, Option.or_self]
    rw [h.declared?_base (.some m.isWord_name) (h.isWord_theme hx), hself]
    simp only [Option.none_or, Option.or_assoc]
    exact (htwice _ _).symm
  · rw [h.declared?_visionStack hn hs hm hx (mem_layers_iff.2 ⟨hk, hroot⟩)]
    simp only [Option.or_assoc]

/-- Under a vision a place shows its color unless it declares nothing and inherits a color that the
vision has changed: where the vision changes nothing and the color is that of the theme, it must not
change that of the theme, nor that of the default theme where this is the same. -/
theorem shown?_vision_iff :
    Stylesheet.shown? q.blocks (some m.name) x k (Property.ofToken n) =
        some (.value (q.shade (under (spot x k) m) n)) ↔
      (q.shade (under (spot x k) m) n = q.shade (spot x k) n →
        q.shade (spot x k) n = q.shade (atBase (.text x)) n →
        q.shade (under (atBase (.text x)) m) n = q.shade (atBase (.text x)) n ∧
          (q.shade (atBase (.text x)) n = q.shade (atBase q.defaultTheme) n →
            q.shade (under (atBase q.defaultTheme) m) n = q.shade (atBase q.defaultTheme) n)) := by
  rw [h.shown?_vision hn hs hx hk hm]
  simp only [h.change_eq]
  by_cases hplace : q.shade (under (spot x k) m) n = q.shade (spot x k) n
  · by_cases hstack : q.shade (spot x k) n = q.shade (atBase (.text x)) n
    -- the place declares nothing, and the theme comes next
    · by_cases hunder : q.shade (under (atBase (.text x)) m) n = q.shade (atBase (.text x)) n
      · by_cases htheme : q.shade (atBase (.text x)) n = q.shade (atBase q.defaultTheme) n
        -- the theme declares nothing either, and the default theme comes next
        · by_cases hdefault : q.shade (under (atBase q.defaultTheme) m) n =
              q.shade (atBase q.defaultTheme) n
          · simp [hplace, hstack, hunder, htheme, hdefault]
          · simp [hplace, hstack, hunder, htheme, hdefault]
        · simp [hplace, hstack, hunder, htheme]
      · simp [hplace, hstack, hunder]
    · simp [hplace, hstack]
  · simp [hplace]

end
end
end Legible

end Showing
end Palette
