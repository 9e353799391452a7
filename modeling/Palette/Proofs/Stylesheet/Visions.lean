import Palette.Proofs.Stylesheet.Shown

/-!
# Stylesheets under a vision

The block of a place under a vision is written against the place without the vision. An element
inside the vision inherits from the elements around it, which are inside the vision too. So a color
that the vision leaves as it is at a place, but changes around it, is shown as it is around it,
unless the place declares it for its own sake.

* `Archive.Settled`    the places at which this does not happen;
* `Spec.shown_iff_settled_of_build`   these are the places that show what the registry answers.
-/

namespace Palette

namespace Archive
variable (a : Archive) (size : Atom) (m : Deficiency) (n : Atom)

/-- a vision leaves a color as it is -/
def Keeps (theme stack : Atom) : Prop :=
  a.answer n ⟨size, theme, stack, .text m.name⟩ = a.answer n ⟨size, theme, stack, plain⟩

/-- A color is declared at a place or does not change around it. Without a vision a stack declares
what differs from its theme, and a theme what differs from the default theme. -/
def Settled (defaultTheme theme stack : Atom) : Prop :=
  a.Keeps size m n theme stack →
    a.answer n ⟨size, theme, stack, plain⟩ = a.answer n ⟨size, theme, Showing.base, plain⟩ →
      a.Keeps size m n theme Showing.base ∧
        (a.answer n ⟨size, theme, Showing.base, plain⟩ =
            a.answer n ⟨size, defaultTheme, Showing.base, plain⟩ →
          a.Keeps size m n defaultTheme Showing.base)

end Archive

namespace Showing

theorem Legible.shade_eq_iff {q : Showing} (h : q.Legible) {p p' : Place} {n : String} :
    q.shade p n = q.shade p' n ↔ q.color p n = q.color p' n := by
  rw [h.color_eq, h.color_eq p', Document.text.injEq]

/-- the visions of a stylesheet are those of the variants -/
theorem mem_visions {r : Registry} {size : Atom} {theme : Option Atom} {m : Deficiency}
    (h : ∃ x ∈ r.variants.toList, x.1.vision = .text m.name) :
    m ∈ (of r.archive size theme).visions := by
  obtain ⟨x, hx, hm⟩ := h
  refine List.mem_filter.2 ⟨by cases m <;> decide, List.contains_iff_exists_mem_beq.2 ?_⟩
  refine ⟨x.1.vision, List.mem_map.2 ⟨(x.1, x.2.stored), ?_, rfl⟩, by rw [hm]; exact BEq.rfl⟩
  show _ ∈ r.archive.variants.toList
  rw [Registry.toList_variants_archive]
  exact List.mem_map.2 ⟨x, hx, rfl⟩

end Showing

/-- Under a vision that there are variants for, a place of the stylesheet shows what the registry
answers if and only if the color is settled there. -/
theorem Spec.shown_iff_settled_of_build {d : Document} (hd : d.isKeyed = true) {p : Spec}
    (hc : compile d = .ok p) {e : Engine} {generatedAt : String} {r : Registry}
    (hb : p.build e generatedAt = .ok r) (hn : r.archive.Named) (size : String)
    (theme : Option String) :
    ∃ blocks, Stylesheet.ofArchive r.archive (.text size) (theme.map .text) = .ok blocks ∧
      ((∀ b ∈ blocks, b.selector = Selector.root → (b.declarations.map Declaration.name).Nodup) →
        ∀ m : Deficiency, (∃ x ∈ r.variants.toList, x.1.vision = .text m.name) →
        ∀ t ∈ r.themes, ∀ k ∈ r.layers.keys, ∀ n ∈ r.archive.names,
          (∀ y, theme = some y → .text y ∉ r.themes.keys →
            Property.ofToken (Showing.word n) ≠ Property.surface) →
          ∃ s, r.archive.resolve n ⟨.text size, t.1, k, .text m.name⟩ = .ok (.text s) ∧
            (Stylesheet.shown? blocks (some m.name) (Showing.word t.1) (Showing.word k)
                (Property.ofToken (Showing.word n)) = some (.value s) ↔
              r.archive.Settled (.text size) m n
                (Showing.of r.archive (.text size) (theme.map .text)).defaultTheme t.1 k)) := by
  have hp := coherent_of_compile hd hc
  have ht := Registry.textual_archive hb (isText_of_fallback hc)
  have hblocks := Stylesheet.ofArchive_eq ht hn (.text size) (theme.map .text)
  refine ⟨_, hblocks, fun hroot m hm => ?_⟩
  have hnodup := (Stylesheet.forall_root hblocks).1 hroot
  have h := Registry.legible hb hp ht hn hnodup
  intro ⟨a, T⟩ hT k hk n hname hsurface
  have hx : (a, T.stored) ∈ r.archive.themes := List.mem_map.2 ⟨_, hT, rfl⟩
  have hlayer : k ∈ r.archive.layers.keys := Archive.keys_mapped Document.int _ ▸ hk
  obtain ⟨x, rfl⟩ := Atom.exists_of_isPlain (h.theme _ hx)
  obtain ⟨i, rfl⟩ := Atom.exists_of_isPlain (h.layer k hlayer)
  obtain ⟨s, rfl⟩ := Atom.exists_of_isPlain (hn.token n hname)
  have hs : s ∈ (Showing.of r.archive (.text size) (theme.map .text)).names :=
    List.mem_filterMap.2 ⟨_, hname, rfl⟩
  have hapart := Registry.ofToken_ne_surface h hs hT hsurface
  refine ⟨_, ?_, (h.shown?_vision_iff hs hapart hx hlayer (Showing.mem_visions hm)).trans ?_⟩
  · rw [ht.resolve_eq]
    exact congrArg Except.ok (h.color_eq (Showing.under (Showing.spot x i) m) s)
  · simp only [h.shade_eq_iff]
    rfl

namespace Sample

/-- the color of the small specification at the base level of a theme -/
theorem answer_lined (x : String) (v : Atom) (c : String)
    (h : ((lined.entries Wcag.engine).any fun e =>
      e.1 == ⟨.text "line", .text "16px", .text x, Showing.base, v⟩ && e.2.hex.text == c) = true) :
    linedRegistry.archive.answer (.text "line") ⟨.text "16px", .text x, Showing.base, v⟩ =
      .text c := by
  obtain ⟨e, he, h⟩ := List.any_eq_true.1 h
  obtain ⟨hk, hc⟩ := Bool.and_eq_true_iff.1 h
  rw [← Spec.toList_variants_of_build (Spec.names_of_compile isKeyed_lined compile_lined).1
    (Spec.coherent_of_compile isKeyed_lined compile_lined) build_lined] at he
  rw [Registry.answer_of_mem he hk, Hex.document, eq_of_beq hc]

theorem exists_deuteranopia :
    ∃ x ∈ linedRegistry.variants.toList, x.1.vision = .text Deficiency.deuteranopia.name := by
  rw [Spec.toList_variants_of_build (Spec.names_of_compile isKeyed_lined compile_lined).1
    (Spec.coherent_of_compile isKeyed_lined compile_lined) build_lined]
  have h : .text Deficiency.deuteranopia.name ∈
      (lined.entries Wcag.engine).map fun x => x.1.vision := text_mem (by decide)
  exact List.mem_map.1 h

end Sample

/-- the dark theme, whose color the vision leaves as it is, where the light one is the default -/
theorem Spec.shown_iff_settled_of_build_sample :
    ∃ blocks, Stylesheet.ofArchive Sample.linedRegistry.archive (.text "16px") none = .ok blocks ∧
      Sample.linedRegistry.archive.resolve (.text "line")
        ⟨.text "16px", .text "night", .text "root", .text "deuteranopia"⟩ = .ok (.text "#777777") ∧
      Stylesheet.shown? blocks (some "deuteranopia") "night" "root" "--line" ≠
        some (.value "#777777") := by
  obtain ⟨blocks, hblocks, h⟩ := shown_iff_settled_of_build Sample.isKeyed_lined
    Sample.compile_lined Sample.build_lined Sample.named_lined "16px" none
  have hnight : .text "night" ∈ Sample.linedRegistry.themes.keys :=
    Sample.text_mem (by decide +kernel)
  obtain ⟨T, hT⟩ := Entries.mem_keys.1 hnight
  have hname : Atom.text "line" ∈ Sample.linedRegistry.archive.names := by
    rw [Sample.names_lined]
    exact List.mem_singleton.2 rfl
  have hplain {x : String} (hx : x = "day" ∨ x = "night") :
      Sample.linedRegistry.archive.answer (.text "line")
        ⟨.text "16px", .text x, Showing.base, Archive.plain⟩ = .text "#777777" := by
    refine Sample.answer_lined x _ _ ?_
    rcases hx with rfl | rfl <;> decide
  have hchanged := Sample.answer_lined "day" (.text "deuteranopia") "#ffffff" (by decide)
  have hkept := Sample.answer_lined "night" (.text "deuteranopia") "#777777" (by decide)
  have hanswer := (Registry.textual_archive Sample.build_lined
    (isText_of_fallback Sample.compile_lined)).resolve_eq (.text "line")
      ⟨.text "16px", .text "night", Showing.base, .text "deuteranopia"⟩
  rw [hkept] at hanswer
  have hnodup : ∀ b ∈ blocks, b.selector = Selector.root →
      (b.declarations.map Declaration.name).Nodup := by
    rw [Stylesheet.forall_root hblocks, Showing.names_rootBlock,
      Sample.names_showing Sample.names_lined]
    decide +kernel
  obtain ⟨s, hs, hiff⟩ := h hnodup .deuteranopia Sample.exists_deuteranopia _ hT (.text "root")
    (Sample.text_mem (by decide)) _ hname fun y hy => nomatch hy
  obtain rfl := Document.text.inj (Except.ok.inj (hanswer.symm.trans hs))
  refine ⟨blocks, hblocks, hs, fun hshown => ?_⟩
  -- the light theme does not keep the color
  have hday := (hiff.1 hshown (hkept.trans (hplain (.inr rfl)).symm) rfl).2
    ((hplain (.inr rfl)).trans (hplain (.inl rfl)).symm)
  rw [Archive.Keeps] at hday
  have hsame := Document.text.inj (hchanged.symm.trans (hday.trans (hplain (.inl rfl))))
  exact absurd hsame (by decide)

end Palette
