import Palette.Proofs.Archive.Textual
import Palette.Proofs.Stylesheet.Families

/-!
# What the stylesheet of a registry shows

Names that are plain words cannot be mistaken for one another in a stylesheet, and the colors of a
built registry are texts. So its stylesheet is one of those whose places are known, as soon as the
variables of the root are told apart.

* `Archive.Named`        archives whose names are plain words;
* `Stylesheet.ofArchive_of_texts`, `Stylesheet.forall_root`   they have a stylesheet, with one root;
* `Registry.legible`     the stylesheets of registries;
* `Registry.exists_rampDeclaration`   the surface of a theme is a step of a ramp that the root
                         declares;
* `Spec.shows_of_build`   without a vision the stylesheet shows the answers and the surfaces.
-/

namespace Palette
open Outcome

/-! ## names -/

/-- an archive whose names are plain words -/
structure Archive.Named (a : Archive) : Prop where
  token : ∀ k ∈ a.names, k.isPlain = true
  theme : ∀ k ∈ a.themes.keys, k.isPlain = true
  layer : ∀ k ∈ a.layers.keys, k.isPlain = true
  ramp : ∀ k ∈ a.ramps.keys, k.isPlain = true

/-- where names and colors are texts, there is a stylesheet -/
theorem Stylesheet.ofArchive_of_texts {a : Archive} (ht : a.Textual)
    (hn : ∀ n ∈ a.names, n.isText = true) (size : Atom) (theme : Option Atom) :
    ofArchive a size theme = .ok (Showing.of a size theme).blocks := by
  have hask (p : Place) : (Showing.of a size theme).ask p = .ok () := by
    exact forM_ok.2 fun n _ => bind_ok.2 ⟨_, ht.resolve_eq n _, rfl⟩
  have hnames : (Showing.of a size theme).askNames = .ok () := by
    refine if_pos (List.all_eq_true.2 fun n hm => ?_)
    obtain ⟨s, rfl⟩ := Atom.exists_of_isText (hn n hm)
    rfl
  have hcheck : (Showing.of a size theme).check = .ok () := by
    rw [Showing.check, bind_ok]
    refine ⟨(), hask _, bind_ok.2 ⟨(), hnames, forM_ok.2 fun p _ => hask p⟩⟩
  exact bind_ok.2 ⟨(), hcheck, rfl⟩

theorem Stylesheet.ofArchive_eq {a : Archive} (ht : a.Textual) (hn : a.Named) (size : Atom)
    (theme : Option Atom) :
    ofArchive a size theme = .ok (Showing.of a size theme).blocks := by
  refine ofArchive_of_texts ht (fun n hm => ?_) size theme
  obtain ⟨s, rfl⟩ := Atom.exists_of_isPlain (hn.token n hm)
  rfl

/-- the root declares the surface of the default theme, if there is one, beside the colors -/
theorem Showing.ofToken_ne_surface {q : Showing} {T : StoredTheme} {n : String}
    (hnodup : (q.rootBlock.declarations.map Declaration.name).Nodup)
    (hT : q.archive.themes.lookup q.defaultTheme = some T) (hn : n ∈ q.names) :
    Property.ofToken n ≠ Property.surface := by
  rw [names_rootBlock, hT] at hnodup
  intro hsame
  refine List.disjoint_of_nodup_append hnodup (List.mem_map.2 ⟨n, hn, hsame⟩) ?_
  exact List.mem_cons_self

theorem Showing.names_of (a : Archive) (size : Atom) (theme : Option Atom) :
    (Showing.of a size theme).names = a.names.filterMap fun n => n.document.text? := rfl

/-- a stylesheet has one block for the root -/
theorem Stylesheet.forall_root {a : Archive} {size : Atom} {theme : Option Atom}
    {blocks : List Block} (h : ofArchive a size theme = .ok blocks) {P : Block → Prop} :
    (∀ b ∈ blocks, b.selector = Selector.root → P b) ↔ P (Showing.of a size theme).rootBlock := by
  obtain ⟨_, _, h⟩ := bind_ok.1 h
  obtain rfl := pure_ok.1 h
  constructor
  · exact fun hall => hall _ (Showing.mem_blocks.2 (.inl rfl)) rfl
  · intro hroot b hb hs
    have hfam := Showing.selector_of_mem_blocks hb
    rw [hs] at hfam
    obtain rfl := hfam
    exact hroot

/-! ## registries of specifications -/

/-- the variable of a surface of a theme -/
def Property.ofSurface (t : Theme) (u : Surface) : String :=
  ofStep (Showing.word t.ramp) (Document.int u.step).shown

namespace Registry
variable {p : Spec} {e : Engine} {time : String} {r : Registry} (hb : p.build e time = .ok r)
include hb

/-- the surfaces of a theme are steps of a ramp, and the root declares the steps of all ramps -/
theorem exists_rampDeclaration (hp : p.Coherent) {size : Atom} {theme : Option Atom}
    {t : Atom × Theme} (ht : t ∈ r.themes) {k : Atom} (hk : k ∈ r.layers.keys) :
    ∃ u, t.2.surfaces.lookup k = some u ∧
      (⟨Property.ofSurface t.2 u, .value u.hex.text⟩ : Declaration) ∈
        (Showing.of r.archive size theme).rootBlock.declarations := by
  obtain ⟨_, failures, _, _, rfl⟩ := Spec.build_ok.1 hb
  obtain ⟨u, hu⟩ := hp.exists_surface ht hk
  refine ⟨u, hu, List.mem_append_right _ ?_⟩
  obtain ⟨ramp, step, hl, hs, htheme⟩ := (hp.theme t ht).2
  rw [htheme] at hu ⊢
  obtain ⟨k', hmem, _⟩ := Entries.exists_of_lookup hu
  obtain ⟨layer, _, hlayer⟩ := List.mem_map.1 hmem
  obtain ⟨_, rfl⟩ := Prod.mk.inj hlayer
  have hramp : (ramp.name, ramp) ∈ p.ramps := by
    obtain ⟨k', hmem, _⟩ := Entries.exists_of_lookup hl
    rw [hp.ramp _ hmem]
    exact hmem
  have hlength : 0 < ramp.length := by
    rw [Ramp.hasStep_iff] at hs
    omega
  have hstep := ramp.clamp_mem (step.index + (Elevation.ofStep ramp step.index).sign * layer.2)
    hlength
  obtain ⟨n, hn, hcell⟩ := List.mem_mapIdx.1
    ((Ramp.mem_cells (c := (_, ramp.color _))).2 ⟨hstep, rfl⟩)
  obtain ⟨hindex, hcolor⟩ := Prod.mk.inj hcell
  refine List.mem_flatMap.2 ⟨(ramp.name, ramp.stored), List.mem_map.2 ⟨_, hramp, rfl⟩, ?_⟩
  refine List.mem_map.2 ⟨_, List.mem_map.2 ⟨_, List.mem_mapIdx.2 ⟨n, hn, rfl⟩, rfl⟩, ?_⟩
  show Declaration.mk (Property.ofStep _ (Document.int n).shown) (.value (ramp.colors[n]).text) = _
  rw [hindex, hcolor]
  rfl

omit hb in
/-- a default theme that is not declared has been asked for by its name -/
theorem exists_of_undeclared {size : Atom} {theme : Option String} {t : Atom × Theme}
    (ht : t ∈ r.themes)
    (h : r.archive.themes.lookup (Showing.of r.archive size (theme.map .text)).defaultTheme =
      none) : ∃ y, theme = some y ∧ .text y ∉ r.themes.keys := by
  have hkeys : r.archive.themes.keys = r.themes.keys := Archive.keys_mapped _ _
  have hfound := Entries.isSome_lookup r.archive.themes
    (Showing.of r.archive size (theme.map .text)).defaultTheme
  rw [h, hkeys] at hfound
  have habsent : (Showing.of r.archive size (theme.map .text)).defaultTheme ∉ r.themes.keys := by
    intro hm
    rw [List.any_eq_true.2 ⟨_, hm, BEq.rfl⟩] at hfound
    exact Bool.noConfusion hfound
  cases theme with
  | some y => exact ⟨y, rfl, habsent⟩
  | none =>
    -- the first theme is declared
    refine absurd ?_ habsent
    show r.archive.themes.keys.head?.getD (.text "") ∈ r.themes.keys
    rw [hkeys]
    cases hk : r.themes.keys with
    | nil => exact absurd (hk ▸ Entries.mem_keys_of_mem ht) List.not_mem_nil
    | cons k ks => exact List.mem_cons_self

/-- the stylesheet of a registry whose names are plain can be read, where the variables of the root
are told apart -/
theorem legible (hp : p.Coherent) (ht : r.archive.Textual) (hn : r.archive.Named) {size : String}
    {theme : Option String}
    (hnodup : ((Showing.of r.archive (.text size) (theme.map .text)).rootBlock.declarations.map
      Declaration.name).Nodup) :
    (Showing.of r.archive (.text size) (theme.map .text)).Legible where
  color p n := ht.answer _ _
  theme t hm := hn.theme _ (Entries.mem_keys_of_mem hm)
  layer := hn.layer
  defaultTheme := by
    cases theme with
    | some y => exact ⟨y, rfl⟩
    | none =>
      show ∃ x, r.archive.themes.keys.head?.getD (.text "") = .text x
      cases hk : r.archive.themes.keys.head? with
      | none => exact ⟨"", rfl⟩
      | some k =>
        obtain ⟨x, rfl⟩ := Atom.exists_of_isPlain (hn.theme k (List.mem_of_head? hk))
        exact ⟨x, rfl⟩
  distinct_themes := (normal_archive hp.keyed hb).themes
  nodup := hnodup

omit hb in
/-- the variable of a color is not that of the surface, unless the default theme is not declared -/
theorem ofToken_ne_surface {size : String} {theme : Option String}
    (h : (Showing.of r.archive (.text size) (theme.map .text)).Legible) {n : String}
    (hn : n ∈ (Showing.of r.archive (.text size) (theme.map .text)).names)
    {t : Atom × Theme} (ht : t ∈ r.themes)
    (hs : ∀ y, theme = some y → .text y ∉ r.themes.keys →
      Property.ofToken n ≠ Property.surface) : Property.ofToken n ≠ Property.surface := by
  cases hl : r.archive.themes.lookup
      (Showing.of r.archive (.text size) (theme.map .text)).defaultTheme with
  | some T => exact Showing.ofToken_ne_surface h.nodup hl hn
  | none =>
    obtain ⟨y, hy, hundeclared⟩ := exists_of_undeclared ht hl
    exact hs y hy hundeclared

end Registry

/-! ## what is shown without a vision -/

section
variable (blocks : List Block) (t : Atom × Theme) (k : Atom)

/-- at an element with a theme and a stack, and no vision, a color has the value that the archive
answers -/
def Stylesheet.ShowsColor (a : Archive) (size : String) (n : Atom) : Prop :=
  ∃ s, a.resolve n ⟨.text size, t.1, k, Archive.plain⟩ = .ok (.text s) ∧
    shown? blocks none (Showing.word t.1) (Showing.word k) (Property.ofToken (Showing.word n)) =
      some (.value s)

/-- at such an element the surface is a variable of the root, which has the value of the surface of
the theme -/
def Stylesheet.ShowsSurface : Prop :=
  ∃ u, t.2.surfaces.lookup k = some u ∧
    shown? blocks none (Showing.word t.1) (Showing.word k) Property.surface =
      some (.variable (Property.ofSurface t.2 u)) ∧
    declared? blocks Selector.root (Property.ofSurface t.2 u) = some (.value u.hex.text)

end

/-- where a surface is shown, a color with the variable of the surface is not -/
theorem Stylesheet.ShowsSurface.not_showsColor {blocks : List Block} {t : Atom × Theme} {k : Atom}
    (h : ShowsSurface blocks t k) {n : Atom}
    (hsame : Property.ofToken (Showing.word n) = Property.surface) (a : Archive) (size : String) :
    ¬ShowsColor blocks t k a size n := by
  rintro ⟨s, _, hs⟩
  obtain ⟨u, _, hu, _⟩ := h
  rw [hsame, hu] at hs
  cases hs

/-- every place shows the surface of its theme -/
theorem Registry.showsSurface {p : Spec} (hp : p.Coherent) {e : Engine} {time : String}
    {r : Registry} (hb : p.build e time = .ok r) {size : Atom} {theme : Option Atom}
    (h : (Showing.of r.archive size theme).Legible) {t : Atom × Theme} (ht : t ∈ r.themes)
    {k : Atom} (hk : k ∈ r.layers.keys) :
    Stylesheet.ShowsSurface (Showing.of r.archive size theme).blocks t k := by
  obtain ⟨a, T⟩ := t
  have hx : (a, T.stored) ∈ r.archive.themes := List.mem_map.2 ⟨_, ht, rfl⟩
  have hlayer : k ∈ r.archive.layers.keys := Archive.keys_mapped Document.int _ ▸ hk
  obtain ⟨x, rfl⟩ := Atom.exists_of_isPlain (h.theme _ hx)
  obtain ⟨i, rfl⟩ := Atom.exists_of_isPlain (h.layer k hlayer)
  obtain ⟨u, hu, hmem⟩ := exists_rampDeclaration hb hp ht hk
  refine ⟨u, hu, ?_, h.declared?_root_of_mem hmem⟩
  refine h.shown?_surface hx hlayer (u := u.stored) ?_
  exact (Entries.lookup_map Surface.stored _ _).trans (congrArg _ hu)

/-- Without a vision the stylesheet of a registry shows the surfaces and what the registry answers,
where the variables of the root are told apart. The root declares the surface of a default theme
that there is; with another default theme a color that has the variable of the surface is not
shown. -/
theorem Spec.shows_of_build {d : Document} (hd : d.isKeyed = true) {p : Spec}
    (hc : compile d = .ok p) {e : Engine} {generatedAt : String} {r : Registry}
    (hb : p.build e generatedAt = .ok r) (hn : r.archive.Named) (size : String)
    (theme : Option String) :
    ∃ blocks, Stylesheet.ofArchive r.archive (.text size) (theme.map .text) = .ok blocks ∧
      ((∀ b ∈ blocks, b.selector = Selector.root → (b.declarations.map Declaration.name).Nodup) →
        ∀ t ∈ r.themes, ∀ k ∈ r.layers.keys,
          Stylesheet.ShowsSurface blocks t k ∧
          ∀ n ∈ r.archive.names,
            (∀ y, theme = some y → .text y ∉ r.themes.keys →
              Property.ofToken (Showing.word n) ≠ Property.surface) →
            Stylesheet.ShowsColor blocks t k r.archive size n) := by
  have hp := coherent_of_compile hd hc
  have ht := Registry.textual_archive hb (isText_of_fallback hc)
  have hblocks := Stylesheet.ofArchive_eq ht hn (.text size) (theme.map .text)
  refine ⟨_, hblocks, fun hroot t hT k hk => ?_⟩
  have hnodup := (Stylesheet.forall_root hblocks).1 hroot
  have h := Registry.legible hb hp ht hn hnodup
  refine ⟨Registry.showsSurface hp hb h hT hk, fun n hm hs => ?_⟩
  obtain ⟨a, T⟩ := t
  have hx : (a, T.stored) ∈ r.archive.themes := List.mem_map.2 ⟨_, hT, rfl⟩
  have hlayer : k ∈ r.archive.layers.keys := Archive.keys_mapped Document.int _ ▸ hk
  obtain ⟨x, rfl⟩ := Atom.exists_of_isPlain (h.theme _ hx)
  obtain ⟨i, rfl⟩ := Atom.exists_of_isPlain (h.layer k hlayer)
  obtain ⟨s, rfl⟩ := Atom.exists_of_isPlain (hn.token n hm)
  have hname : s ∈ (Showing.of r.archive (.text size) (theme.map .text)).names :=
    List.mem_filterMap.2 ⟨_, hm, rfl⟩
  refine ⟨_, ?_, h.shown?_plain hname (Registry.ofToken_ne_surface h hname hT hs) hx hlayer⟩
  rw [ht.resolve_eq]
  exact congrArg Except.ok (h.color_eq (Showing.spot x i) s)

/-! ## a small specification

One color that no contrast is asked of, the same everywhere. Under one deficiency it is another one,
but for the dark theme. -/

namespace Sample

/-- the value, with a name for the color -/
def single (name : String) : Document := .record [
  ("primitives", .record [
    ("gray", .list [.text "#000000", .text "#777777", .text "#ffffff"])]),
  ("themes", .record [
    ("day", .record [("ramp", .text "gray"), ("step", .int 2)]),
    ("night", .record [("ramp", .text "gray"), ("step", .int 0)])]),
  ("nonText", .record [
    (name, .record [("ramp", .text "gray"), ("defaultStep", .int 1), ("decorative", .bool true),
      ("vision", .record [
        ("deuteranopia", .record [("defaultStep", .int 2),
          ("overrides", .list [.record [("bg", .text "night"), ("step", .int 1)]])])])])]),
  ("config", .record [("stacks", .record [("root", .int 0), ("card", .int 1)]),
    ("cvd", .record [("enabled", .bool false)])])]

/-- the specification in which the color has a name of its own -/
def lined : Spec := (Spec.compile (single "line")).toOption.get (by decide)

theorem compile_lined : Spec.compile (single "line") = .ok lined := Outcome.eq_ok_get _

def linedRegistry : Registry := (lined.build Wcag.engine "now").toOption.get (by decide)

theorem build_lined : lined.build Wcag.engine "now" = .ok linedRegistry := Outcome.eq_ok_get _

/-- the specification in which the color has the name of the surface -/
def surfaced : Spec := (Spec.compile (single "bgSurface")).toOption.get (by decide)

theorem compile_surfaced : Spec.compile (single "bgSurface") = .ok surfaced := Outcome.eq_ok_get _

def surfacedRegistry : Registry :=
  (surfaced.build Wcag.engine "now").toOption.get (by decide)

theorem build_surfaced : surfaced.build Wcag.engine "now" = .ok surfacedRegistry :=
  Outcome.eq_ok_get _

theorem isKeyed_lined : (single "line").isKeyed = true := by decide

theorem isKeyed_surfaced : (single "bgSurface").isKeyed = true := by decide

theorem names_lined : linedRegistry.archive.names = [.text "line"] := by
  rw [Spec.names_of_build isKeyed_lined compile_lined build_lined]
  rfl

theorem names_surfaced : surfacedRegistry.archive.names = [.text "bgSurface"] := by
  rw [Spec.names_of_build isKeyed_surfaced compile_surfaced build_surfaced]
  rfl

theorem named_lined : linedRegistry.archive.Named where
  token := by
    rw [names_lined]
    decide
  theme := by decide
  layer := by decide
  ramp := by decide

theorem named_surfaced : surfacedRegistry.archive.Named where
  token := by
    rw [names_surfaced]
    decide
  theme := by decide
  layer := by decide
  ramp := by decide

theorem text_mem {l : List Atom} {s : String} (h : l.any (Atom.text s == ·) = true) :
    .text s ∈ l := by
  obtain ⟨a, ha, hs⟩ := List.any_eq_true.1 h
  rwa [← Atom.eq_of_text_beq hs]

theorem names_showing {a : Archive} {n : String} (h : a.names = [.text n]) {size : Atom}
    {theme : Option Atom} : (Showing.of a size theme).names = [n] := by
  rw [Showing.names_of, h]
  rfl

end Sample

/-- with the second theme as the default -/
theorem Spec.shows_of_build_sample :
    ∃ blocks, Stylesheet.ofArchive Sample.linedRegistry.archive (.text "16px")
        (some (.text "night")) = .ok blocks ∧
      ∀ t ∈ Sample.linedRegistry.themes, ∀ k ∈ Sample.linedRegistry.layers.keys,
        Stylesheet.ShowsSurface blocks t k ∧
        Stylesheet.ShowsColor blocks t k Sample.linedRegistry.archive "16px" (.text "line") := by
  obtain ⟨blocks, hblocks, h⟩ := shows_of_build Sample.isKeyed_lined Sample.compile_lined
    Sample.build_lined Sample.named_lined "16px" (some "night")
  have hnodup : ∀ b ∈ blocks, b.selector = Selector.root →
      (b.declarations.map Declaration.name).Nodup := by
    rw [Stylesheet.forall_root hblocks, Showing.names_rootBlock,
      Sample.names_showing Sample.names_lined]
    decide +kernel
  have hname : .text "line" ∈ Sample.linedRegistry.archive.names := by
    rw [Sample.names_lined]
    exact List.mem_singleton.2 rfl
  refine ⟨blocks, hblocks, fun t ht k hk => ?_⟩
  obtain ⟨hsurface, hcolor⟩ := h hnodup t ht k hk
  exact ⟨hsurface, hcolor _ hname fun _ _ _ => by decide⟩

/-- a color with the variable of the surface, and a default theme that is not declared -/
theorem Spec.not_shows_surfaced :
    (Sample.single "bgSurface").isKeyed = true ∧
      compile (Sample.single "bgSurface") = .ok Sample.surfaced ∧
      Sample.surfaced.build Wcag.engine "now" = .ok Sample.surfacedRegistry ∧
      Sample.surfacedRegistry.archive.Named ∧
      ∃ blocks, Stylesheet.ofArchive Sample.surfacedRegistry.archive (.text "16px")
          (some (.text "dusk")) = .ok blocks ∧
        (∀ b ∈ blocks, b.selector = Selector.root →
          (b.declarations.map Declaration.name).Nodup) ∧
        ∃ t ∈ Sample.surfacedRegistry.themes, ∃ k ∈ Sample.surfacedRegistry.layers.keys,
        ∃ n ∈ Sample.surfacedRegistry.archive.names,
          ¬Stylesheet.ShowsColor blocks t k Sample.surfacedRegistry.archive "16px" n := by
  have hp := coherent_of_compile Sample.isKeyed_surfaced Sample.compile_surfaced
  have ht := Registry.textual_archive Sample.build_surfaced
    (isText_of_fallback Sample.compile_surfaced)
  have hblocks := Stylesheet.ofArchive_eq ht Sample.named_surfaced (.text "16px")
    (some (.text "dusk"))
  have hroot : ∀ b ∈ (Showing.of Sample.surfacedRegistry.archive (.text "16px")
      (some (.text "dusk"))).blocks, b.selector = Selector.root →
      (b.declarations.map Declaration.name).Nodup := by
    rw [Stylesheet.forall_root hblocks, Showing.names_rootBlock,
      Sample.names_showing Sample.names_surfaced]
    decide +kernel
  have h : (Showing.of Sample.surfacedRegistry.archive (.text "16px")
      ((some "dusk").map .text)).Legible :=
    Registry.legible Sample.build_surfaced hp ht Sample.named_surfaced
      ((Stylesheet.forall_root hblocks).1 hroot)
  have hday : .text "day" ∈ Sample.surfacedRegistry.themes.keys :=
    Sample.text_mem (by decide)
  obtain ⟨T, hT⟩ := Entries.mem_keys.1 hday
  have hk : .text "root" ∈ Sample.surfacedRegistry.layers.keys :=
    Sample.text_mem (by decide)
  have hname : .text "bgSurface" ∈ Sample.surfacedRegistry.archive.names := by
    rw [Sample.names_surfaced]
    exact List.mem_singleton.2 rfl
  have hsurface := Registry.showsSurface hp Sample.build_surfaced h hT hk
  refine ⟨Sample.isKeyed_surfaced, Sample.compile_surfaced, Sample.build_surfaced,
    Sample.named_surfaced, _, hblocks, hroot, _, hT, _, hk, _, hname, ?_⟩
  exact hsurface.not_showsColor (by decide) _ _

end Palette
