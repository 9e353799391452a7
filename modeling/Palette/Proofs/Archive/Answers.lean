import Palette.Proofs.Archive.Textual
import Palette.Proofs.Archive.Visions
import Palette.Proofs.Registry.Shards
import Palette.Proofs.Registry.Space

/-!
# What a registry answers

A registry that has been built has all variants without deficiency at the stacks that there are. So
a question about a theme and a font size that there are is settled at the nearest such stack, under
the vision asked for or without deficiency; fallback themes are never reached. Any other question
is answered without regard to context.

* `Archive.firstOf?_stackKeys`   the search through the stacks, level by level;
* `Registry.answer_of_level`     it ends at the first level that has a variant without deficiency;
* `Registry.answer_of_none`      it finds nothing where no key that is tried has a variant;
* `Spec.Answers`                 the answer to a question, with its color;
* `Spec.exists_answers`          every question has one.
-/

namespace Palette
open Outcome

/-! ## the search through the stacks -/

/-- the key of a name in a context, at another stack and under another vision -/
def Lookup.key (c : Lookup) (token stack vision : Atom) : VariantKey :=
  ⟨token, c.fontSize, c.theme, stack, vision⟩

theorem findSome?_flatMap {α β γ : Type} (l : List α) (f : α → List β) (g : β → Option γ) :
    (l.flatMap f).findSome? g = l.findSome? fun a => (f a).findSome? g := by
  induction l with
  | nil => rfl
  | cons a l ih =>
    rw [List.flatMap_cons, List.findSome?_append, ih, List.findSome?_cons]
    cases (f a).findSome? g <;> rfl

/-- where nothing is found before an element, and something there -/
theorem findSome?_of_find? {α β : Type} {l : List α} {p : α → Bool} {f : α → Option β} {a : α}
    {b : β} (h : l.find? p = some a) (hnone : ∀ x ∈ l, p x = false → f x = none)
    (hsome : f a = some b) : l.findSome? f = some b := by
  obtain ⟨_, front, back, rfl, hfront⟩ := List.find?_eq_some_iff_append.1 h
  refine List.findSome?_eq_some_iff.2 ⟨front, a, back, rfl, hsome, fun x hx => ?_⟩
  exact hnone x (List.mem_append_left _ hx) (by simpa using hfront x hx)

namespace Archive
variable {a : Archive} {token : Atom} {c : Lookup}

theorem findSome?_visions {β : Type} (vision : Atom) (f : Atom → Option β) :
    (visions vision).findSome? f = (f vision).or (f plain) := by
  rw [visions]
  split
  · next h =>
    obtain rfl : vision = plain := Atom.eq_of_text_beq (BEq.symm h)
    cases hp : f plain <;> simp [hp]
  · cases hv : f vision <;> cases hp : f plain <;> simp [hv, hp]

theorem firstOf?_stackKeys :
    a.firstOf? ((stackKeys token c).map some) =
      (c.stack :: relaxed c.stack).findSome? fun s =>
        ((a.variants.get? (c.key token s c.vision)).or
          (a.variants.get? (c.key token s plain))).map StoredVariant.hex := by
  rw [firstOf?, List.findSome?_map, stackKeys, findSome?_flatMap]
  congr 1
  funext s
  rw [List.findSome?_map, findSome?_visions, Option.map_or]
  rfl

end Archive

namespace Registry
variable {r : Registry} {token : Atom} {c : Lookup}

theorem get?_archive (k : VariantKey) :
    r.archive.variants.get? k = (r.variants.get? k).map Variant.stored := by
  rw [← OrderedMap.lookup_toList, toList_variants_archive, Entries.lookup_map,
    OrderedMap.lookup_toList]

/-- the answer is found at the first level that has a variant without deficiency -/
theorem answer_of_level {declared : Atom → Bool} {level : Atom} {x : Variant}
    (hlevel : (c.stack :: relaxed c.stack).find? declared = some level)
    (hnone : ∀ s ∈ c.stack :: relaxed c.stack, declared s = false →
      ∀ v, r.variants.get? (c.key token s v) = none)
    (hx : r.variants.get? (c.key token level Archive.plain) = some x) :
    r.archive.answer token c =
      ((r.variants.get? (c.key token level c.vision)).getD x).hex.document := by
  have hfirst : r.archive.firstOf? ((Archive.stackKeys token c).map some) =
      some ((r.variants.get? (c.key token level c.vision)).getD x).hex.document := by
    rw [Archive.firstOf?_stackKeys]
    refine findSome?_of_find? hlevel (fun s hs hd => ?_) ?_
    · rw [get?_archive, get?_archive, hnone s hs hd, hnone s hs hd]
      rfl
    · rw [get?_archive, get?_archive, hx]
      cases r.variants.get? (c.key token level c.vision) <;> rfl
  rw [Archive.firstOf?] at hfirst
  rw [Archive.answer, Archive.firstOf?, Archive.candidates, List.findSome?_append, hfirst]
  rfl

/-- where no key that is tried has a variant, the answer does not regard the context -/
theorem answer_of_none {h : Hex} (hd : r.defaults.lookup token = some h)
    (hnone : ∀ k, some k ∈ r.archive.candidates token c → r.variants.get? k = none) :
    r.archive.answer token c = h.document := by
  have hfirst : r.archive.firstOf? (r.archive.candidates token c) = none := by
    refine List.findSome?_eq_none_iff.2 fun k hk => ?_
    cases k with
    | none => rfl
    | some k =>
      rw [Option.bind_some, get?_archive, hnone k hk]
      rfl
  have hdefault : r.archive.defaults.lookup token = some h.document := by
    show List.lookup token (Archive.mapped Hex.document r.defaults) = _
    rw [Archive.mapped, Entries.lookup_map, hd]
    rfl
  rw [Archive.answer, hfirst, Option.getD_none, Archive.defaultOf, hdefault, Option.getD_some]

end Registry

/-! ## built registries -/

theorem Hex.text_ne_empty (h : Hex) : h.text ≠ "" := by
  intro he
  have hchars : h.chars = [] := String.ofList_inj.1 he
  have hlength := h.length_chars
  rw [hchars] at hlength
  cases hlength

/-- the colors without regard to context are colors of the ramp -/
theorem Semantic.mem_colors_of_defaults {t : Semantic} {ramps : Ramps} (ht : t.Fits ramps)
    {x : Atom × Hex} (hx : x ∈ t.defaults) : x.2 ∈ t.ramp.colors := by
  rcases List.mem_cons.1 hx with rfl | hx
  · exact Ramp.color_mem_colors ht.default
  · obtain ⟨i, hi, rfl⟩ := List.mem_map.1 hx
    exact Ramp.color_mem_colors (ht.states i hi).step

/-- the root is one of the stacks to try -/
theorem base_mem_relaxed (stack : Atom) : Stacks.base ∈ stack :: relaxed stack := by
  have hall : ∀ e ∈ relaxation, e.1 = "root" ∨ "root" ∈ e.2 := by decide
  cases stack with
  | text s =>
    show Stacks.base ∈ Atom.text s :: ((relaxation.lookup s).getD ["root"]).map Atom.text
    cases hl : relaxation.lookup s with
    | none => exact List.mem_cons_of_mem _ List.mem_cons_self
    | some names =>
      obtain ⟨s', hm, hs⟩ := Entries.exists_of_lookup hl
      rcases hall _ hm with h | h
      · obtain rfl : s = "root" := (eq_of_beq hs).trans h
        exact List.mem_cons_self
      · exact List.mem_cons_of_mem _ (List.mem_map_of_mem h)
  | _ => exact List.mem_cons_of_mem _ List.mem_cons_self

/-- where a text is asked for, all of them are texts -/
theorem exists_of_mem_relaxed {stack : String} {s : Atom}
    (hs : s ∈ .text stack :: relaxed (.text stack)) : ∃ t, s = .text t := by
  rcases List.mem_cons.1 hs with rfl | hs
  · exact ⟨stack, rfl⟩
  · obtain ⟨t, _, rfl⟩ := List.mem_map.1 hs
    exact ⟨t, rfl⟩

theorem Entries.mem_keys_of_lookup {ν : Type} {m : Entries Atom ν} {s : String} {v : ν}
    (h : m.lookup (.text s) = some v) : .text s ∈ m.keys := by
  obtain ⟨k, hm, hk⟩ := exists_of_lookup h
  rw [← Atom.eq_of_text_beq hk]
  exact mem_keys_of_mem hm

namespace Spec
variable {p : Spec} {e : Engine} {generatedAt : String} {r : Registry}

/-- what a registry answers about a name in a context -/
structure Answers (p : Spec) (r : Registry) (n : Atom) (c : Lookup) (h : Hex) : Prop where
  resolve : r.archive.resolve n c = .ok h.document
  nonempty : h.text ≠ ""
  /-- a color of the base ramp, or of the ramp of the entry for the deficiency asked for -/
  color : ∃ t ∈ p.semantics, n ∈ t.2.names ∧ (h ∈ t.2.ramp.colors ∨
    ∃ (m : Deficiency) (w : VisionEntry), (.text m.name, w) ∈ t.2.vision ∧
      c.vision = .text m.name ∧ h ∈ w.ramp.colors)
  /-- in a context that there is but for its stack, that of the vision at the nearest stack, and
  else the one without deficiency, which is there -/
  level : c.theme ∈ p.themes.keys → c.fontSize ∈ FontSize.names →
    ∃ level ∈ p.layers.keys,
      (c.stack :: relaxed c.stack).find? p.layers.keys.contains = some level ∧
      ∃ x, r.variants.get? (c.key n level VariantKey.plainVision) = some x ∧
        h = ((r.variants.get? (c.key n level c.vision)).getD x).hex
  /-- in any other context, the color without regard to context -/
  default : ¬(c.theme ∈ p.themes.keys ∧ c.fontSize ∈ FontSize.names) →
    r.defaults.lookup n = some h

/-- one of the stacks that are tried is there, for the root is -/
theorem exists_level {d : Document} (hc : compile d = .ok p) (stack : String) :
    ∃ level ∈ p.layers.keys,
      (.text stack :: relaxed (.text stack)).find? p.layers.keys.contains = some level := by
  obtain ⟨_, hc⟩ := memberProblems_eq_nil_of_compile hc
  obtain ⟨texts, parts, hread⟩ := read_of_compileUnchecked hc
  obtain ⟨others, hroot⟩ := Stacks.root_of_ofDocument hread.layers
  have hbase : p.layers.keys.contains Stacks.base = true := by
    rw [hroot]
    rfl
  cases h : (.text stack :: relaxed (.text stack)).find? p.layers.keys.contains with
  | none => exact absurd hbase (List.find?_eq_none.1 h _ (base_mem_relaxed _))
  | some level =>
    obtain ⟨t, rfl⟩ := exists_of_mem_relaxed (List.mem_of_find?_eq_some h)
    exact ⟨_, Atom.contains_text.1 (List.find?_some h), rfl⟩

theorem hasContext_of_mem_entries (hu : p.Unambiguous) (hp : p.Coherent)
    {x : VariantKey × Variant} (hx : x ∈ p.entries e) : p.HasContext x.1 := by
  obtain ⟨c, s, hs, ⟨y, ⟨_, _, _, rfl⟩, rfl⟩, _⟩ := exists_of_mem_entries hu hp hx
  exact hasContext_atSite hs _ _

section
variable (hu : p.Unambiguous) (hp : p.Coherent) (hb : p.build e generatedAt = .ok r)
include hu hp hb

/-- what is found is a variant of a context -/
theorem exists_of_get? {k : VariantKey} {x : Variant} (h : r.variants.get? k = some x) :
    ∃ k', (k == k') = true ∧ (k', x) ∈ r.variants.toList ∧ p.HasContext k' := by
  rw [← OrderedMap.lookup_toList] at h
  obtain ⟨k', hm, hk⟩ := Entries.exists_of_lookup h
  refine ⟨k', hk, hm, ?_⟩
  rw [toList_variants_of_build hu hp hb] at hm
  exact hasContext_of_mem_entries hu hp hm

theorem get?_eq_none_of_stack {k : VariantKey} {s : String} (hk : k.stack = .text s)
    (hs : .text s ∉ p.layers.keys) : r.variants.get? k = none := by
  refine Option.eq_none_iff_forall_ne_some.2 fun x hx => ?_
  obtain ⟨k', heq, _, hc⟩ := exists_of_get? hu hp hb hx
  have hpart := (VariantKey.beq_iff_parts.1 heq).2.2.2.1
  rw [hk] at hpart
  exact hs (Atom.eq_of_text_beq hpart ▸ hc.2.2)

/-- out of the contexts that there are, no key that is tried has a variant -/
theorem get?_eq_none_of_mem_candidates {n : Atom} {fontSize theme stack vision : String}
    (hout : ¬(.text theme ∈ p.themes.keys ∧ .text fontSize ∈ FontSize.names)) {k : VariantKey}
    (hk : some k ∈ r.archive.candidates n (.ofNames fontSize theme stack vision)) :
    r.variants.get? k = none := by
  refine Option.eq_none_iff_forall_ne_some.2 fun x hx => ?_
  obtain ⟨k', heq, _, hc⟩ := exists_of_get? hu hp hb hx
  obtain ⟨_, hsize, htheme, _⟩ := VariantKey.beq_iff_parts.1 heq
  obtain ⟨hk, hor, _⟩ := Archive.of_mem_candidates hk
  refine hout ⟨?_, ?_⟩
  · rcases hor with ht | hf
    · rw [ht] at htheme
      exact Atom.eq_of_text_beq htheme ▸ hc.2.1
    · obtain ⟨ts, hl⟩ := Option.isSome_iff_exists.1 hf
      have hthemes : (Archive.mapped Theme.fallback r.themes).keys = p.themes.keys := by
        obtain ⟨_, failures, _, _, rfl⟩ := build_ok.1 hb
        exact Archive.keys_mapped _ _
      rw [← hthemes]
      exact Entries.mem_keys_of_lookup hl
  · rw [hk] at hsize
    exact Atom.eq_of_text_beq hsize ▸ hc.1

theorem exists_get?_of_plain {n : Atom} (hn : n ∈ p.names) {fontSize theme stack : Atom}
    (hc : p.HasContext ⟨n, fontSize, theme, stack, VariantKey.plainVision⟩) :
    ∃ x, r.variants.get? ⟨n, fontSize, theme, stack, VariantKey.plainVision⟩ = some x := by
  have hk : _ ∈ (p.entries e).keys := (mem_keys_entriesIn_of_plain hu hp rfl).2 ⟨hn, hc⟩
  obtain ⟨x, hx⟩ := Entries.mem_keys.1 hk
  rw [← toList_variants_of_build hu hp hb] at hx
  exact ⟨x, r.variants.get?_of_mem hx⟩

/-- the color of a variant is on a ramp of the color that has its name -/
theorem color_of_get? {k : VariantKey} {x : Variant} (h : r.variants.get? k = some x)
    {t : Atom × Semantic} (ht : t ∈ p.semantics) (hn : k.token ∈ t.2.names) {vision : String}
    (hv : k.vision = .text vision) :
    x.hex ∈ t.2.ramp.colors ∨
      ∃ (m : Deficiency) (w : VisionEntry), (.text m.name, w) ∈ t.2.vision ∧
        k.vision = .text m.name ∧ x.hex ∈ w.ramp.colors := by
  obtain ⟨k', heq, hm, _⟩ := exists_of_get? hu hp hb h
  rw [toList_variants_of_build hu hp hb] at hm
  obtain ⟨t', ht', c, hc, s, _, y, ⟨step, manual, hstep, rfl⟩, hx⟩ := exists_belongs hu hp hm
  obtain ⟨rfl, rfl⟩ := Prod.mk.inj hx
  obtain ⟨htoken, _, _, _, hvision⟩ := VariantKey.beq_iff_parts.1 heq
  have htt : t' = t := by
    by_contra hne
    have hfalse := hu.beq_names ht ht' (Ne.symm hne) _ hn _ hc.token
    exact Bool.noConfusion (hfalse.symm.trans htoken)
  rw [htt] at hc
  rw [hv] at hvision ⊢
  have hcv : c.vision = .text vision := Atom.eq_of_text_beq hvision
  have hcolor : c.ramp.color step.index ∈ c.ramp.colors := Ramp.color_mem_colors hstep
  by_cases hown : ∃ (m : Deficiency) (w : VisionEntry), (.text m.name, w) ∈ t.2.vision ∧
      Atom.text vision = .text m.name
  · obtain ⟨m, w, hw, hvm⟩ := hown
    refine .inr ⟨m, w, hw, hvm, ?_⟩
    rw [← hc.own m w (hcv.trans hvm) hw]
    exact hcolor
  · refine .inl ?_
    rw [← hc.base fun m w hvm hw => hown ⟨m, w, hw, hcv.symm.trans hvm⟩]
    exact hcolor

/-- so is the color found at a level, under the vision asked for or else without deficiency -/
theorem color_of_level {c : Lookup} {n level : Atom} {vision : String}
    (hv : c.vision = .text vision) {t : Atom × Semantic} (ht : t ∈ p.semantics)
    (hn : n ∈ t.2.names) {x : Variant}
    (hx : r.variants.get? (c.key n level VariantKey.plainVision) = some x) :
    ((r.variants.get? (c.key n level c.vision)).getD x).hex ∈ t.2.ramp.colors ∨
      ∃ (m : Deficiency) (w : VisionEntry), (.text m.name, w) ∈ t.2.vision ∧
        c.vision = .text m.name ∧
        ((r.variants.get? (c.key n level c.vision)).getD x).hex ∈ w.ramp.colors := by
  cases hg : r.variants.get? (c.key n level c.vision) with
  | some y => exact color_of_get? hu hp hb hg ht hn hv
  | none =>
    refine .inl ((color_of_get? hu hp hb hx ht hn rfl).resolve_right ?_)
    rintro ⟨m, _, _, hm, _⟩
    exact Semantic.plain_ne_name m hm

theorem exists_default {t : Atom × Semantic} (ht : t ∈ p.semantics) {n : Atom}
    (hn : n ∈ t.2.names) : ∃ h, r.defaults.lookup n = some h ∧ h ∈ t.2.ramp.colors := by
  have hlookup : r.defaults.lookup n = (Entries.ofList t.2.defaults).lookup n := by
    obtain ⟨_, failures, _, _, rfl⟩ := build_ok.1 hb
    exact lookup_defaults hu ht hn
  rw [← Semantic.keys_defaults] at hn
  obtain ⟨h, hm⟩ := Entries.mem_keys.1 hn
  have hdistinct := distinct_defaults hu ht
  refine ⟨h, ?_, Semantic.mem_colors_of_defaults (hp.semantic t ht) hm⟩
  rw [hlookup, Entries.ofList_of_distinct hdistinct]
  exact Entries.lookup_of_mem hdistinct hm

end

/-- every question in texts about a name of a registry has an answer -/
theorem exists_answers {d : Document} (hd : d.isKeyed = true) (hc : compile d = .ok p)
    (hb : p.build e generatedAt = .ok r) {n : Atom} (hn : n ∈ p.names)
    (fontSize theme stack vision : String) :
    ∃ h, p.Answers r n (.ofNames fontSize theme stack vision) h := by
  have hu := (names_of_compile hd hc).1
  have hp := coherent_of_compile hd hc
  obtain ⟨t, ht, hnt⟩ := hu.mem_names.1 hn
  let c := Lookup.ofNames fontSize theme stack vision
  have hresolve := (Registry.textual_archive hb (isText_of_fallback hc)).resolve_eq n c
  by_cases hin : .text theme ∈ p.themes.keys ∧ .text fontSize ∈ FontSize.names
  · obtain ⟨level, hdeclared, hlevel⟩ := exists_level hc stack
    obtain ⟨x, hx⟩ := exists_get?_of_plain hu hp hb hn ⟨hin.2, hin.1, hdeclared⟩
    -- the levels before the nearest one are no stacks of the specification
    have hnone : ∀ s ∈ .text stack :: relaxed (.text stack), p.layers.keys.contains s = false →
        ∀ v, r.variants.get? ⟨n, .text fontSize, .text theme, s, v⟩ = none := by
      intro s hs hno v
      obtain ⟨s, rfl⟩ := exists_of_mem_relaxed hs
      refine get?_eq_none_of_stack hu hp hb rfl fun hmem => ?_
      exact Bool.noConfusion (hno.symm.trans (Atom.contains_text.2 hmem))
    have hanswer := Registry.answer_of_level (c := c) hlevel hnone hx
    refine ⟨_, hresolve.trans (congrArg Except.ok hanswer), Hex.text_ne_empty _, ?_, ?_, ?_⟩
    · exact ⟨t, ht, hnt, color_of_level hu hp hb rfl ht hnt hx⟩
    · exact fun _ _ => ⟨level, hdeclared, hlevel, x, hx, rfl⟩
    · exact fun hout => absurd hin hout
  · obtain ⟨h, hdefault, hcolor⟩ := exists_default hu hp hb ht hnt
    have hanswer := Registry.answer_of_none (c := c) hdefault fun k hk =>
      get?_eq_none_of_mem_candidates hu hp hb hin hk
    refine ⟨h, hresolve.trans (congrArg Except.ok hanswer), h.text_ne_empty, ?_, ?_, ?_⟩
    · exact ⟨t, ht, hnt, .inl hcolor⟩
    · exact fun ht hf => absurd ⟨ht, hf⟩ hin
    · exact fun _ => hdefault

/-- a state of the small specification, at a stack that it lacks and under a vision that nothing
has, and out of its themes -/
theorem exists_answers_sample :
    (∃ x, Sample.registry.variants.get? ⟨.text "a-b-c", .text "12px", .text "night", .text "card",
        VariantKey.plainVision⟩ = some x ∧
      Sample.registry.archive.resolve (.text "a-b-c") (.ofNames "12px" "night" "overlay" "dim") =
        .ok ((Sample.registry.variants.get? ⟨.text "a-b-c", .text "12px", .text "night",
          .text "card", .text "dim"⟩).getD x).hex.document) ∧
      ∃ h, Sample.registry.defaults.lookup (.text "a-b-c") = some h ∧
        Sample.registry.archive.resolve (.text "a-b-c") (.ofNames "12px" "dusk" "card" "dim") =
          .ok h.document := by
  have hn : Atom.text "a-b-c" ∈ Sample.spec.names :=
    .tail _ (.tail _ (.tail _ (.tail _ (.tail _ (.head _)))))
  have hanswers := exists_answers Sample.isKeyed_document Sample.compile_document Sample.build_spec
    hn "12px"
  have hsizes : Atom.text "12px" ∈ FontSize.names := List.mem_cons_self
  have hthemes : Sample.spec.themes.keys = [.text "day", .text "night"] := rfl
  constructor
  · obtain ⟨h, hh⟩ := hanswers "night" "overlay" "dim"
    obtain ⟨level, _, hlevel, x, hx, hhex⟩ :=
      hh.level (by rw [hthemes]; exact .tail _ (.head _)) hsizes
    obtain rfl : level = .text "card" := Option.some.inj (hlevel.symm.trans rfl)
    exact ⟨x, hx, hhex ▸ hh.resolve⟩
  · obtain ⟨h, hh⟩ := hanswers "dusk" "card" "dim"
    refine ⟨h, hh.default fun hin => ?_, hh.resolve⟩
    have hdusk : Atom.text "dusk" ∈ Sample.spec.themes.keys := hin.1
    rw [hthemes] at hdusk
    simp at hdusk

end Spec
end Palette
