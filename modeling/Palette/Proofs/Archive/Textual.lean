import Palette.Archive.Resolve
import Palette.Proofs.Archive.Transport
import Palette.Proofs.Registry.Built

/-!
# Answers of built registries

An archive whose colors and fallback themes are texts answers every question with a text. The
registries of specifications that pass the check give such archives, with their variants in order.

* `Archive.Textual`            these archives, and `Archive.Textual.resolve_eq` what they answer;
* `Registry.textual_archive`   registries give such archives;
* `Registry.names_archive`, `Spec.names_of_build`   their names;
* `Registry.answer_of_mem`     a variant is the answer in its own context.
-/

namespace Palette
open Outcome

/-! ## colors that can be asked for -/

/-- an archive whose colors and fallback themes are texts -/
structure Archive.Textual (a : Archive) : Prop where
  variant : ∀ e ∈ a.variants.toList, ∃ s, e.2.hex = .text s
  default : ∀ e ∈ a.defaults, ∃ s, e.2 = .text s
  fallback : ∀ e ∈ a.fallbacks, ∀ d ∈ e.2, d.isText = true

namespace Archive.Textual
variable {a : Archive} (h : a.Textual)
include h

theorem answer (token : Atom) (c : Lookup) : ∃ s, a.answer token c = .text s := by
  rw [Archive.answer]
  cases hf : a.firstOf? (a.candidates token c) with
  | some d =>
    obtain ⟨k, _, hk⟩ := List.exists_of_findSome?_eq_some hf
    obtain ⟨v, hv, rfl⟩ := Option.map_eq_some_iff.1 hk
    obtain ⟨k', _, hget⟩ := Option.bind_eq_some_iff.1 hv
    rw [← OrderedMap.lookup_toList] at hget
    obtain ⟨k'', hm, _⟩ := Entries.exists_of_lookup hget
    exact h.variant _ hm
  | none =>
    rw [Option.getD_none, defaultOf]
    cases hd : a.defaults.lookup token with
    | some d =>
      obtain ⟨k, hm, _⟩ := Entries.exists_of_lookup hd
      exact h.default _ hm
    | none => exact ⟨"", rfl⟩

theorem isSome_of_mem_candidates {token : Atom} {c : Lookup} :
    ∀ k ∈ a.candidates token c, k.isSome = true := by
  intro k hk
  rcases List.mem_append.1 hk with hk | hk
  · obtain ⟨_, _, rfl⟩ := List.mem_map.1 hk
    rfl
  · obtain ⟨theme, ht, hk⟩ := List.mem_flatMap.1 hk
    have htext : theme.isText = true := by
      cases hl : a.fallbacks.lookup c.theme with
      | none =>
        rw [hl] at ht
        exact absurd ht List.not_mem_nil
      | some ds =>
        rw [hl] at ht
        obtain ⟨_, hm, _⟩ := Entries.exists_of_lookup hl
        exact h.fallback _ hm theme ht
    obtain ⟨s, rfl⟩ := Document.exists_of_isText htext
    obtain ⟨_, _, rfl⟩ := List.mem_map.1 hk
    rfl

theorem resolve_eq (token : Atom) (c : Lookup) : a.resolve token c = .ok (a.answer token c) := by
  rw [resolve, if_neg]
  rw [meetsNoKey]
  split
  · next hd =>
    have hm := (List.dropWhile_sublist _).subset (hd ▸ List.mem_cons_self)
    exact absurd (h.isSome_of_mem_candidates _ hm) Bool.false_ne_true
  · exact Bool.false_ne_true

end Archive.Textual

/-! ## fallback themes -/

theorem Document.elementsOf_texts {o : Option Document} (h : Spec.optional Spec.isTexts o = true)
    {items : List Document} (hi : Document.elementsOf o = .ok items) :
    ∀ d ∈ items, d.isText = true := by
  cases o with
  | none =>
    obtain rfl := Except.ok.inj hi
    exact fun d hd => absurd hd List.not_mem_nil
  | some v =>
    cases v with
    | list ds =>
      cases ds with
      | nil =>
        obtain rfl := Except.ok.inj hi
        exact fun d hd => absurd hd List.not_mem_nil
      | cons d ds =>
        obtain rfl := Except.ok.inj hi
        exact List.all_eq_true.1 h
    | _ => cases h

/-- fallback themes that pass the check are texts -/
theorem Spec.isText_of_fallback {d : Document} {p : Spec} (hc : compile d = .ok p) :
    ∀ x ∈ p.themes, ∀ f ∈ x.2.fallback, f.isText = true := by
  obtain ⟨⟨ms, rfl, hp⟩, h⟩ := memberProblems_eq_nil_of_compile hc
  obtain ⟨texts, parts, h⟩ := read_of_compileUnchecked h
  intro x hx
  obtain ⟨e, he, _, ht⟩ := h.themes.exists_of_mem hx
  simp only [memberProblems, List.append_eq_nil_iff] at hp
  obtain ⟨⟨⟨⟨⟨⟨_, hthemes⟩, _⟩, _⟩, _⟩, _⟩, _⟩ := hp
  obtain ⟨ts, hts, hthemes⟩ := mapProblems_eq_nil hthemes
  have hproblems : themeProblems (scope ms) s!"themes.{e.1.shown}" e.2 = [] := by
    refine hthemes e ?_
    have hblock : Document.block (.map ms) "themes" = ts := by
      show membersOf ((ms.lookup (.text "themes")).getD .null) = ts
      rw [hts]
      rfl
    exact hblock ▸ he
  obtain ⟨_, _, ht⟩ := bind_ok.1 ht
  obtain ⟨ramp, _, ht⟩ := bind_ok.1 ht
  obtain ⟨_, _, ht⟩ := bind_ok.1 ht
  obtain ⟨step, _, ht⟩ := bind_ok.1 ht
  obtain ⟨o, ho, ht⟩ := bind_ok.1 ht
  obtain ⟨fallback, hf, ht⟩ := bind_ok.1 ht
  obtain ⟨_, _, ht⟩ := bind_ok.1 ht
  obtain ⟨aliases, _, ht⟩ := bind_ok.1 ht
  rw [← pure_ok.1 ht]
  refine Document.elementsOf_texts ?_ hf
  cases hd : e.2 with
  | map members =>
    rw [hd] at ho hproblems
    obtain rfl := Except.ok.inj ho
    simp only [themeProblems, namesProblems, List.append_eq_nil_iff, List.flatMap_cons] at hproblems
    exact demand_eq_nil.1 hproblems.1.2.1
  | _ =>
    rw [hd] at ho
    cases ho

/-! ## archives of registries -/

theorem Archive.keys_mapped {α β : Type} (f : α → β) (m : Entries Atom α) :
    (mapped f m).keys = m.keys := by
  rw [mapped, Entries.keys, Entries.keys, List.map_map]
  rfl

theorem Archive.visions_eq_cons (v : Atom) : ∃ vs, visions v = v :: vs := by
  rw [visions]
  split
  · next h => exact ⟨[], by rw [Atom.eq_of_text_beq (BEq.symm h), plain, VariantKey.plainVision]⟩
  · exact ⟨[plain], rfl⟩

namespace Registry

/-- a variant is the answer in its own context -/
theorem answer_of_mem {r : Registry} {x : VariantKey × Variant}
    (hx : x ∈ r.variants.toList) {token : Atom} {c : Lookup}
    (hk : (x.1 == ⟨token, c.fontSize, c.theme, c.stack, c.vision⟩) = true) :
    r.archive.answer token c = x.2.hex.document := by
  have hm : (x.1, x.2.stored) ∈ r.archive.variants.toList := by
    rw [toList_variants_archive]
    exact List.mem_map.2 ⟨x, hx, rfl⟩
  have hget : r.archive.variants.get? ⟨token, c.fontSize, c.theme, c.stack, c.vision⟩ =
      some x.2.stored := by
    rw [← OrderedMap.lookup_toList, ← Entries.lookup_congr _ hk, OrderedMap.lookup_toList]
    exact OrderedMap.get?_of_mem _ hm
  obtain ⟨vs, hvs⟩ := Archive.visions_eq_cons c.vision
  rw [Archive.answer, Archive.firstOf?, Archive.candidates, Archive.stackKeys, List.flatMap_cons,
    hvs, List.map_cons, List.cons_append, List.map_cons, List.cons_append, List.findSome?_cons,
    Option.bind_some, hget]
  rfl

section
variable {p : Spec} {e : Engine} {time : String} {r : Registry} (hb : p.build e time = .ok r)
include hb

theorem textual_archive (hf : ∀ x ∈ p.themes, ∀ f ∈ x.2.fallback, f.isText = true) :
    r.archive.Textual := by
  obtain ⟨_, failures, _, _, rfl⟩ := Spec.build_ok.1 hb
  exact {
    variant := fun x hx => by
      rw [toList_variants_archive] at hx
      obtain ⟨y, _, rfl⟩ := List.mem_map.1 hx
      exact ⟨_, rfl⟩
    default := fun x hx => by
      obtain ⟨y, _, rfl⟩ := List.mem_map.1 hx
      exact ⟨_, rfl⟩
    fallback := fun x hx => by
      obtain ⟨y, hy, rfl⟩ := List.mem_map.1 hx
      exact hf y hy }

/-- the names of the archive are those of the variants that are built -/
theorem names_archive (hu : p.Unambiguous) (hp : p.Coherent) :
    r.archive.names =
      Entries.keys (Entries.ofList ((p.entries e).map fun x => (x.1.token, ()))) := by
  rw [Archive.names, toList_variants_archive, Spec.toList_variants_of_build hu hp hb, List.map_map]
  rfl

end

end Registry

theorem Spec.names_of_build {d : Document} (hd : d.isKeyed = true) {p : Spec}
    (hc : compile d = .ok p) {e : Engine} {time : String} {r : Registry}
    (hb : p.build e time = .ok r) :
    r.archive.names =
      Entries.keys (Entries.ofList ((p.entries e).map fun x => (x.1.token, ()))) :=
  Registry.names_archive hb (names_of_compile hd hc).1 (coherent_of_compile hd hc)

end Palette
