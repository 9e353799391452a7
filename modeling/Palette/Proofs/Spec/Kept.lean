import Mathlib.Data.List.Flatten
import Palette.Proofs.Spec.Names

/-!
# Specifications with some of their colors

The colors of a specification are declared in two sections. A value that keeps some of them passes
the check where the value itself does, and compiles to the specification with these colors.

* `Document.keeping`         the value with the colors whose names pass a test;
* `Spec.keeping`             the specification with these colors;
* `lookup_kept`, `lookup_section`   its members: those of the value, and the sections filtered;
* `memberProblems_kept`      the check says nothing new;
* `compile_keeping`          compiling and keeping go in either order.
-/

namespace Palette
open Outcome

/-- a map with the entries whose keys pass a test -/
def Document.filtered (f : Atom → Bool) : Document → Document
  | .map es => .map (es.filter fun e => f e.1)
  | d => d

/-- the members of a specification, whose sections keep the colors with names that pass a test -/
def Spec.kept (f : Atom → Bool) (ms : Entries Atom Document) : Entries Atom Document :=
  ms.map fun e => (e.1, if Spec.sections.any fun s => e.1 == .text s.1 then e.2.filtered f else e.2)

/-- the value of a specification with the colors whose names pass a test -/
def Document.keeping (d : Document) (f : Atom → Bool) : Document :=
  match d with
  | .map ms => .map (Spec.kept f ms)
  | d => d

namespace Spec

/-- the specification with the colors whose names pass a test -/
def keeping (p : Spec) (f : Atom → Bool) : Spec :=
  { p with semantics := p.semantics.filter fun t => f t.1 }

variable {f : Atom → Bool} {ms : Entries Atom Document}

theorem lookup_kept_eq (name : String) :
    (kept f ms).lookup (.text name) = (ms.lookup (.text name)).map fun d =>
      if Spec.sections.any fun s => Atom.text name == .text s.1 then d.filtered f else d := by
  induction ms with
  | nil => rfl
  | cons e ms ih =>
    obtain ⟨k, d⟩ := e
    rw [kept, List.map_cons, List.lookup_cons, List.lookup_cons]
    cases hk : Atom.text name == k with
    | true =>
      rw [Atom.eq_of_text_beq hk]
      rfl
    | false => exact ih

/-- members other than the sections stay -/
theorem lookup_kept (name : String)
    (h : sections.any (fun s => Atom.text name == .text s.1) = false) :
    (kept f ms).lookup (.text name) = ms.lookup (.text name) := by
  rw [lookup_kept_eq, h]
  cases ms.lookup (.text name) <;> rfl

theorem lookup_section (name : String)
    (h : sections.any (fun s => Atom.text name == .text s.1) = true) :
    (kept f ms).lookup (.text name) = (ms.lookup (.text name)).map (Document.filtered f) := by
  rw [lookup_kept_eq, h]
  cases ms.lookup (.text name) <;> rfl

theorem membersOf_filtered (o : Option Document) :
    membersOf ((o.map (Document.filtered f)).getD .null) =
      (membersOf (o.getD .null)).filter fun e => f e.1 := by
  cases o with
  | none => rfl
  | some d => cases d <;> rfl

theorem isMap_filtered (o : Option Document) :
    ((o.map (Document.filtered f)).getD .null).isMap = (o.getD .null).isMap := by
  cases o with
  | none => rfl
  | some d => cases d <;> rfl

/-- the names that are declared in a section are some of those that were -/
theorem declaredIn_kept {name : String}
    (h : sections.any (fun s => Atom.text name == .text s.1) = true) :
    (declaredIn (kept f ms) name).Sublist (declaredIn ms name) := by
  rw [declaredIn, declaredIn, lookup_section name h, membersOf_filtered]
  exact List.filter_sublist.map _

/-- and so are the names that states derive -/
theorem derivations_kept : (derivations (kept f ms)).Sublist (derivations ms) := by
  refine List.Sublist.flatMap_right _ fun s hs => ?_
  have hsection : sections.any (fun s' => Atom.text s.1 == .text s'.1) = true :=
    List.any_eq_true.2 ⟨s, hs, BEq.rfl⟩
  rw [lookup_section s.1 hsection, membersOf_filtered]
  exact List.filter_sublist.flatMap _

theorem contains_of_sublist {l l' : List Atom} (h : l.Sublist l') {a : Atom}
    (ha : l'.contains a = false) : l.contains a = false :=
  contains_eq_false.2 fun b hb => contains_eq_false.1 ha b (h.subset hb)

theorem derivedProblems_sublist {l l' : List Atom} (h : l.Sublist l')
    {ds ds' : List (String × String)} (hd : ds.Sublist ds')
    (hn : derivedProblems l' [] ds' = []) : derivedProblems l [] ds = [] := by
  obtain ⟨hfresh, hnodup⟩ := (derivedProblems_eq_nil _ _ _).1 hn
  refine (derivedProblems_eq_nil _ _ _).2 ⟨fun d hm => ?_, (hd.map _).nodup hnodup⟩
  obtain ⟨hc, hs⟩ := hfresh d (hd.subset hm)
  exact ⟨contains_of_sublist h hc, hs⟩

theorem sectionProblems_filtered {sc : Scope} {s : String} {before before' : List Atom}
    (hb : before.Sublist before') {o : Option Document}
    (h : sectionProblems sc s before' o = []) :
    sectionProblems sc s before (o.map (Document.filtered f)) = [] := by
  cases o with
  | none => rfl
  | some d =>
    cases d with
    | map tokens =>
      refine List.flatMap_eq_nil_iff.2 fun t ht => ?_
      obtain ⟨hnew, hpart⟩ := List.append_eq_nil_iff.1
        (List.flatMap_eq_nil_iff.1 h t (List.mem_filter.1 ht).1)
      rw [demand_eq_nil, Bool.not_eq_true'] at hnew
      refine List.append_eq_nil_iff.2 ⟨demand_eq_nil.2 ?_, hpart⟩
      rw [Bool.not_eq_true']
      exact contains_of_sublist hb hnew
    | _ => exact h

theorem memberProblems_kept (h : memberProblems ms = []) : memberProblems (kept f ms) = [] := by
  have hscope : scope (kept f ms) = scope ms := by
    rw [scope, scope, lookup_kept "primitives" (by decide), lookup_kept "themes" (by decide)]
  have htexts : (declaredIn (kept f ms) "foreground").Sublist (declaredIn ms "foreground") :=
    declaredIn_kept (by decide)
  have hparts : (declaredIn (kept f ms) "nonText").Sublist (declaredIn ms "nonText") :=
    declaredIn_kept (by decide)
  have hforeground : (kept f ms).lookup (.text "foreground") =
      (ms.lookup (.text "foreground")).map (Document.filtered f) := lookup_section _ (by decide)
  have hnonText : (kept f ms).lookup (.text "nonText") =
      (ms.lookup (.text "nonText")).map (Document.filtered f) := lookup_section _ (by decide)
  rw [memberProblems] at h ⊢
  simp only [List.append_eq_nil_iff] at h ⊢
  obtain ⟨⟨⟨⟨⟨⟨hramps, hthemes⟩, hsome⟩, hfore⟩, hnon⟩, hderived⟩, hconfig⟩ := h
  rw [hscope, lookup_kept "primitives" (by decide), lookup_kept "themes" (by decide),
    lookup_kept "config" (by decide)]
  refine ⟨⟨⟨⟨⟨⟨hramps, hthemes⟩, ?_⟩, ?_⟩, ?_⟩, ?_⟩, hconfig⟩
  · simp only [sections, List.any_cons, List.any_nil, hforeground, hnonText,
      isMap_filtered] at hsome ⊢
    exact hsome
  · rw [hforeground]
    exact sectionProblems_filtered (List.Sublist.refl []) hfore
  · rw [hnonText]
    exact sectionProblems_filtered htexts hnon
  · exact derivedProblems_sublist (htexts.append hparts) derivations_kept hderived

/-! ## the specification -/

theorem entriesOf_filtered {o : Option Document} {es : Entries Atom Document}
    (h : Document.entriesOf o = .ok es) :
    Document.entriesOf (o.map (Document.filtered f)) = .ok (es.filter fun e => f e.1) := by
  obtain rfl := Document.entriesOf_eq_membersOf h
  cases o with
  | none => rfl
  | some d =>
    cases d with
    | map ms => exact Document.entriesOf_map _
    | _ => exact h

/-- the colors of a section are read one by one -/
theorem sectionOf_filtered {ramps : Ramps} {target : Target} {o : Option Document}
    {m : List (Atom × Semantic)} (h : sectionOf ramps target o = .ok m) :
    sectionOf ramps target (o.map (Document.filtered f)) = .ok (m.filter fun t => f t.1) := by
  obtain ⟨es, hes, h⟩ := bind_ok.1 h
  refine bind_ok.2 ⟨_, entriesOf_filtered hes, mapM_ok.2 ?_⟩
  refine (List.rel_filter ?_ (mapM_ok.1 h))
  -- an entry and what is read of it have one name
  intro e t ht
  obtain ⟨_, _, ht⟩ := bind_ok.1 ht
  rw [← pure_ok.1 ht]

theorem filter_ofList {writes : List (Atom × Semantic)} (h : Entries.Distinct writes) :
    Entries.ofList (writes.filter fun t => f t.1) =
      (Entries.ofList writes).filter fun t => f t.1 := by
  rw [Entries.ofList_of_distinct h, Entries.ofList_of_distinct (Entries.distinct_filter h _)]

theorem compileUnchecked_keeping (hd : (Document.map ms).isKeyed = true)
    (hp : memberProblems ms = []) {p : Spec} (h : compileUnchecked (.map ms) = .ok p) :
    compileUnchecked ((Document.map ms).keeping f) = .ok (p.keeping f) := by
  obtain ⟨members, texts, parts, h⟩ := compileUnchecked_map.1 h
  have hdistinct : Entries.Distinct (texts ++ parts) :=
    distinct_sections hd hp (made_of_get rfl h.foreground).keys_eq
      (made_of_get rfl h.nonText).keys_eq
  refine compileUnchecked_map.2 ⟨members, texts.filter fun t => f t.1,
    parts.filter fun t => f t.1, ?_⟩
  exact {
    ramps := (lookup_kept "primitives" (by decide)).symm ▸ h.ramps
    choices := (lookup_kept "config" (by decide)).symm ▸ h.choices
    layers := h.layers
    themes := (lookup_kept "themes" (by decide)).symm ▸ h.themes
    foreground := (lookup_section "foreground" (by decide)).symm ▸ sectionOf_filtered h.foreground
    nonText := (lookup_section "nonText" (by decide)).symm ▸ sectionOf_filtered h.nonText
    semantics := by
      rw [← List.filter_append, filter_ofList hdistinct, ← h.semantics]
      rfl
    config := h.config
    warnings := h.warnings }

/-- a value compiles with some of its colors where it compiles at all, to the specification with
these colors -/
theorem compile_keeping {d : Document} (hd : d.isKeyed = true) {p : Spec} (h : compile d = .ok p)
    (f : Atom → Bool) : compile (d.keeping f) = .ok (p.keeping f) := by
  obtain ⟨⟨ms, rfl, hp⟩, h⟩ := memberProblems_eq_nil_of_compile h
  refine bind_ok.2 ⟨(), ?_, compileUnchecked_keeping hd hp h⟩
  have hkept : problems ((Document.map ms).keeping f) = [] := memberProblems_kept hp
  rw [requireValid, isValid, hkept]
  rfl

end Spec
end Palette
