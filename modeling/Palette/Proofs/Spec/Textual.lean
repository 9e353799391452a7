import Palette.Proofs.Spec.Parts
import Palette.Proofs.Registry.Passes

/-!
# Names that are texts

The check asks for texts where an override names themes, font sizes or stacks. Where the keys of the
value are texts too, as they are in all that has been read (`Document.isTextual_read`), all names of
the specification are. Then a build has nothing to refuse: every override can be expanded, and every
variant that fails can be told of.

* `Override.Textual`, `Semantic.Textual`, `Spec.Textual`   parts whose names are texts;
* `textual_of_listOf`, `textual_of_semantic`   the parts that pass the check;
* `textual_of_compile`, `isText_of_ramps`   the whole;
* `checkRecords_of_textual`  no fault comes from the records of such a specification.
-/

namespace Palette
open Outcome

/-- an override whose filters give texts -/
structure Override.Textual {σ : Type} (o : Override Document σ) : Prop where
  themes : ∀ d ∈ o.themes.getD [], d.isText = true
  fontSizes : ∀ d ∈ o.fontSizes.getD [], d.isText = true
  layers : ∀ d ∈ o.layers.getD [], d.isText = true

/-- a semantic color whose name and overrides are texts -/
structure Semantic.Textual (t : Semantic) : Prop where
  name : t.name.isText = true
  overrides : ∀ o ∈ t.overrides, o.Textual
  states : ∀ i ∈ t.interactions, ∀ o ∈ i.2.overrides, o.Textual
  vision : ∀ v ∈ t.vision, ∀ o ∈ v.2.overrides, o.Textual

/-- a specification whose names are texts -/
structure Spec.Textual (p : Spec) : Prop where
  themes : ∀ k ∈ p.themes.keys, k.isText = true
  layers : ∀ k ∈ p.layers.keys, k.isText = true
  semantic : ∀ t ∈ p.semantics, t.2.Textual

namespace Spec

/-! ## what the check lets pass -/

section
variable {sc : Scope} {length : Nat} {path owner : String}

theorem isText_of_mapM {ds : List Document} {names : List String}
    (h : ds.mapM Document.text? = some names) : ∀ d ∈ ds, d.isText = true := by
  induction ds generalizing names with
  | nil => exact fun d hd => absurd hd List.not_mem_nil
  | cons d ds ih =>
    rw [List.mapM_cons] at h
    obtain ⟨n, hn, h⟩ := Option.bind_eq_some_iff.1 h
    obtain ⟨ns, hns, _⟩ := Option.bind_eq_some_iff.1 h
    rw [List.forall_mem_cons]
    refine ⟨?_, ih hns⟩
    cases d with
    | text s => rfl
    | _ => cases hn

theorem isText_of_filterOf {ms : Entries Atom Document} {key : String} {ok : String → Bool}
    {c : String → Complaint} (h : filterProblems ms key path ok c = [])
    {names : Option (List Document)} (hf : Override.filterOf (ms.lookup (.text key)) = .ok names) :
    ∀ d ∈ names.getD [], d.isText = true := by
  rw [filterProblems] at h
  cases hl : ms.lookup (.text key) with
  | none =>
    rw [hl] at hf
    obtain rfl := Except.ok.inj hf
    exact fun d hd => absurd hd List.not_mem_nil
  | some d =>
    rw [hl] at h hf
    cases hn : filterNames? d with
    | none =>
      simp only [hn] at h
      cases h
    | some texts =>
      cases d with
      | text s =>
        obtain rfl := Except.ok.inj hf
        exact List.forall_mem_singleton.2 rfl
      | list ds =>
        obtain rfl := Except.ok.inj hf
        cases ds with
        | nil => cases hn
        | cons d ds => exact isText_of_mapM hn
      | _ => cases hn

theorem textual_of_listOf {o : Option Document} (h : overridesProblems sc length path o = [])
    {r : Ramp} {os : Overrides} (hos : Override.listOf r owner o = .ok os) :
    ∀ x ∈ os, x.Textual := by
  obtain ⟨items, hitems, hall⟩ := overridesProblems_eq_nil h
  obtain ⟨items', hitems', hread⟩ := Override.exists_of_listOf hos
  obtain rfl := Except.ok.inj (hitems.symm.trans hitems')
  intro x hx
  obtain ⟨⟨d, i⟩, he, o', _, ho', _, hstep⟩ := hread x hx
  have hd := hall _ he
  cases d with
  | map ms =>
    simp only [overrideProblems, List.append_eq_nil_iff] at hd
    obtain ⟨⟨⟨_, hbg⟩, hsize⟩, hstack⟩ := hd
    rw [hstep]
    exact ⟨isText_of_filterOf hbg ho'.themes, isText_of_filterOf hsize ho'.fontSizes,
      isText_of_filterOf hstack ho'.layers⟩
  | _ => cases hd

theorem textual_of_semantic {ramps : Ramps} {name : Atom} {d : Document} {t : Semantic}
    (h : semanticProblems sc path d = []) (hname : name.isText = true) (ht : t.Read ramps name d) :
    t.Textual := by
  obtain ⟨ms, _, length, _, rfl, _, _, _, _, hoverrides, hstates, hvision⟩ :=
    semanticProblems_eq_nil h
  obtain ⟨_, ho⟩ := ht.overrides
  obtain ⟨_, hi⟩ := ht.interactions
  obtain ⟨_, hv⟩ := ht.vision
  refine ⟨ht.name ▸ hname, textual_of_listOf hoverrides ho, fun i him => ?_, fun v hvm => ?_⟩
  · obtain ⟨e, he, _, hread⟩ := hi.exists_of_mem him
    have hproblems := List.flatMap_eq_nil_iff.1 (each_of_mapOr hstates rfl) e he
    obtain ⟨is, _, hd, _, _, hoverrides⟩ := interactionProblems_eq_nil hproblems
    obtain ⟨_, hos⟩ := (Interaction.read_of_ofDocument hread).overrides
    rw [hd] at hos
    exact textual_of_listOf hoverrides hos
  · obtain ⟨e, he, _, hread⟩ := hv.exists_of_mem hvm
    have hproblems := List.flatMap_eq_nil_iff.1 (each_of_mapOr hvision rfl) e he
    obtain ⟨vs, _, hd, _, hoverrides, _⟩ := variantProblems_eq_nil hproblems
    obtain ⟨_, hos⟩ := (VisionEntry.read_of_ofDocument hread).overrides
    rw [hd] at hos
    exact textual_of_listOf hoverrides hos

end

theorem isText_of_stacks {o : Option Document}
    (ho : (Document.map (membersOf (o.getD .null))).isTextual = true) {layers : Stacks}
    (h : Stacks.ofDocument o = .ok layers) : ∀ k ∈ layers.keys, k.isText = true := by
  rcases Stacks.of_ofDocument h with ⟨_, rfl⟩ | ⟨_, others, rfl, hmade⟩
  · decide
  · refine List.forall_mem_cons.2 ⟨rfl, fun k hk => ?_⟩
    obtain ⟨n, hn⟩ := Entries.mem_keys.1 hk
    obtain ⟨e, he, rfl, _⟩ := hmade.exists_of_mem hn
    exact ((Document.isTextual_map _).1 ho e (List.mem_filter.1 he).1).1

theorem isText_of_block {d : Document} (hd : d.isTextual = true) (name : String) :
    ∀ k ∈ (d.block name).keys, k.isText = true := by
  intro k hk
  obtain ⟨v, hv⟩ := Entries.mem_keys.1 hk
  exact ((Document.isTextual_map _).1 (Document.isTextual_block hd name) _ hv).1

/-- a value whose keys are texts has a specification whose names are texts -/
theorem textual_of_compile {d : Document} (hd : d.isTextual = true) {p : Spec}
    (h : compile d = .ok p) : p.Textual := by
  obtain ⟨⟨ms, rfl, hp⟩, h⟩ := memberProblems_eq_nil_of_compile h
  obtain ⟨texts, parts, h⟩ := read_of_compileUnchecked h
  -- keys are texts because the value is textual, filters because the check has seen them
  have textual {s : String} {before : List Atom} {target : Target} {m : Entries Atom Semantic}
      (hs : sectionProblems (scope ms) s before (ms.lookup (.text s)) = [])
      (hm : Made (fun e => Semantic.ofDocument p.ramps target e.1 e.2) ((Document.map ms).block s)
        m) : ∀ t ∈ m, t.2.Textual := by
    intro t ht
    obtain ⟨e, he, _, hread⟩ := hm.exists_of_mem ht
    obtain ⟨path, hproblems⟩ := exists_semanticProblems hs e he
    have hname := isText_of_block hd s _ (Entries.mem_keys_of_mem he)
    exact textual_of_semantic hproblems hname (Semantic.read_of_ofDocument hread)
  simp only [memberProblems, List.append_eq_nil_iff] at hp
  obtain ⟨⟨⟨⟨_, hforeground⟩, hnonText⟩, _⟩, _⟩ := hp
  exact {
    themes := fun k hk => isText_of_block hd "themes" k (h.themes.keys_eq ▸ hk)
    layers := isText_of_stacks
      (Document.isTextual_block (Document.isTextual_block hd "config") "stacks") h.layers
    semantic := fun t ht => by
      rw [h.semantics] at ht
      obtain ⟨t', ht', _, hv⟩ := Entries.exists_of_mem_ofList ht
      rw [← hv]
      rcases List.mem_append.1 ht' with ht' | ht'
      · exact textual hforeground h.texts_made t' ht'
      · exact textual hnonText h.parts_made t' ht' }

/-- its ramps have texts for names, too -/
theorem isText_of_ramps {d : Document} (hd : d.isTextual = true) {p : Spec}
    (h : compile d = .ok p) : ∀ k ∈ p.ramps.keys, k.isText = true := by
  obtain ⟨⟨ms, rfl, _⟩, h⟩ := memberProblems_eq_nil_of_compile h
  obtain ⟨texts, parts, h⟩ := read_of_compileUnchecked h
  exact fun k hk => isText_of_block hd "primitives" k (h.ramps.keys_eq ▸ hk)

end Spec

/-! ## what a build refuses -/

theorem Override.exists_keyed {σ : Type} {o : Override Document σ} (h : o.Textual)
    (axes : Axes Document) : ∃ o', o.keyed axes = .ok o' := by
  rw [keyed]
  split
  · exact ⟨_, rfl⟩
  extract_lets keys
  have exists_keys {filter : Option (List Document)}
      (hf : ∀ d ∈ filter.getD [], d.isText = true) : ∃ names, keys filter = .ok names := by
    cases filter with
    | none => exact ⟨none, rfl⟩
    | some ds =>
      have hkey : ∀ d ∈ ds, ∃ a, d.asKey = .ok a := by
        intro d hd
        obtain ⟨s, rfl⟩ := Document.exists_of_isText (hf d hd)
        exact ⟨.text s, rfl⟩
      obtain ⟨ns, hns⟩ := exists_mapM_ok hkey
      exact ⟨some ns, bind_ok.2 ⟨ns, hns, rfl⟩⟩
  obtain ⟨themes, ht⟩ := exists_keys h.themes
  obtain ⟨fontSizes, hf⟩ := exists_keys h.fontSizes
  obtain ⟨layers, hl⟩ := exists_keys h.layers
  exact ⟨_, bind_ok.2 ⟨themes, ht, bind_ok.2 ⟨fontSizes, hf, bind_ok.2 ⟨layers, hl, rfl⟩⟩⟩⟩

namespace Spec
variable {p : Spec} {e : Engine}

theorem checkOverrides_of_textual {os : Overrides} (h : ∀ o ∈ os, o.Textual) :
    p.checkOverrides os = .ok () := by
  refine forM_ok.2 fun o ho => ?_
  obtain ⟨o', ho'⟩ := Override.exists_keyed (h o ho) _
  exact bind_ok.2 ⟨o', ho', rfl⟩

theorem Textual.isNamed (hp : p.Textual) {t : Semantic} (ht : t.Textual) : p.isNamed t = true := by
  rw [Spec.isNamed, ht.name, List.all_eq_true.2 hp.themes, List.all_eq_true.2 hp.layers]
  rfl

theorem checkSemantic_of_textual (hp : p.Textual)
    (he : ∀ c, c.level = p.config.level → e.admits c = .ok ()) {t : Semantic} (ht : t.Textual) :
    p.checkSemantic e t = .ok () := by
  have hengine : p.checkEngine e t.target = .ok () := by
    rw [checkEngine]
    split
    · exact he _ rfl
    · rfl
  have hstates := forM_ok.2 fun i hi => checkOverrides_of_textual (p := p) (ht.states i hi)
  have hvision : (t.ownVision.forM fun v => p.checkOverrides v.2.overrides) = .ok () :=
    forM_ok.2 fun v hv => checkOverrides_of_textual (ht.vision _ (Semantic.mem_ownVision.1 hv))
  refine bind_ok.2 ⟨(), hengine, bind_ok.2 ⟨(), checkOverrides_of_textual ht.overrides, ?_⟩⟩
  refine bind_ok.2 ⟨(), hstates, bind_ok.2 ⟨(), hvision, ?_⟩⟩
  rw [hp.isNamed ht]
  rfl

/-- where all names are texts, and the engine can evaluate at the level, no record is refused -/
theorem checkRecords_of_textual (hp : p.Textual)
    (he : ∀ c, c.level = p.config.level → e.admits c = .ok ()) : p.checkRecords e = .ok () :=
  forM_ok.2 fun t ht => checkSemantic_of_textual hp he (hp.semantic t ht)

end Spec
end Palette
