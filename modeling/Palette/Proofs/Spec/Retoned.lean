import Palette.Proofs.Archive.Codec
import Palette.Proofs.Spec.Toned

/-!
# A tone applied again

A part that was merged with an entry has what the entry gives, so the same entry changes nothing in
it but the overrides: those of the entry come once more after all others. They were the last ones
before. A specification under a tone that compiles thus compiles under the same tone again, to
semantic colors whose last overrides may be there twice.

* `Repeats`              values whose last overrides are there twice;
* `Tone.part_theme_again`, `Tone.part_semantic_again`   a part under a tone, once more;
* `Tone.exists_toned_again`   so it is for a specification;
* `Spec.semanticProblems_repeats`   the check has nothing new to say;
* `Override.Reads`, `Override.listOf_list`   overrides are read one by one, wherever they stand;
* `Semantic.Repeats`     semantic colors whose last overrides are there twice;
* `Spec.exists_compile_again`   the whole.
-/

namespace Palette
open Outcome

/-- a value, and the same value with some of its last overrides once more at the end -/
inductive Repeats : Document → Document → Prop
  | same (d : Document) : Repeats d d
  | more {ms : Entries Atom Document} {items added : List Document}
      (items_eq : ms.lookup (.text "overrides") = some (.list items)) (last : added <:+ items) :
      Repeats (.map ms) (.map (Entries.put (.text "overrides") (.list (items ++ added)) ms))

namespace Tone
open Spec

/-! ## parts -/

theorem entry?_congr {tone : Document} {ms ms' : Entries Atom Document}
    (h : ms'.lookup (.text "tone") = ms.lookup (.text "tone")) :
    entry? tone (.map ms') = entry? tone (.map ms) := by
  show (Document.entriesOf (ms'.lookup (.text "tone")) >>= _) = _
  rw [h]
  rfl

/-- a theme has what the tone gives -/
theorem part_theme_again {tone d d' : Document} (h : part theme tone d = .ok d') :
    part theme tone d' = .ok d' := by
  rcases part_ok.1 h with ⟨_, rfl⟩ | ⟨e, ms, he, rfl, hm⟩
  · exact h
  · obtain ⟨ms', hms', hm⟩ := bind_ok.1 hm
    obtain rfl := pure_ok.1 hm
    obtain ⟨hother, hgiven⟩ := overlay_ok hms'
    refine part_ok.2 (.inr ⟨e, ms', ?_, rfl, bind_ok.2 ⟨ms', overlay_of_given hgiven, rfl⟩⟩)
    rw [entry?_congr (hother "tone" (by decide)), he]

/-- a semantic color has what the tone gives, and gets the overrides of the tone again -/
theorem part_semantic_again {tone d d' : Document} (h : part semantic tone d = .ok d') :
    ∃ d'', part semantic tone d' = .ok d'' ∧ Repeats d' d'' := by
  rcases part_ok.1 h with ⟨_, rfl⟩ | ⟨e, ms, he, rfl, hm⟩
  · exact ⟨d', h, .same d'⟩
  · obtain ⟨ms', own, o, added, rfl, _, hget, hadded, hm⟩ := merged_of_semantic hm
    have hown : Document.elementsOf (ms'.lookup (.text "overrides")) = .ok (own ++ added) := by
      rw [hm.overrides]
      exact Document.elementsOf_list _
    have hagain := semantic_eq (overlay_of_given hm.given) hown hget hadded
    refine ⟨_, part_ok.2 (.inr ⟨e, ms', ?_, rfl, hagain⟩), ?_⟩
    · rw [entry?_congr (hm.other "tone" (by decide)), he]
    · exact .more hm.overrides (List.suffix_append own added)

/-! ## sections -/

/-- sections whose parts are the same or repeat overrides -/
inductive Alike : Option Document → Option Document → Prop
  | same (o : Option Document) : Alike o o
  | map {es es' : Entries Atom Document}
      (h : Related Repeats es es') :
      Alike (some (.map es)) (some (.map es'))

theorem Alike.forall_mem {o o' : Option Document} (h : Alike o o') {P : Atom → Document → Prop}
    (hP : ∀ k d d', Repeats d d' → P k d → P k d')
    (hall : ∀ e ∈ membersOf (o.getD .null), P e.1 e.2) :
    ∀ e ∈ membersOf (o'.getD .null), P e.1 e.2 := by
  cases h with
  | same => exact hall
  | map hes =>
    intro e' he'
    obtain ⟨e, he, hk, hd⟩ := exists_of_mem_right hes he'
    rw [hk]
    exact hP _ _ _ hd (hall e he)

theorem Replaced.again {f : Document → Except Fault Document} {o o' : Option Document}
    (h : Replaced f o o') (hf : ∀ d d', f d = .ok d' → f d' = .ok d') : Replaced f o' o' := by
  cases h with
  | missing => exact .missing
  | void hd => exact .void hd
  | map hes =>
    refine .map ?_
    induction hes with
    | nil => exact .nil
    | cons he _ ih => exact .cons ⟨rfl, hf _ _ he.2⟩ ih

theorem Replaced.exists_again {f : Document → Except Fault Document} {o o' : Option Document}
    (h : Replaced f o o')
    (hf : ∀ d d', f d = .ok d' → ∃ d'', f d' = .ok d'' ∧ Repeats d' d'') :
    ∃ o'', Replaced f o' o'' ∧ Alike o' o'' := by
  cases h with
  | missing => exact ⟨none, .missing, .same none⟩
  | void hd => exact ⟨_, .void hd, .same _⟩
  | @map es es' hes =>
    have hagain : ∃ es'', Made (fun e => f e.2) es' es'' ∧
        Related Repeats es' es'' := by
      induction hes with
      | nil => exact ⟨[], .nil, .nil⟩
      | @cons _ e' _ _ he _ ih =>
        obtain ⟨es'', hmade, hrepeats⟩ := ih
        obtain ⟨d'', hd'', hd⟩ := hf _ _ he.2
        exact ⟨(e'.1, d'') :: es'', .cons ⟨rfl, hd''⟩ hmade, .cons ⟨rfl, hd⟩ hrepeats⟩
    obtain ⟨es'', hmade, hrepeats⟩ := hagain
    exact ⟨_, .map hmade, .map hrepeats⟩

theorem exists_toned_again {tone : Document} {ms ms' : Entries Atom Document}
    (hc : isChosen tone = true) (ht : Toned tone ms ms') :
    ∃ ms'', apply (.map ms') tone = .ok (.map ms'') ∧ Toned tone ms' ms'' ∧
      ms''.lookup (.text "themes") = ms'.lookup (.text "themes") ∧
      Alike (ms'.lookup (.text "foreground")) (ms''.lookup (.text "foreground")) ∧
      Alike (ms'.lookup (.text "nonText")) (ms''.lookup (.text "nonText")) := by
  have hthemes := ht.themes.again fun _ _ h => part_theme_again h
  obtain ⟨texts, htexts, hlike⟩ := ht.foreground.exists_again fun _ _ h => part_semantic_again h
  obtain ⟨parts, hparts, hlike'⟩ := ht.nonText.exists_again fun _ _ h => part_semantic_again h
  obtain ⟨ms'', happly, htoned, hl, rfl, rfl⟩ := exists_apply hc hthemes htexts hparts
  exact ⟨ms'', happly, htoned, hl, hlike, hlike'⟩

end Tone

/-! ## the check -/

namespace Spec

theorem semanticProblems_repeats {sc : Scope} {path : String} {d d' : Document}
    (hd : Repeats d d') (h : semanticProblems sc path d = []) :
    semanticProblems sc path d' = [] := by
  cases hd with
  | same => exact h
  | @more ms items added hl hlast =>
    obtain ⟨name, length, hn, hlength, hon⟩ := semanticProblems_map.1 h
    have hother (key : String) (hne : "overrides" ≠ key) :
        (Entries.put (.text "overrides") (.list (items ++ added)) ms).lookup (.text key) =
          ms.lookup (.text key) := lookup_put_text hne
    refine (semanticProblems_iff ((hother "ramp" (by decide)).trans hn) hlength).2 ?_
    exact {
      default := (hother "defaultStep" (by decide)).symm ▸ hon.default
      decorative := (hother "decorative" (by decide)).symm ▸ hon.decorative
      overrides := by
        have hitems := hon.overrides
        rw [hl, overridesProblems_list] at hitems
        rw [lookup_put_self, overridesProblems_list]
        exact List.forall_mem_append.2 ⟨hitems, fun d hd => hitems d (hlast.subset hd)⟩
      interactions := (hother "interactions" (by decide)).symm ▸ hon.interactions
      vision := (hother "vision" (by decide)).symm ▸ hon.vision
      tone := (hother "tone" (by decide)).symm ▸ hon.tone }

/-- what passes the check under a tone passes it under the tone again -/
theorem memberProblems_again {tone : Document} {ms ms' : Entries Atom Document}
    (ht : Tone.Toned tone ms ms')
    (hthemes : ms'.lookup (.text "themes") = ms.lookup (.text "themes"))
    (htexts : Tone.Alike (ms.lookup (.text "foreground")) (ms'.lookup (.text "foreground")))
    (hparts : Tone.Alike (ms.lookup (.text "nonText")) (ms'.lookup (.text "nonText")))
    (h : memberProblems ms = []) : memberProblems ms' = [] := by
  obtain ⟨_, hall⟩ := Tone.memberProblems_eq_nil_iff.1 h
  refine (Tone.memberProblems_toned ht h).2 ⟨?_, ?_, ?_⟩
  · rw [Document.block, membersOf, hthemes]
    exact hall.themes
  · exact htexts.forall_mem
      (P := fun k d => semanticProblems (scope ms) s!"foreground.{k.shown}" d = [])
      (fun _ _ _ => semanticProblems_repeats) hall.foreground
  · exact hparts.forall_mem
      (P := fun k d => semanticProblems (scope ms) s!"nonText.{k.shown}" d = [])
      (fun _ _ _ => semanticProblems_repeats) hall.nonText

end Spec

/-! ## overrides -/

namespace Override

/-- an override in a document, with a step of a ramp -/
def Reads (r : Ramp) (d : Document) (o : Override Document Choice) : Prop :=
  ∃ o' owner, ofDocument d = .ok o' ∧ r.require owner (some o'.step) = .ok o.step ∧
    o = { o' with step := o.step }

theorem listOf_list {r : Ramp} {owner : String} {items : List Document} {os : Overrides} :
    listOf r owner (some (.list items)) = .ok os ↔ List.Forall₂ (Reads r) items os := by
  have hread (d : Document) (position : Nat) (o : Override Document Choice) :
      (do
        let o ← ofDocument d
        let step ← r.require s!"{owner} override[{position}]" (some o.step)
        return { o with step }) = Except.ok o ↔ Reads r d o := by
    rw [bind_ok]
    refine exists_congr fun o' => ?_
    constructor
    · rintro ⟨ho, h⟩
      obtain ⟨step, hstep, h⟩ := bind_ok.1 h
      obtain rfl := pure_ok.1 h
      exact ⟨_, ho, hstep, rfl⟩
    · rintro ⟨owner', ho, hstep, ho'⟩
      refine ⟨ho, bind_ok.2 ⟨o.step, ?_, pure_ok.2 ho'.symm⟩⟩
      exact (r.require_eq_ok_iff _ _ _).2 ((r.require_eq_ok_iff _ _ _).1 hstep)
  rw [listOf, Document.elementsOf_list]
  refine mapM_ok.trans ?_
  simp only [hread]
  rw [← List.forall₂_map_left_iff (f := Prod.fst) (R := Reads r), List.zipIdx_map_fst]

/-- overrides whose last ones come again are read to overrides whose last ones come again -/
theorem exists_listOf_append {r : Ramp} {owner : String} {items added : List Document}
    {os : Overrides} (hlast : added <:+ items)
    (h : listOf r owner (some (.list items)) = .ok os) :
    ∃ tail, tail <:+ os ∧ listOf r owner (some (.list (items ++ added))) = .ok (os ++ tail) := by
  obtain ⟨front, rfl⟩ := hlast
  have hall := listOf_list.1 h
  refine ⟨os.drop front.length, List.drop_suffix _ _, listOf_list.2 ?_⟩
  exact List.rel_append hall (List.forall₂_drop_append _ _ _ hall.flip).flip

end Override

/-! ## semantic colors -/

/-- a semantic color, and the same with some of its last overrides once more at the end -/
def Semantic.Repeats (t t' : Semantic) : Prop :=
  ∃ tail, tail <:+ t.overrides ∧ t' = { t with overrides := t.overrides ++ tail }

theorem Semantic.repeats_self (t : Semantic) : t.Repeats t :=
  ⟨[], List.nil_suffix, by rw [List.append_nil]⟩

theorem Semantic.exists_repeats {ramps : Ramps} {target : Target} {name : Atom} {d d' : Document}
    (hd : Palette.Repeats d d') {t : Semantic} (h : ofDocument ramps target name d = .ok t) :
    ∃ t', ofDocument ramps target name d' = .ok t' ∧ t.Repeats t' := by
  cases hd with
  | same => exact ⟨t, h, t.repeats_self⟩
  | @more ms items added hl hlast =>
    have hget (key : String) (hne : "overrides" ≠ key) :
        (Document.map (Entries.put (.text "overrides") (.list (items ++ added)) ms)).get key =
          (Document.map ms).get key := congrArg Except.ok (Spec.lookup_put_text hne)
    have hself : (Entries.put (.text "overrides") (.list (items ++ added)) ms).lookup
        (.text "overrides") = some (.list (items ++ added)) := Spec.lookup_put_self
    obtain ⟨_, hor, h⟩ := bind_ok.1 h
    obtain ⟨ramp, hramp, h⟩ := bind_ok.1 h
    obtain ⟨_, hos, h⟩ := bind_ok.1 h
    obtain ⟨default, hdefault, h⟩ := bind_ok.1 h
    obtain ⟨_, hoi, h⟩ := bind_ok.1 h
    obtain ⟨_, hei, h⟩ := bind_ok.1 h
    obtain ⟨interactions, hinteractions, h⟩ := bind_ok.1 h
    obtain ⟨_, hov, h⟩ := bind_ok.1 h
    obtain ⟨_, hev, h⟩ := bind_ok.1 h
    obtain ⟨vision, hvision, h⟩ := bind_ok.1 h
    obtain ⟨_, hod, h⟩ := bind_ok.1 h
    obtain ⟨_, hoo, h⟩ := bind_ok.1 h
    obtain ⟨overrides, hoverrides, h⟩ := bind_ok.1 h
    obtain rfl := pure_ok.1 h
    rw [← Except.ok.inj hoo, hl] at hoverrides
    obtain ⟨tail, hsuffix, htail⟩ := Override.exists_listOf_append hlast hoverrides
    rw [← hself] at htail
    rw [← hget _ (by decide)] at hor hos hoi hov hod
    refine ⟨_, ?_, tail, hsuffix, rfl⟩
    refine bind_ok.2 ⟨_, hor, bind_ok.2 ⟨ramp, hramp, ?_⟩⟩
    refine bind_ok.2 ⟨_, hos, bind_ok.2 ⟨default, hdefault, ?_⟩⟩
    refine bind_ok.2 ⟨_, hoi, bind_ok.2 ⟨_, hei, bind_ok.2 ⟨interactions, hinteractions, ?_⟩⟩⟩
    refine bind_ok.2 ⟨_, hov, bind_ok.2 ⟨_, hev, bind_ok.2 ⟨vision, hvision, ?_⟩⟩⟩
    exact bind_ok.2 ⟨_, hod, bind_ok.2 ⟨_, rfl, bind_ok.2 ⟨_, htail, rfl⟩⟩⟩

/-! ## specifications -/

namespace Spec

/-- a specification, and the same with some of the last overrides of its colors once more -/
structure Repeats (p p' : Spec) : Prop where
  semantics : Related Semantic.Repeats p.semantics p'.semantics
  other : p' = { p with semantics := p'.semantics }

theorem exists_sectionOf {ramps : Ramps} {target : Target} {o o' : Option Document}
    (hlike : Tone.Alike o o') {ts : Entries Atom Semantic}
    (h : sectionOf ramps target o = .ok ts) : ∃ ts', sectionOf ramps target o' = .ok ts' ∧
      Related Semantic.Repeats ts ts' := by
  cases hlike with
  | same => exact ⟨ts, h, List.forall₂_same.2 fun t _ => ⟨rfl, t.2.repeats_self⟩⟩
  | @map es es' hes =>
    rw [sectionOf, Document.entriesOf_map] at h
    have hmade := Made.of_mapM (f := fun e => Semantic.ofDocument ramps target e.1 e.2) h
    have hagain : ∃ ts', Made (fun e => Semantic.ofDocument ramps target e.1 e.2) es' ts' ∧
        Related Semantic.Repeats ts ts' := by
      clear h
      induction hmade generalizing es' with
      | nil =>
        cases hes
        exact ⟨[], .nil, .nil⟩
      | @cons e t _ _ ht _ ih =>
        obtain ⟨e', es', he, hrest, rfl⟩ := List.forall₂_cons_left_iff.1 hes
        obtain ⟨ts', hmade, hrepeats⟩ := ih hrest
        obtain ⟨t', ht', hrepeat⟩ := Semantic.exists_repeats he.2 ht.2
        rw [← he.1] at ht'
        exact ⟨(t.1, t') :: ts', .cons ⟨ht.1.trans he.1.symm, ht'⟩ hmade,
          .cons ⟨rfl, hrepeat⟩ hrepeats⟩
    obtain ⟨ts', hmade, hrepeats⟩ := hagain
    refine ⟨ts', ?_, hrepeats⟩
    rw [sectionOf, Document.entriesOf_map]
    exact hmade.mapM_eq

/-- what compiles under a tone compiles under the tone again -/
theorem exists_compile_again {tone d : Document} (hc : Tone.isChosen tone = true) {d' : Document}
    (ht : Tone.apply d tone = .ok d') {p : Spec} (h : compile d' = .ok p) :
    ∃ d'' p', Tone.apply d' tone = .ok d'' ∧ compile d'' = .ok p' ∧ p.Repeats p' := by
  obtain ⟨ms, ms', _, rfl, htoned⟩ := Tone.toned_of_apply hc ht
  obtain ⟨ms'', happly, htoned', hthemes, htexts, hparts⟩ := Tone.exists_toned_again hc htoned
  obtain ⟨⟨_, heq, hproblems⟩, h⟩ := memberProblems_eq_nil_of_compile h
  obtain rfl := Document.map.inj heq
  obtain ⟨members, texts, parts, h⟩ := compileUnchecked_map.1 h
  obtain ⟨texts', htexts', hlike⟩ := exists_sectionOf htexts h.foreground
  obtain ⟨parts', hparts', hlike'⟩ := exists_sectionOf hparts h.nonText
  let p' : Spec := { p with semantics := Entries.ofList (texts' ++ parts') }
  refine ⟨.map ms'', p', happly, ?_, ?_, rfl⟩
  · have hvalid : isValid (.map ms'') = true :=
      Tone.isValid_map.2 (memberProblems_again htoned' hthemes htexts hparts hproblems)
    refine bind_ok.2 ⟨(), if_pos hvalid, ?_⟩
    refine compileUnchecked_map.2 ⟨members, texts', parts', ?_⟩
    exact {
      ramps := htoned'.other "primitives" (by decide) ▸ h.ramps
      choices := htoned'.other "config" (by decide) ▸ h.choices
      layers := h.layers
      themes := hthemes ▸ h.themes
      foreground := htexts'
      nonText := hparts'
      semantics := rfl
      config := h.config
      warnings := h.warnings }
  · rw [h.semantics]
    exact Related.putAll .nil (List.rel_append hlike hlike')

end Spec
end Palette
