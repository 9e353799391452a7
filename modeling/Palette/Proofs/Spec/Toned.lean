import Palette.Proofs.Spec.Choices
import Palette.Proofs.Spec.Steps
import Palette.Spec.Tone

/-!
# What a tone replaces

A tone goes through the themes and the two sections of a specification part by part. A part that
has an entry of the tone gets the members that the entry gives, and all else stays where it is.

* `Entries.put_of_lookup`   writing what is there changes nothing;
* `Tone.Given`           a member of a part under an entry;
* `Tone.overlay_ok`      which members an entry replaces;
* `Tone.overlay_of_given`   an entry has nothing more to give to what it was merged with;
* `Tone.Merged`          the members of a semantic color that was merged with an entry;
* `Tone.part`            the step for one part, and `Tone.eachPart_eq`;
* `Tone.Replaced`        a section all of whose parts went through a step;
* `Tone.Toned`           the members of a specification under a tone,
* `Tone.toned_of_apply`, `Tone.exists_apply`   and when there are such;
* `Tone.Whole`, `Tone.Parts`    what the check asks of a specification, and what of its parts;
* `Tone.memberProblems_toned`   under a tone, it is checked by its parts alone.
-/

namespace Palette
open Outcome

/-- what is written where it is found changes nothing -/
theorem Entries.put_of_lookup {κ ν : Type} [BEq κ] {k : κ} {v : ν} {m : Entries κ ν}
    (h : m.lookup k = some v) : put k v m = m := by
  induction m with
  | nil => cases h
  | cons e m ih =>
    obtain ⟨a, b⟩ := e
    rw [List.lookup_cons] at h
    rw [put]
    cases hk : k == a with
    | true =>
      rw [hk] at h
      obtain rfl := Option.some.inj h
      rfl
    | false =>
      rw [hk] at h
      rw [if_neg Bool.false_ne_true, ih h]

namespace Tone

/-! ## entries -/

/-- what a name has after an entry was merged: what it had, or what the entry gives -/
def Given (entry : Document) (before after : Entries Atom Document) (name : String) : Prop :=
  entry.mentions name = .ok false ∧ after.lookup (.text name) = before.lookup (.text name) ∨
    entry.mentions name = .ok true ∧
      ∃ v, entry.need name = .ok v ∧ after.lookup (.text name) = some v

section
variable {entry : Document} {names : List String} {ms ms' : Entries Atom Document}

theorem overlay_cons_ok {name : String} :
    overlay entry (name :: names) ms = .ok ms' ↔
      entry.mentions name = .ok false ∧ overlay entry names ms = .ok ms' ∨
        entry.mentions name = .ok true ∧ ∃ v, entry.need name = .ok v ∧
          overlay entry names (Entries.put (.text name) v ms) = .ok ms' := by
  rw [overlay, List.foldlM_cons, bind_ok]
  constructor
  · rintro ⟨ms₁, h₁, h⟩
    obtain ⟨mentioned, hm, h₁⟩ := bind_ok.1 h₁
    cases mentioned with
    | false =>
      obtain rfl := pure_ok.1 h₁
      exact .inl ⟨hm, h⟩
    | true =>
      obtain ⟨v, hv, h₁⟩ := bind_ok.1 h₁
      obtain rfl := pure_ok.1 h₁
      exact .inr ⟨hm, v, hv, h⟩
  · rintro (⟨hm, h⟩ | ⟨hm, v, hv, h⟩)
    · exact ⟨ms, bind_ok.2 ⟨false, hm, rfl⟩, h⟩
    · exact ⟨_, bind_ok.2 ⟨true, hm, bind_ok.2 ⟨v, hv, rfl⟩⟩, h⟩

/-- an entry replaces what it gives among some names, and nothing else -/
theorem overlay_ok (h : overlay entry names ms = .ok ms') :
    (∀ name, name ∉ names → ms'.lookup (.text name) = ms.lookup (.text name)) ∧
      ∀ name ∈ names, Given entry ms ms' name := by
  induction names generalizing ms with
  | nil =>
    obtain rfl := pure_ok.1 h
    exact ⟨fun name _ => rfl, fun name hn => absurd hn List.not_mem_nil⟩
  | cons n names ih =>
    rcases overlay_cons_ok.1 h with ⟨hm, h⟩ | ⟨hm, v, hv, h⟩
    · obtain ⟨hother, hgiven⟩ := ih h
      refine ⟨fun name hn => hother name fun hmem => hn (List.mem_cons_of_mem _ hmem), ?_⟩
      refine List.forall_mem_cons.2 ⟨?_, hgiven⟩
      by_cases hn : n ∈ names
      · exact hgiven n hn
      · exact .inl ⟨hm, hother n hn⟩
    · obtain ⟨hother, hgiven⟩ := ih h
      constructor
      · intro name hn
        rw [List.mem_cons, not_or] at hn
        rw [hother name hn.2, Spec.lookup_put_text (Ne.symm hn.1)]
      · intro name hn
        by_cases hmem : name ∈ names
        · rcases hgiven name hmem with ⟨hm', hl⟩ | hgiven
          · have hne : n ≠ name := by
              rintro rfl
              cases hm.symm.trans hm'
            exact .inl ⟨hm', hl.trans (Spec.lookup_put_text hne)⟩
          · exact .inr hgiven
        · obtain rfl := (List.mem_cons.1 hn).resolve_right hmem
          exact .inr ⟨hm, v, hv, (hother name hmem).trans Spec.lookup_put_self⟩

/-- an entry that was merged has nothing more to give -/
theorem overlay_of_given {before : Entries Atom Document}
    (h : ∀ name ∈ names, Given entry before ms name) : overlay entry names ms = .ok ms := by
  induction names with
  | nil => rfl
  | cons name names ih =>
    obtain ⟨hname, hnames⟩ := List.forall_mem_cons.1 h
    refine overlay_cons_ok.2 ?_
    rcases hname with ⟨hm, _⟩ | ⟨hm, v, hv, hl⟩
    · exact .inl ⟨hm, ih hnames⟩
    · exact .inr ⟨hm, v, hv, by rw [Entries.put_of_lookup hl]; exact ih hnames⟩

/-- an entry that is a map can be merged -/
theorem exists_overlay (es : Entries Atom Document) (names : List String)
    (ms : Entries Atom Document) : ∃ ms', overlay (.map es) names ms = .ok ms' := by
  induction names generalizing ms with
  | nil => exact ⟨ms, rfl⟩
  | cons name names ih =>
    have hm : (Document.map es).mentions name = .ok (es.lookup (.text name)).isSome := rfl
    cases hl : es.lookup (.text name) with
    | none =>
      obtain ⟨ms', h⟩ := ih ms
      exact ⟨ms', overlay_cons_ok.2 (.inl ⟨by rw [hm, hl]; rfl, h⟩)⟩
    | some v =>
      obtain ⟨ms', h⟩ := ih (Entries.put (.text name) v ms)
      have hv : (Document.map es).need name = .ok v := by rw [Document.need, hl]
      exact ⟨ms', overlay_cons_ok.2 (.inr ⟨by rw [hm, hl]; rfl, v, hv, h⟩)⟩

theorem lookup_of_given {es : Entries Atom Document} {name : String}
    (h : Given (.map es) ms ms' name) :
    ms'.lookup (.text name) = (es.lookup (.text name)).or (ms.lookup (.text name)) := by
  rcases h with ⟨hm, hl⟩ | ⟨_, v, hv, hl⟩
  · have hnone : es.lookup (.text name) = none :=
      Option.isNone_iff_eq_none.1 (Option.isSome_eq_false_iff.1 (Except.ok.inj hm))
    rw [hl, hnone, Option.none_or]
  · rw [Document.need] at hv
    split at hv
    · next w hw =>
      rw [hl, hw, ← Except.ok.inj hv, Option.some_or]
    · cases hv

theorem Given.congr {after : Entries Atom Document} {name : String} (h : Given entry ms ms' name)
    (hl : after.lookup (.text name) = ms'.lookup (.text name)) : Given entry ms after name := by
  rcases h with ⟨hm, h⟩ | ⟨hm, v, hv, h⟩
  · exact .inl ⟨hm, hl.trans h⟩
  · exact .inr ⟨hm, v, hv, hl.trans h⟩

/-! ## semantic colors -/

/-- the members of a semantic color and those that an entry makes of them -/
structure Merged (entry : Document) (ms ms' : Entries Atom Document) (own added : List Document) :
    Prop where
  given : ∀ name ∈ ["ramp", "defaultStep"], Given entry ms ms' name
  overrides : ms'.lookup (.text "overrides") = some (.list (own ++ added))
  other : ∀ name, name ∉ ["ramp", "defaultStep", "overrides"] →
    ms'.lookup (.text name) = ms.lookup (.text name)

section
variable {own added : List Document} {o : Option Document}

theorem semantic_eq (hm : overlay entry ["ramp", "defaultStep"] ms = .ok ms')
    (hown : Document.elementsOf (ms.lookup (.text "overrides")) = .ok own)
    (hget : entry.get "overrides" = .ok o) (hadded : Document.elementsOf o = .ok added) :
    semantic ms entry = .ok (.map (Entries.put (.text "overrides") (.list (own ++ added)) ms')) :=
  bind_ok.2 ⟨ms', hm, bind_ok.2 ⟨own, hown, bind_ok.2 ⟨o, hget, bind_ok.2 ⟨added, hadded, rfl⟩⟩⟩⟩

theorem merged_of_semantic {d' : Document} (h : semantic ms entry = .ok d') :
    ∃ ms' own o added, d' = .map ms' ∧
      Document.elementsOf (ms.lookup (.text "overrides")) = .ok own ∧
      entry.get "overrides" = .ok o ∧ Document.elementsOf o = .ok added ∧
      Merged entry ms ms' own added := by
  obtain ⟨merged, hmerged, h⟩ := bind_ok.1 h
  obtain ⟨own, hown, h⟩ := bind_ok.1 h
  obtain ⟨o, hget, h⟩ := bind_ok.1 h
  obtain ⟨added, hadded, h⟩ := bind_ok.1 h
  obtain ⟨hother, hgiven⟩ := overlay_ok hmerged
  refine ⟨_, own, o, added, (pure_ok.1 h).symm, hown, hget, hadded, ?_, Spec.lookup_put_self, ?_⟩
  · intro name hn
    refine (hgiven name hn).congr (Spec.lookup_put_text ?_)
    rintro rfl
    exact absurd hn (by decide)
  · intro name hn
    rw [Spec.lookup_put_text, hother name]
    · exact fun hmem => hn (List.mem_append_left ["overrides"] hmem)
    · rintro rfl
      exact hn (by decide)

end
end

/-! ## parts -/

/-- a part merged with its entry of the tone, if it has one -/
def part (merge : Entries Atom Document → Document → Except Fault Document) (tone d : Document) :
    Except Fault Document := do
  match ← entry? tone d with
  | some e => merge (← d.entries) e
  | none => return d

theorem part_ok {merge : Entries Atom Document → Document → Except Fault Document}
    {tone d d' : Document} :
    part merge tone d = .ok d' ↔ entry? tone d = .ok none ∧ d' = d ∨
      ∃ e ms, entry? tone d = .ok (some e) ∧ d = .map ms ∧ merge ms e = .ok d' := by
  rw [part, bind_ok]
  constructor
  · rintro ⟨o, ho, h⟩
    cases o with
    | none => exact .inl ⟨ho, (pure_ok.1 h).symm⟩
    | some e =>
      obtain ⟨ms, hms, h⟩ := bind_ok.1 h
      cases d with
      | map ms' =>
        obtain rfl := Except.ok.inj hms
        exact .inr ⟨e, ms', ho, rfl, h⟩
      | _ => cases hms
  · rintro (⟨ho, rfl⟩ | ⟨e, ms, ho, rfl, h⟩)
    · exact ⟨none, ho, rfl⟩
    · exact ⟨some e, ho, bind_ok.2 ⟨ms, rfl, h⟩⟩

theorem eachPart_eq (merge : Entries Atom Document → Document → Except Fault Document)
    (tone : Document) (parts : Entries Atom Document) :
    eachPart merge tone parts = parts.mapM fun p => do return (p.1, ← part merge tone p.2) := by
  rw [eachPart]
  congr 1
  funext p
  rw [part]
  cases entry? tone p.2 with
  | error f => rfl
  | ok o =>
    cases o with
    | none => rfl
    | some e => cases p.2.entries <;> rfl

/-! ## sections -/

/-- a section all of whose parts went through a step; one that is missing or empty stays -/
inductive Replaced (f : Document → Except Fault Document) : Option Document → Option Document → Prop
  | missing : Replaced f none none
  | void {d : Document} (h : d.truthy = false) : Replaced f (some d) (some d)
  | map {es es' : Entries Atom Document} (h : Made (fun e => f e.2) es es') :
      Replaced f (some (.map es)) (some (.map es'))

section
variable {merge : Entries Atom Document → Document → Except Fault Document} {tone : Document}
  {name : String} {ms ms' : Entries Atom Document}

theorem made_of_eachPart {es es' : Entries Atom Document}
    (h : eachPart merge tone es = .ok es') : Made (fun e => part merge tone e.2) es es' :=
  Made.of_mapM (eachPart_eq merge tone es ▸ h)

theorem eachPart_of_made {es es' : Entries Atom Document}
    (h : Made (fun e => part merge tone e.2) es es') : eachPart merge tone es = .ok es' :=
  (eachPart_eq merge tone es).trans h.mapM_eq

theorem replaced_of_onSection (h : onSection name (eachPart merge tone) ms = .ok ms') :
    Replaced (part merge tone) (ms.lookup (.text name)) (ms'.lookup (.text name)) ∧
      ∀ other, name ≠ other → ms'.lookup (.text other) = ms.lookup (.text other) := by
  rw [onSection] at h
  split at h
  · next d hd =>
    split at h
    · next hvoid =>
      obtain rfl := pure_ok.1 h
      rw [hd]
      exact ⟨.void (by simpa using hvoid), fun other _ => rfl⟩
    · obtain ⟨es, hes, h⟩ := bind_ok.1 h
      obtain ⟨es', hes', h⟩ := bind_ok.1 h
      obtain rfl := pure_ok.1 h
      cases d with
      | map members =>
        obtain rfl := Except.ok.inj hes
        rw [hd, Spec.lookup_put_self]
        exact ⟨.map (made_of_eachPart hes'), fun other hne => Spec.lookup_put_text hne⟩
      | _ => cases hes
  · next hnone =>
    obtain rfl := pure_ok.1 h
    rw [hnone]
    exact ⟨.missing, fun other _ => rfl⟩

theorem exists_onSection {o : Option Document}
    (h : Replaced (part merge tone) (ms.lookup (.text name)) o) :
    ∃ ms', onSection name (eachPart merge tone) ms = .ok ms' ∧ ms'.lookup (.text name) = o := by
  rw [onSection]
  cases hl : ms.lookup (.text name) with
  | none =>
    rw [hl] at h
    cases h
    exact ⟨ms, rfl, hl⟩
  | some d =>
    rw [hl] at h
    cases h with
    | void hd => exact ⟨ms, if_pos (by rw [hd]; rfl), hl⟩
    | @map es es' hes =>
      cases hes with
      | nil => exact ⟨ms, rfl, hl⟩
      | @cons _ e' _ es' he hes =>
        refine ⟨Entries.put (.text name) (.map (e' :: es')) ms, ?_, Spec.lookup_put_self⟩
        exact bind_ok.2 ⟨_, rfl, bind_ok.2 ⟨_, eachPart_of_made (.cons he hes), rfl⟩⟩

end

/-! ## specifications -/

/-- the members of a specification and those that a tone makes of them -/
structure Toned (tone : Document) (ms ms' : Entries Atom Document) : Prop where
  themes : Replaced (part theme tone) (ms.lookup (.text "themes")) (ms'.lookup (.text "themes"))
  foreground : Replaced (part semantic tone) (ms.lookup (.text "foreground"))
    (ms'.lookup (.text "foreground"))
  nonText : Replaced (part semantic tone) (ms.lookup (.text "nonText"))
    (ms'.lookup (.text "nonText"))
  other : ∀ name, name ∉ ["themes", "foreground", "nonText"] →
    ms'.lookup (.text name) = ms.lookup (.text name)

section
variable {tone : Document} (hc : isChosen tone = true)
include hc

theorem apply_eq (d : Document) : apply d tone = (do
    let members ← d.dictionary
    let members ← onSection "themes" (eachPart theme tone) members
    let members ← onSection "foreground" (eachPart semantic tone) members
    let members ← onSection "nonText" (eachPart semantic tone) members
    return .map members) := by
  rw [apply, hc]
  rfl

theorem toned_of_apply {d d' : Document} (h : apply d tone = .ok d') :
    ∃ ms ms', d.dictionary = .ok ms ∧ d' = .map ms' ∧ Toned tone ms ms' := by
  rw [apply_eq hc] at h
  obtain ⟨ms, hms, h⟩ := bind_ok.1 h
  obtain ⟨ms₁, h₁, h⟩ := bind_ok.1 h
  obtain ⟨ms₂, h₂, h⟩ := bind_ok.1 h
  obtain ⟨ms₃, h₃, h⟩ := bind_ok.1 h
  obtain ⟨hthemes, hother₁⟩ := replaced_of_onSection h₁
  obtain ⟨htexts, hother₂⟩ := replaced_of_onSection h₂
  obtain ⟨hparts, hother₃⟩ := replaced_of_onSection h₃
  refine ⟨ms, ms₃, hms, (pure_ok.1 h).symm, ?_⟩
  exact {
    themes := by
      rw [hother₃ _ (by decide), hother₂ _ (by decide)]
      exact hthemes
    foreground := by
      rw [hother₃ _ (by decide), ← hother₁ "foreground" (by decide)]
      exact htexts
    nonText := by
      rw [← hother₁ "nonText" (by decide), ← hother₂ "nonText" (by decide)]
      exact hparts
    other := fun name hn => by
      simp only [List.mem_cons, List.not_mem_nil, or_false, not_or] at hn
      rw [hother₃ _ (Ne.symm hn.2.2), hother₂ _ (Ne.symm hn.2.1), hother₁ _ (Ne.symm hn.1)] }

theorem exists_apply {ms : Entries Atom Document} {themes texts parts : Option Document}
    (hthemes : Replaced (part theme tone) (ms.lookup (.text "themes")) themes)
    (htexts : Replaced (part semantic tone) (ms.lookup (.text "foreground")) texts)
    (hparts : Replaced (part semantic tone) (ms.lookup (.text "nonText")) parts) :
    ∃ ms', apply (.map ms) tone = .ok (.map ms') ∧ Toned tone ms ms' ∧
      ms'.lookup (.text "themes") = themes ∧ ms'.lookup (.text "foreground") = texts ∧
      ms'.lookup (.text "nonText") = parts := by
  obtain ⟨ms₁, h₁, rfl⟩ := exists_onSection hthemes
  have hother₁ := (replaced_of_onSection h₁).2
  rw [← hother₁ "foreground" (by decide)] at htexts
  obtain ⟨ms₂, h₂, rfl⟩ := exists_onSection htexts
  have hother₂ := (replaced_of_onSection h₂).2
  rw [← hother₁ "nonText" (by decide), ← hother₂ "nonText" (by decide)] at hparts
  obtain ⟨ms₃, h₃, rfl⟩ := exists_onSection hparts
  have hother₃ := (replaced_of_onSection h₃).2
  have happly : apply (.map ms) tone = .ok (.map ms₃) := by
    rw [apply_eq hc]
    exact bind_ok.2 ⟨ms, rfl, bind_ok.2 ⟨ms₁, h₁, bind_ok.2 ⟨ms₂, h₂, bind_ok.2 ⟨ms₃, h₃, rfl⟩⟩⟩⟩
  obtain ⟨_, _, hms, heq, htoned⟩ := toned_of_apply hc happly
  obtain rfl := Except.ok.inj hms
  cases heq
  refine ⟨ms₃, happly, htoned, ?_, hother₃ _ (by decide), rfl⟩
  rw [hother₃ _ (by decide), hother₂ _ (by decide)]

end

/-! ## the check -/

open Spec

section
variable {f : Document → Except Fault Document} {o o' : Option Document}

/-- the parts of a section, one by one -/
theorem Replaced.made (h : Replaced f o o') :
    Made (fun e => f e.2) (membersOf (o.getD .null)) (membersOf (o'.getD .null)) := by
  cases h with
  | missing => exact .nil
  | @void d hd =>
    cases d with
    | map ms =>
      cases ms with
      | nil => exact .nil
      | cons e ms => cases hd
    | _ => exact .nil
  | map h => exact h

theorem Replaced.isMap_eq (h : Replaced f o o') :
    (o'.getD .null).isMap = (o.getD .null).isMap := by
  cases h <;> rfl

theorem Replaced.optional_eq (h : Replaced f o o') :
    optional isOptionalMap o' = optional isOptionalMap o := by
  cases h <;> rfl

end

/-- a tone leaves the states of a color as they are -/
theorem block_interactions_of_part {tone d d' : Document} (h : part semantic tone d = .ok d') :
    d'.block "interactions" = d.block "interactions" := by
  rcases part_ok.1 h with ⟨_, rfl⟩ | ⟨e, ms, _, rfl, hm⟩
  · rfl
  · obtain ⟨ms', _, _, _, rfl, _, _, _, hm⟩ := merged_of_semantic hm
    show membersOf ((ms'.lookup (.text "interactions")).getD .null) = _
    rw [hm.other "interactions" (by decide)]
    rfl

/-- what the check asks of the parts of a specification -/
structure Parts (sc : Scope) (d : Document) : Prop where
  themes : ∀ e ∈ d.block "themes", themeProblems sc s!"themes.{e.1.shown}" e.2 = []
  foreground : ∀ e ∈ d.block "foreground", semanticProblems sc s!"foreground.{e.1.shown}" e.2 = []
  nonText : ∀ e ∈ d.block "nonText", semanticProblems sc s!"nonText.{e.1.shown}" e.2 = []

/-- what the check asks of a specification besides its parts -/
structure Whole (ms : Entries Atom Document) : Prop where
  primitives : mapProblems "primitives" rampProblems (ms.lookup (.text "primitives")) = []
  themes : ((ms.lookup (.text "themes")).getD .null).isMap = true
  colors : (sections.any fun s => ((ms.lookup (.text s.1)).getD .null).isMap) = true
  foreground : optional isOptionalMap (ms.lookup (.text "foreground")) = true
  nonText : optional isOptionalMap (ms.lookup (.text "nonText")) = true
  declared : ∀ k ∈ declaredIn ms "nonText", (declaredIn ms "foreground").contains k = false
  derived : derivedProblems (declaredIn ms "foreground" ++ declaredIn ms "nonText") []
    (derivations ms) = []
  config : (match ms.lookup (.text "config") with
    | none => []
    | some .null => []
    | some d => configProblems (scope ms) d) = []

variable {ms : Entries Atom Document}

theorem memberProblems_eq_nil_iff :
    memberProblems ms = [] ↔ Whole ms ∧ Parts (scope ms) (.map ms) := by
  have hsection (name : String) (before : List Atom) :
      sectionProblems (scope ms) name before (ms.lookup (.text name)) = [] ↔
        optional isOptionalMap (ms.lookup (.text name)) = true ∧
          (∀ k ∈ declaredIn ms name, before.contains k = false) ∧
            ∀ e ∈ (Document.map ms).block name,
              semanticProblems (scope ms) s!"{name}.{e.1.shown}" e.2 = [] := by
    rw [sectionProblems_eq, mapOr_eq_nil_iff]
    refine and_congr_right' ?_
    simp only [List.append_eq_nil_iff, demand_eq_nil, Bool.not_eq_true']
    rw [forall₂_and]
    refine and_congr_left' ?_
    rw [declaredIn, Entries.keys, List.forall_mem_map]
  simp only [memberProblems, List.append_eq_nil_iff, mapProblems_eq_nil_iff "themes",
    demand_eq_nil, hsection]
  constructor
  · rintro ⟨⟨⟨⟨⟨⟨hprimitives, hthemes, heach⟩, hany⟩, hforeground, _, htexts⟩, hnonText, hdisjoint,
      hparts⟩, hderived⟩, hconfig⟩
    exact ⟨⟨hprimitives, hthemes, hany, hforeground, hnonText, hdisjoint, hderived, hconfig⟩,
      heach, htexts, hparts⟩
  · rintro ⟨h, hparts⟩
    exact ⟨⟨⟨⟨⟨⟨h.primitives, h.themes, hparts.themes⟩, h.colors⟩, h.foreground, fun _ _ => rfl,
      hparts.foreground⟩, h.nonText, h.declared, hparts.nonText⟩, h.derived⟩, h.config⟩

/-- a tone changes nothing but parts -/
theorem whole_of_toned {tone : Document} {ms' : Entries Atom Document} (ht : Toned tone ms ms')
    (h : Whole ms) : scope ms' = scope ms ∧ Whole ms' := by
  have hprimitives := ht.other "primitives" (by decide)
  have hconfig := ht.other "config" (by decide)
  have hscope : scope ms' = scope ms := by
    rw [scope, scope, hprimitives, ht.themes.made.keys_eq]
  have htexts : declaredIn ms' "foreground" = declaredIn ms "foreground" :=
    ht.foreground.made.keys_eq
  have hparts : declaredIn ms' "nonText" = declaredIn ms "nonText" := ht.nonText.made.keys_eq
  have hstates {name : String} {es es' : Entries Atom Document}
      (hm : Made (fun e => part semantic tone e.2) es es') :
      (es'.flatMap fun t => (t.2.block "interactions").map fun i =>
        (s!"{name}.{t.1.shown}.interactions.{i.1.shown}", derivedName t.1 i.1)) =
      es.flatMap fun t => (t.2.block "interactions").map fun i =>
        (s!"{name}.{t.1.shown}.interactions.{i.1.shown}", derivedName t.1 i.1) := by
    refine (flatMap_eq hm fun e _ e' he => ?_).symm
    rw [block_interactions_of_part he.2, he.1]
  have hderivations : derivations ms' = derivations ms := by
    simp only [derivations, sections, List.flatMap_cons, List.flatMap_nil, List.append_nil]
    exact congrArg₂ _ (hstates ht.foreground.made) (hstates ht.nonText.made)
  refine ⟨hscope, ?_⟩
  exact {
    primitives := hprimitives ▸ h.primitives
    themes := ht.themes.isMap_eq ▸ h.themes
    colors := by
      have hcolors := h.colors
      simp only [sections, List.any_cons, List.any_nil] at hcolors ⊢
      rw [ht.foreground.isMap_eq, ht.nonText.isMap_eq]
      exact hcolors
    foreground := ht.foreground.optional_eq ▸ h.foreground
    nonText := ht.nonText.optional_eq ▸ h.nonText
    declared := by
      rw [htexts, hparts]
      exact h.declared
    derived := by
      rw [htexts, hparts, hderivations]
      exact h.derived
    config := by
      rw [hconfig, hscope]
      exact h.config }

/-- under a tone, a specification is checked by its parts alone -/
theorem memberProblems_toned {tone : Document} {ms' : Entries Atom Document}
    (ht : Toned tone ms ms') (h : memberProblems ms = []) :
    memberProblems ms' = [] ↔ Parts (scope ms) (.map ms') := by
  obtain ⟨hscope, hwhole⟩ := whole_of_toned ht (memberProblems_eq_nil_iff.1 h).1
  rw [memberProblems_eq_nil_iff, and_iff_right hwhole, hscope]

/-- all parts have what a step makes of them -/
theorem exists_replaced {f : Document → Except Fault Document} {o : Option Document}
    (ho : optional isOptionalMap o = true)
    (h : ∀ e ∈ membersOf (o.getD .null), ∃ d', f e.2 = .ok d') : ∃ o', Replaced f o o' := by
  cases o with
  | none => exact ⟨none, .missing⟩
  | some d =>
    cases d with
    | null => exact ⟨some .null, .void rfl⟩
    | map ms =>
      obtain ⟨ms', hm⟩ := Made.exists_of_forall (f := fun e => f e.2) h
      exact ⟨some (.map ms'), .map hm⟩
    | _ => cases ho

theorem isValid_map : isValid (.map ms) = true ↔ memberProblems ms = [] := List.isEmpty_iff

end Tone
end Palette
