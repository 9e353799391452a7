import Palette.Proofs.Spec.Steps
import Palette.Proofs.Spec.Toned

/-!
# When a tone keeps a specification valid

The check measures the entry of a tone against the ramp that the entry names, but not what a part
keeps under the tone. Where an entry moves a part to another ramp, the steps that the part counts on
its ramp have to be below the length of the new one, and nothing else can go wrong.

* `Tone.overlay?`       the entry of a tone, and `Tone.length?` the length of the ramp it names;
* `Tone.themeSteps`, `Tone.colorSteps`   the steps that count on the ramp under a tone;
* `Tone.Fits`, `Tone.KeepsRamp`   a part whose steps are on the ramp, and one that keeps its ramp;
* `Tone.exists_theme`, `Tone.exists_color`   one part under a tone;
* `Tone.exists_toned`, `Tone.parts_iff`   all parts under a tone;
* `Tone.exists_valid_iff`     the whole.
-/

namespace Palette
namespace Tone
open Outcome Spec

/-- the entry of a tone in a part, unless it is empty -/
def overlay? (tone : String) (d : Document) : Option Document :=
  ((d.block "tone").lookup (.text tone)).filter Document.truthy

/-- the length of the ramp that the entry of a tone names -/
def length? (sc : Scope) (tone : String) (d : Document) : Option Nat :=
  (overlay? tone d).bind fun e => ((membersOf e).lookup (.text "ramp")).bind sc.rampLength?

/-- a step under a tone: that of the entry, or else the part's own -/
def resulting (tone name : String) (d : Document) : Document :=
  (((overlay? tone d).bind fun e => (membersOf e).lookup (.text name)).or
    ((membersOf d).lookup (.text name))).getD .null

/-- the steps that a theme counts on its ramp under a tone -/
def themeSteps (tone : String) (d : Document) : List Document :=
  resulting tone "step" d :: (d.block "tone").flatMap fun e => themeToneSteps e.2

/-- the steps of overrides, states and entries that a semantic color counts on its ramp -/
def ownSteps (d : Document) : List Document :=
  overridesSteps ((membersOf d).lookup (.text "overrides")) ++
    ((d.block "interactions").flatMap fun e => interactionSteps e.2) ++
    ((d.block "vision").flatMap fun e => variantSteps e.2) ++
    (d.block "tone").flatMap fun e => variantSteps e.2

/-- the steps that a semantic color counts on its ramp under a tone -/
def colorSteps (tone : String) (d : Document) : List Document :=
  resulting tone "defaultStep" d :: ownSteps d

/-- if the tone names a ramp, are the steps of a part below its length? -/
def Fits (sc : Scope) (steps : String → Document → List Document) (tone : String) (d : Document) :
    Prop :=
  ∀ length ∈ length? sc tone d, ∀ s ∈ steps tone d, isBelow length s = true

/-- does the tone name no ramp, or the ramp that the part has? -/
def KeepsRamp (tone : String) (d : Document) : Prop :=
  ∀ e ∈ overlay? tone d, ∀ name ∈ (membersOf e).lookup (.text "ramp"),
    (membersOf d).lookup (.text "ramp") = some name

variable {sc : Scope} {tone path : String} {ms : Entries Atom Document}

/-! ## entries of parts that pass -/

theorem entry?_eq {each : Entries Atom Document → List Problem}
    (h : mapOr path each (ms.lookup (.text "tone")) = []) :
    entry? (.text tone) (.map ms) = .ok (overlay? tone (.map ms)) := by
  refine bind_ok.2 ⟨_, rfl, bind_ok.2 ⟨_, entriesOf_of_mapOr h, ?_⟩⟩
  exact bind_ok.2 ⟨.text tone, rfl, rfl⟩

/-- an entry of a tone is one that has been checked -/
theorem problems_of_overlay? {f : Atom × Document → List Problem}
    (h : mapOr path (fun es => es.flatMap f) (ms.lookup (.text "tone")) = []) {e : Document}
    (he : overlay? tone (.map ms) = some e) : ∃ k, f (k, e) = [] := by
  obtain ⟨k, hk, _⟩ := Entries.exists_of_lookup (Option.filter_eq_some_iff.1 he).1
  exact ⟨k, (mapOr_eq_nil_iff.1 h).2 _ hk⟩

theorem part_of_none {merge : Entries Atom Document → Document → Except Fault Document}
    {each : Entries Atom Document → List Problem}
    (h : mapOr path each (ms.lookup (.text "tone")) = []) (ho : overlay? tone (.map ms) = none) :
    part merge (.text tone) (.map ms) = .ok (.map ms) :=
  part_ok.2 (.inl ⟨ho ▸ entry?_eq h, rfl⟩)

theorem fits_of_none {steps : String → Document → List Document} {d : Document}
    (ho : overlay? tone d = none) : Fits sc steps tone d := by
  intro length hl
  rw [length?, ho] at hl
  cases hl

section
variable {steps : String → Document → List Document} {es : Entries Atom Document}
  {name : Document} {length found : Nat}

/-- a part that is checked by its steps on the ramp that it has under a tone fits this ramp exactly
if it passes, and it does if it keeps its ramp -/
theorem fits_iff (ho : overlay? tone (.map ms) = some (.map es))
    (hn : ms.lookup (.text "ramp") = some name) (hlength : sc.rampLength? name = some length)
    (hfound : sc.rampLength? ((es.lookup (.text "ramp")).getD name) = some found) {P : Prop}
    (hP : P ↔ ∀ s ∈ steps tone (.map ms), isBelow found s = true)
    (hown : found = length → ∀ s ∈ steps tone (.map ms), isBelow found s = true) :
    (P ↔ Fits sc steps tone (.map ms)) ∧
      (KeepsRamp tone (.map ms) → Fits sc steps tone (.map ms)) := by
  have hes : membersOf (.map es) = es := rfl
  rw [hP]
  cases hl : es.lookup (.text "ramp") with
  | none =>
    rw [hl] at hfound
    have hnone : length? sc tone (.map ms) = none := by
      rw [length?, ho, Option.bind_some, hes, hl]
      rfl
    have hfits : Fits sc steps tone (.map ms) := by
      intro length hmem
      rw [hnone] at hmem
      cases hmem
    refine ⟨iff_of_true (hown ?_) hfits, fun _ => hfits⟩
    exact Option.some.inj (hfound.symm.trans hlength)
  | some ramp =>
    rw [hl] at hfound
    have hsome : length? sc tone (.map ms) = some found := by
      rw [length?, ho, Option.bind_some, hes, hl]
      exact hfound
    have hfits : Fits sc steps tone (.map ms) ↔
        ∀ s ∈ steps tone (.map ms), isBelow found s = true := by
      rw [Fits, hsome]
      exact ⟨fun h => h found rfl, fun h length hl => Option.some.inj hl ▸ h⟩
    refine ⟨hfits.symm, fun hkeeps => hfits.2 (hown ?_)⟩
    have hsame : ms.lookup (.text "ramp") = some ramp := hkeeps _ ho _ hl
    obtain rfl := Option.some.inj (hn.symm.trans hsame)
    exact Option.some.inj (hfound.symm.trans hlength)

theorem ramp_of_given {ms' : Entries Atom Document} (h : Given (.map es) ms ms' "ramp")
    (hn : ms.lookup (.text "ramp") = some name) :
    ms'.lookup (.text "ramp") = some ((es.lookup (.text "ramp")).getD name) := by
  rw [lookup_of_given h, hn]
  cases es.lookup (.text "ramp") <;> rfl

theorem resulting_of_given {ms' : Entries Atom Document} {key : String}
    (ho : overlay? tone (.map ms) = some (.map es)) (h : Given (.map es) ms ms' key) :
    (ms'.lookup (.text key)).getD .null = resulting tone key (.map ms) := by
  rw [lookup_of_given h, resulting, ho]
  rfl

/-- the step that an entry gives has been checked, and so has the one that it leaves -/
theorem exists_resulting {key : String} (ho : overlay? tone (.map ms) = some (.map es))
    (hentry : ∀ step ∈ es.lookup (.text key), isStep found step = true)
    (hown : isStep length ((ms.lookup (.text key)).getD .null) = true) :
    ∃ l, isStep l (resulting tone key (.map ms)) = true ∧ (found = length → l = length) := by
  have hresulting : resulting tone key (.map ms) =
      ((es.lookup (.text key)).or (ms.lookup (.text key))).getD .null := by
    rw [resulting, ho]
    rfl
  rw [hresulting]
  cases hl : es.lookup (.text key) with
  | none => exact ⟨length, hown, fun _ => rfl⟩
  | some step => exact ⟨found, hentry step hl, id⟩

end

/-! ## themes -/

/-- a theme that was merged with an entry is checked by its steps on the ramp that it has then -/
theorem theme_merged {name : Document} {length found : Nat} (hon : ThemeOn sc name length path ms)
    {es ms' : Entries Atom Document} (ho : overlay? tone (.map ms) = some (.map es))
    (hm : overlay (.map es) ["ramp", "step", "fallback", "aliases"] ms = .ok ms')
    (hn : ms.lookup (.text "ramp") = some name)
    (hfound : sc.rampLength? ((es.lookup (.text "ramp")).getD name) = some found)
    (hstep : ∀ step ∈ es.lookup (.text "step"), isStep found step = true)
    (hnames : ∀ key ∈ ["fallback", "aliases"], optional isTexts (es.lookup (.text key)) = true) :
    themeProblems sc path (.map ms') = [] ↔
      ∀ s ∈ themeSteps tone (.map ms), isBelow found s = true := by
  obtain ⟨hother, hgiven⟩ := overlay_ok hm
  have hlookup {key : String} (hk : key ∈ ["ramp", "step", "fallback", "aliases"]) :
      ms'.lookup (.text key) = (es.lookup (.text key)).or (ms.lookup (.text key)) :=
    lookup_of_given (hgiven key hk)
  have hramp := ramp_of_given (hgiven "ramp" (by decide)) hn
  have hresulting := resulting_of_given ho (hgiven "step" (by decide))
  obtain ⟨_, hchecked, _⟩ := exists_resulting ho hstep hon.step
  have htones := remeasured (path ++ ".tone") hon.tone fun e he =>
    themeToneProblems_iff he hfound
  rw [themeProblems_iff hramp hfound, themeSteps, List.forall_mem_cons,
    ← isStep_iff_isBelow hchecked, ← hresulting]
  constructor
  · intro h
    have htone := h.tone
    rw [hother "tone" (by decide)] at htone
    exact ⟨h.step, htones.1 htone⟩
  · rintro ⟨hstep, hbelow⟩
    refine ⟨hstep, fun key hk => ?_, ?_⟩
    · have hmem : key ∈ ["ramp", "step", "fallback", "aliases"] :=
        List.mem_cons_of_mem _ (List.mem_cons_of_mem _ hk)
      have hkey := hnames key hk
      rw [hlookup hmem]
      cases hl : es.lookup (.text key) with
      | none => exact hon.names key hk
      | some names => rwa [hl] at hkey
    · rw [hother "tone" (by decide)]
      exact htones.2 hbelow

theorem exists_theme (tone : String) {d : Document} (h : themeProblems sc path d = []) :
    ∃ d', part theme (.text tone) d = .ok d' ∧
      (themeProblems sc path d' = [] ↔ Fits sc themeSteps tone d) ∧
      (KeepsRamp tone d → Fits sc themeSteps tone d) := by
  cases d with
  | map ms =>
    obtain ⟨name, length, hn, hlength, hon⟩ := themeProblems_map.1 h
    cases ho : overlay? tone (.map ms) with
    | none =>
      exact ⟨.map ms, part_of_none hon.tone ho, iff_of_true h (fits_of_none ho),
        fun _ => fits_of_none ho⟩
    | some e =>
      obtain ⟨k, he⟩ := problems_of_overlay? hon.tone ho
      cases e with
      | map es =>
        obtain ⟨⟨found, hfound, hstep⟩, hnames⟩ := themeToneProblems_map.1 he
        obtain ⟨ms', hm⟩ := exists_overlay es ["ramp", "step", "fallback", "aliases"] ms
        refine ⟨.map ms', part_ok.2 (.inr ⟨_, ms, ho ▸ entry?_eq hon.tone, rfl, ?_⟩), ?_⟩
        · exact bind_ok.2 ⟨ms', hm, rfl⟩
        refine fits_iff ho hn hlength hfound (theme_merged hon ho hm hn hfound hstep hnames) ?_
        rintro rfl
        obtain ⟨_, hresulting, hl⟩ := exists_resulting ho hstep hon.step
        obtain rfl := hl rfl
        have htones := remeasured (path ++ ".tone") hon.tone fun e he =>
          themeToneProblems_iff he hlength
        exact List.forall_mem_cons.2 ⟨isBelow_of_isStep hresulting, htones.1 hon.tone⟩
      | _ => cases he
  | _ => cases h

/-! ## semantic colors -/

/-- the parts that a color measures against its ramp, measured against another one -/
theorem semanticOn_steps {length found : Nat} (hon : SemanticOn sc length path ms) :
    overridesProblems sc found (path ++ ".overrides") (ms.lookup (.text "overrides")) = [] ∧
      interactionsProblems sc found (path ++ ".interactions") (ms.lookup (.text "interactions")) =
        [] ∧
      blockProblems sc found (path ++ ".vision") (ms.lookup (.text "vision")) = [] ∧
      blockProblems sc found (path ++ ".tone") (ms.lookup (.text "tone")) = [] ↔
    ∀ s ∈ ownSteps (.map ms), isBelow found s = true := by
  have hstates := hon.interactions
  have hvision := hon.vision
  have htone := hon.tone
  rw [interactionsProblems_eq] at hstates ⊢
  rw [blockProblems_eq] at hvision htone
  rw [blockProblems_eq, blockProblems_eq, overridesProblems_iff hon.overrides,
    remeasured _ hstates fun e he => interactionProblems_iff he,
    remeasured _ hvision fun e he => variantProblems_iff he,
    remeasured _ htone fun e he => variantProblems_iff he, ownSteps]
  simp only [List.forall_mem_append, and_assoc]
  rfl

/-- a color that was merged with an entry is checked by its steps on the ramp that it has then -/
theorem color_merged {name : Document} {length found : Nat} (hon : SemanticOn sc length path ms)
    {es ms' : Entries Atom Document} (ho : overlay? tone (.map ms) = some (.map es))
    {own added : List Document}
    (hown : Document.elementsOf (ms.lookup (.text "overrides")) = .ok own)
    (hadded : Document.elementsOf (es.lookup (.text "overrides")) = .ok added)
    (hm : Merged (.map es) ms ms' own added) (hn : ms.lookup (.text "ramp") = some name)
    (hfound : sc.rampLength? ((es.lookup (.text "ramp")).getD name) = some found)
    (hstep : ∀ step ∈ es.lookup (.text "defaultStep"), isStep found step = true) {path' : String}
    (hpass : overridesProblems sc found path' (es.lookup (.text "overrides")) = []) :
    semanticProblems sc path (.map ms') = [] ↔
      ∀ s ∈ colorSteps tone (.map ms), isBelow found s = true := by
  have hramp := ramp_of_given (hm.given "ramp" (by decide)) hn
  have hresulting := resulting_of_given ho (hm.given "defaultStep" (by decide))
  have hoverrides : overridesProblems sc found (path ++ ".overrides")
      (ms'.lookup (.text "overrides")) = [] ↔
      overridesProblems sc found (path ++ ".overrides") (ms.lookup (.text "overrides")) = [] := by
    rw [hm.overrides, overridesProblems_append hon.overrides hown hpass hadded,
      overridesProblems_iff hon.overrides]
  obtain ⟨_, hchecked, _⟩ := exists_resulting ho hstep hon.default
  rw [semanticProblems_iff hramp hfound, colorSteps, List.forall_mem_cons,
    ← isStep_iff_isBelow hchecked, ← hresulting]
  refine Iff.trans ?_ (and_congr_right' (semanticOn_steps hon))
  constructor
  · intro h
    have hstates := h.interactions
    have hvision := h.vision
    have htone := h.tone
    rw [hm.other _ (by decide)] at hstates hvision htone
    exact ⟨h.default, hoverrides.1 h.overrides, hstates, hvision, htone⟩
  · rintro ⟨hdefault, hown, hstates, hvision, htone⟩
    exact {
      default := hdefault
      decorative := by
        rw [hm.other _ (by decide)]
        exact hon.decorative
      overrides := hoverrides.2 hown
      interactions := by
        rw [hm.other _ (by decide)]
        exact hstates
      vision := by
        rw [hm.other _ (by decide)]
        exact hvision
      tone := by
        rw [hm.other _ (by decide)]
        exact htone }

theorem exists_color (tone : String) {d : Document} (h : semanticProblems sc path d = []) :
    ∃ d', part semantic (.text tone) d = .ok d' ∧
      (semanticProblems sc path d' = [] ↔ Fits sc colorSteps tone d) ∧
      (KeepsRamp tone d → Fits sc colorSteps tone d) := by
  cases d with
  | map ms =>
    obtain ⟨name, length, hn, hlength, hon⟩ := semanticProblems_map.1 h
    have htone := hon.tone
    rw [blockProblems_eq] at htone
    cases ho : overlay? tone (.map ms) with
    | none =>
      exact ⟨.map ms, part_of_none htone ho, iff_of_true h (fits_of_none ho),
        fun _ => fits_of_none ho⟩
    | some e =>
      obtain ⟨k, he⟩ := problems_of_overlay? htone ho
      cases e with
      | map es =>
        obtain ⟨found, hfound, hstep, hpass⟩ := variantProblems_map.1 he
        replace hfound : sc.rampLength? ((es.lookup (.text "ramp")).getD name) = some found := by
          rw [entryLength?] at hfound
          cases hl : es.lookup (.text "ramp") with
          | none =>
            rw [hl] at hfound
            exact hlength.trans hfound
          | some ramp =>
            rw [hl] at hfound
            exact hfound
        obtain ⟨_, hoverlay⟩ := exists_overlay es ["ramp", "defaultStep"] ms
        obtain ⟨_, hown, _⟩ := exists_elementsOf hon.overrides
        obtain ⟨_, hadded, _⟩ := exists_elementsOf hpass
        have hsemantic := semantic_eq hoverlay hown rfl hadded
        refine ⟨_, part_ok.2 (.inr ⟨_, ms, ho ▸ entry?_eq htone, rfl, hsemantic⟩), ?_⟩
        obtain ⟨ms', own, _, added, heq, hown, hget, hadded, hm⟩ := merged_of_semantic hsemantic
        obtain rfl := Except.ok.inj hget
        rw [heq]
        have hiff := color_merged hon ho hown hadded hm hn hfound hstep hpass
        refine fits_iff ho hn hlength hfound hiff ?_
        rintro rfl
        obtain ⟨_, hresulting, hl⟩ := exists_resulting ho hstep hon.default
        obtain rfl := hl rfl
        refine List.forall_mem_cons.2 ⟨isBelow_of_isStep hresulting, ?_⟩
        exact (semanticOn_steps hon).1 ⟨hon.overrides, hon.interactions, hon.vision, hon.tone⟩
      | _ => cases he
  | _ => cases h

/-! ## specifications -/

theorem isChosen_text (hvoid : tone ≠ "") (hdefault : tone ≠ "default") :
    isChosen (.text tone) = true := by
  rw [isChosen, Bool.and_eq_true, Bool.not_eq_true']
  refine ⟨bne_iff_ne.2 hvoid, ?_⟩
  show (Atom.text tone == .text "default") = false
  rw [Atom.text_beq]
  exact beq_false_of_ne hdefault

theorem exists_toned (hc : isChosen (.text tone) = true) (h : memberProblems ms = []) :
    ∃ ms', apply (.map ms) (.text tone) = .ok (.map ms') ∧ Toned (.text tone) ms ms' := by
  obtain ⟨hwhole, hparts⟩ := memberProblems_eq_nil_iff.1 h
  have hshape : optional isOptionalMap (ms.lookup (.text "themes")) = true := by
    have hmap := hwhole.themes
    cases hl : ms.lookup (.text "themes") with
    | none => rfl
    | some d =>
      rw [hl] at hmap
      exact Bool.or_eq_true_iff.2 (.inr hmap)
  obtain ⟨_, hthemes⟩ := exists_replaced (f := part theme (.text tone)) hshape fun e he =>
    (exists_theme tone (hparts.themes e he)).imp fun _ h => h.1
  obtain ⟨_, htexts⟩ := exists_replaced (f := part semantic (.text tone)) hwhole.foreground
    fun e he => (exists_color tone (hparts.foreground e he)).imp fun _ h => h.1
  obtain ⟨_, hcolors⟩ := exists_replaced (f := part semantic (.text tone)) hwhole.nonText
    fun e he => (exists_color tone (hparts.nonText e he)).imp fun _ h => h.1
  obtain ⟨ms', happly, ht, _⟩ := exists_apply hc hthemes htexts hcolors
  exact ⟨ms', happly, ht⟩

/-- the parts that a tone makes pass exactly if they fit -/
theorem parts_iff {ms' : Entries Atom Document} (h : Parts sc (.map ms))
    (ht : Toned (.text tone) ms ms') :
    Parts sc (.map ms') ↔
      (∀ e ∈ (Document.map ms).block "themes", Fits sc themeSteps tone e.2) ∧
        (∀ e ∈ (Document.map ms).block "foreground", Fits sc colorSteps tone e.2) ∧
        ∀ e ∈ (Document.map ms).block "nonText", Fits sc colorSteps tone e.2 := by
  have hthemes := ht.themes.made.forall_iff
    (P := fun e => themeProblems sc s!"themes.{e.1.shown}" e.2 = [])
    (Q := fun e => Fits sc themeSteps tone e.2) fun e he =>
      (exists_theme tone (h.themes e he)).imp fun _ h => ⟨h.1, h.2.1⟩
  have htexts := ht.foreground.made.forall_iff
    (P := fun e => semanticProblems sc s!"foreground.{e.1.shown}" e.2 = [])
    (Q := fun e => Fits sc colorSteps tone e.2) fun e he =>
      (exists_color tone (h.foreground e he)).imp fun _ h => ⟨h.1, h.2.1⟩
  have hcolors := ht.nonText.made.forall_iff
    (P := fun e => semanticProblems sc s!"nonText.{e.1.shown}" e.2 = [])
    (Q := fun e => Fits sc colorSteps tone e.2) fun e he =>
      (exists_color tone (h.nonText e he)).imp fun _ h => ⟨h.1, h.2.1⟩
  constructor
  · exact fun h => ⟨hthemes.1 h.themes, htexts.1 h.foreground, hcolors.1 h.nonText⟩
  · exact fun ⟨h₁, h₂, h₃⟩ => ⟨hthemes.2 h₁, htexts.2 h₂, hcolors.2 h₃⟩

/-- A specification that passes the check has a value under each tone. This passes exactly if all
themes and semantic colors that the tone moves to a ramp fit it, and it does where no part is moved
to another ramp. -/
theorem exists_valid_iff {d : Document} (hd : isValid d = true) {tone : String} (hvoid : tone ≠ "")
    (hdefault : tone ≠ "default") :
    ∃ d', Tone.apply d (.text tone) = .ok d' ∧
      (isValid d' = true ↔
        (∀ e ∈ d.block "themes", Fits (scope (membersOf d)) themeSteps tone e.2) ∧
          ∀ s ∈ sections, ∀ e ∈ d.block s.1, Fits (scope (membersOf d)) colorSteps tone e.2) ∧
      ((∀ s ∈ ["themes", "foreground", "nonText"], ∀ e ∈ d.block s, KeepsRamp tone e.2) →
        isValid d' = true) := by
  cases d with
  | map ms =>
    have hproblems := isValid_map.1 hd
    obtain ⟨_, hparts⟩ := memberProblems_eq_nil_iff.1 hproblems
    obtain ⟨ms', happly, ht⟩ := exists_toned (isChosen_text hvoid hdefault) hproblems
    have hiff := isValid_map.trans ((memberProblems_toned ht hproblems).trans (parts_iff hparts ht))
    refine ⟨.map ms', happly, hiff.trans (and_congr_right' ?_), fun hkeeps => hiff.2 ⟨?_, ?_, ?_⟩⟩
    · simp only [sections, List.forall_mem_cons, List.not_mem_nil, false_imp_iff, implies_true,
        and_true]
      rfl
    · intro e he
      obtain ⟨_, _, _, hfits⟩ := exists_theme tone (hparts.themes e he)
      exact hfits (hkeeps "themes" (by decide) e he)
    · intro e he
      obtain ⟨_, _, _, hfits⟩ := exists_color tone (hparts.foreground e he)
      exact hfits (hkeeps "foreground" (by decide) e he)
    · intro e he
      obtain ⟨_, _, _, hfits⟩ := exists_color tone (hparts.nonText e he)
      exact hfits (hkeeps "nonText" (by decide) e he)
  | _ => cases hd

end Tone

/-- a specification with two tones, one of which moves a theme and a color to a shorter ramp -/
def Sample.shaded : Document := .record [
  ("primitives", .record [
    ("gray", .list [.text "#000000", .text "#777777", .text "#ffffff"]),
    ("red", .list [.text "#330000", .text "#ff0000"])]),
  ("themes", .record [("day", .record [("ramp", .text "gray"), ("step", .int 2),
    ("tone", .record [("muted", .record [("ramp", .text "red"), ("step", .int 1)]),
      ("vivid", .record [("step", .int 0)])])])]),
  ("foreground", .record [("ink", .record [("ramp", .text "gray"), ("defaultStep", .int 0),
    ("overrides", .list [.record [("step", .int 2)]]),
    ("tone", .record [("muted", .record [("ramp", .text "red")])])])])]

/-- the color keeps a step that the shorter ramp does not have; the other tone moves nothing -/
theorem Tone.exists_valid_iff_shaded :
    Spec.isValid Sample.shaded = true ∧
      (∃ d', Tone.apply Sample.shaded (.text "muted") = .ok d' ∧ Spec.isValid d' = false) ∧
      ∃ d', Tone.apply Sample.shaded (.text "vivid") = .ok d' ∧ Spec.isValid d' = true := by
  have hvalid : Spec.isValid Sample.shaded = true := by decide
  obtain ⟨muted, hmuted, hiff, _⟩ :=
    exists_valid_iff hvalid (show "muted" ≠ "" by decide) (by decide)
  obtain ⟨vivid, hvivid, _, hkeeps⟩ :=
    exists_valid_iff hvalid (show "vivid" ≠ "" by decide) (by decide)
  refine ⟨hvalid, ⟨muted, hmuted, ?_⟩, vivid, hvivid, hkeeps ?_⟩
  · refine Bool.eq_false_iff.2 fun h => ?_
    have hfits := (hiff.1 h).2 ("foreground", .text) (by decide) _ List.mem_cons_self
    have hbelow := hfits 2 rfl (.int 2) (List.mem_cons_of_mem _ List.mem_cons_self)
    cases hbelow
  · intro s hs e he
    simp only [List.mem_cons, List.not_mem_nil, or_false] at hs
    rcases hs with rfl | rfl | rfl
    · obtain rfl := List.mem_singleton.1 he
      intro entry hentry name hname
      cases hentry
      cases hname
    · obtain rfl := List.mem_singleton.1 he
      intro entry hentry
      cases hentry
    · exact absurd he List.not_mem_nil

end Palette
