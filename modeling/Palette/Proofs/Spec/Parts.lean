import Palette.Proofs.Spec.Names

/-!
# What the check lets pass is read

The check and the compilation go through a value on their own. Part by part, what the check has
nothing to say against is read without a fault, but for the faults that references, colors and
numbers bring. Which faults these are is left to a predicate `F`: nothing else is a fault here.

* `Ramp.Offers`, `Leads`, `Reach`   steps and ramps that are found where the check finds them;
* `Inherits`             a step that an entry for a deficiency takes over from its color;
* `only_membersOf`, `only_mapProblems`  members of maps;
* `overridesProblems_eq_nil`, `interactionProblems_eq_nil`, `variantProblems_eq_nil`,
  `semanticProblems_eq_nil`   what the check has seen of parts that it lets pass;
* `only_overrides`, `only_interaction`, `only_vision`, `only_semantic`, `only_theme`   parts;
* `only_rampsOf`, `only_themesOf`, `only_sectionOf`, `only_stacksOf`, `only_ofMembers`
                         the members of a specification.
-/

namespace Palette
open Outcome

/-! ## references -/

/-- are the steps below a length, as the check counts them, found on a ramp? -/
def Ramp.Offers (F : Fault → Prop) (r : Ramp) (length : Nat) : Prop :=
  ∀ owner step, Spec.isStep length step = true → Only F (r.require owner (some step))

namespace Spec

/-- is there a ramp with a name, with the steps below a length? -/
def Leads (F : Fault → Prop) (ramps : Ramps) (name : Document) (length : Nat) : Prop :=
  ∀ owner, Only F (ramps.require owner (some name)) ∧
    ∀ r, ramps.require owner (some name) = .ok r → r.Offers F length

/-- Are the ramps that the check finds found among some ramps, with their lengths? The ramp that a
name leads to has to be found by its own name too, which is how entries for deficiencies take it
over. -/
structure Reach (F : Fault → Prop) (sc : Scope) (ramps : Ramps) : Prop where
  leads : ∀ {name length}, sc.rampLength? name = some length → Leads F ramps name length
  again : ∀ {name length owner r}, sc.rampLength? name = some length →
    ramps.require owner (some name) = .ok r → Leads F ramps r.name.document length

/-- is a step of the ramp of a color found on the ramp of an entry that names a ramp and no step? -/
def Inherits (F : Fault → Prop) (sc : Scope) (ramps : Ramps) (step entry : Document) : Prop :=
  ∀ own name length, isStep own step = true →
    (membersOf entry).lookup (.text "ramp") = some name →
    (membersOf entry).lookup (.text "defaultStep") = none → sc.rampLength? name = some length →
    ∀ owner r, ramps.require owner (some name) = .ok r →
      ∀ owner, Only F (r.require owner (some step))

variable {F : Fault → Prop} {sc : Scope} {ramps : Ramps} {length : Nat} {path owner : String}

theorem exists_of_isStep {o : Option Document} (h : isStep length (o.getD .null) = true) :
    ∃ d, o = some d ∧ isStep length d = true := by
  cases o with
  | none => cases h
  | some d => exact ⟨d, rfl, h⟩

/-- the step that is read is the one that is written -/
theorem document_of_require {r : Ramp} {step : Document} {c : Choice}
    (hs : isStep length step = true) (h : r.require owner (some step) = .ok c) :
    c.document = step := by
  have hc := ((r.require_eq_ok_iff owner _ c).1 h).1
  cases step with
  | int n =>
    obtain rfl := Option.some.inj hc
    rfl
  | _ => cases hs

/-! ## maps -/

/-- a member of a map is read without a fault -/
theorem only_get {α : Type} {ms : Entries Atom Document} {name : String}
    {f : Option Document → Except Fault α} (h : Only F (f (ms.lookup (.text name)))) :
    Only F (Document.get (.map ms) name >>= f) := h

/-- what the checks of optional maps have in common: a map that is missing or null has no problems,
and what is no map is one -/
def mapOr (path : String) (each : Entries Atom Document → List Problem) :
    Option Document → List Problem
  | none => []
  | some .null => []
  | some (.map ms) => each ms
  | some _ => complain path .notMap

section
variable {each : Entries Atom Document → List Problem} {o : Option Document}
  (h : mapOr path each o = [])
include h

theorem each_of_mapOr (hnil : each [] = []) : each (membersOf (o.getD .null)) = [] := by
  cases o with
  | none => exact hnil
  | some d =>
    cases d with
    | null => exact hnil
    | map ms => exact h
    | _ => cases h

theorem entriesOf_of_mapOr : Document.entriesOf o = .ok (membersOf (o.getD .null)) := by
  cases o with
  | none => rfl
  | some d =>
    cases d with
    | null => rfl
    | map ms => cases ms <;> rfl
    | _ => cases h

/-- the members of an optional map are read without a fault, and have no problems -/
theorem only_membersOf {α : Type} {f : Entries Atom Document → Except Fault α} (hnil : each [] = [])
    (hf : each (membersOf (o.getD .null)) = [] → Only F (f (membersOf (o.getD .null)))) :
    Only F (Document.entriesOf o >>= f) := by
  rw [entriesOf_of_mapOr h]
  exact hf (each_of_mapOr h hnil)

end

/-- so are those of a map that has to be there -/
theorem only_mapProblems {α : Type} {name : String}
    {each : Atom → Document → List Problem} {o : Option Document}
    {f : Entries Atom Document → Except Fault α} (h : mapProblems name each o = [])
    (hf : ∀ ms, o = some (.map ms) → (∀ e ∈ ms, each e.1 e.2 = []) → Only F (f ms)) :
    Only F (Document.entriesOf o >>= f) := by
  obtain ⟨ms, rfl, hall⟩ := mapProblems_eq_nil h
  have hms := hf ms rfl hall
  cases ms <;> exact hms

theorem interactionsProblems_eq (sc : Scope) (length : Nat) (path : String)
    (o : Option Document) :
    interactionsProblems sc length path o = mapOr path (fun ms => ms.flatMap fun e =>
      interactionProblems sc length (path ++ "." ++ e.1.shown) e.2) o := by
  cases o with
  | none => rfl
  | some d => cases d <;> rfl

theorem blockProblems_eq (sc : Scope) (length : Nat) (path : String) (o : Option Document) :
    blockProblems sc length path o = mapOr path (fun ms => ms.flatMap fun e =>
      variantProblems sc length (path ++ "." ++ e.1.shown) e.2) o := by
  cases o with
  | none => rfl
  | some d => cases d <;> rfl

theorem correctionProblems_eq (o : Option Document) :
    correctionProblems o = mapOr "config.cvd" (fun ms =>
      demand (optional isBool (ms.lookup (.text "enabled"))) "config.cvd.enabled" .notBool ++
        ["confusionThresholdDE", "distinguishableThresholdDE"].flatMap fun key =>
          demand (optional isNumber (ms.lookup (.text key))) ("config.cvd." ++ key) .notNumber)
      o := by
  cases o with
  | none => rfl
  | some d => cases d <;> rfl

theorem sectionProblems_eq (sc : Scope) (s : String) (before : List Atom) (o : Option Document) :
    sectionProblems sc s before o = mapOr s (fun ms => ms.flatMap fun t =>
      demand (!before.contains t.1) s!"{s}.{t.1.shown}" .declaredTwice ++
        semanticProblems sc s!"{s}.{t.1.shown}" t.2) o := by
  cases o with
  | none => rfl
  | some d => cases d <;> rfl

/-- the entries of a map, each read by itself -/
theorem only_entries {α : Type} {f : Atom × Document → Except Fault α}
    {ms : Entries Atom Document} (h : ∀ e ∈ ms, Only F (f e)) :
    Only F (ms.mapM fun e => do return (e.1, ← f e)) :=
  Only.mapM fun e he => (h e he).bind fun _ _ => .ok _

/-! ## overrides -/

theorem only_filterOf {ms : Entries Atom Document} {key path : String}
    {ok : String → Bool} {c : String → Complaint} (h : filterProblems ms key path ok c = []) :
    Only F (Override.filterOf (ms.lookup (.text key))) := by
  rw [filterProblems] at h
  cases hl : ms.lookup (.text key) with
  | none => exact .ok none
  | some d =>
    rw [hl] at h
    cases d with
    | text s => exact .ok _
    | list ds => exact .ok _
    | _ => cases h

theorem only_override {sc : Scope} {length : Nat} {path : String} {d : Document}
    (h : overrideProblems sc length path d = []) : Only F (Override.ofDocument d) := by
  cases d with
  | map ms =>
    simp only [overrideProblems, List.append_eq_nil_iff] at h
    obtain ⟨⟨⟨hstep, hbg⟩, hsize⟩, hstack⟩ := h
    cases hl : ms.lookup (.text "step") with
    | none =>
      rw [hl] at hstep
      cases demand_eq_nil.1 hstep
    | some step =>
      have hneed : (Document.map ms).need "step" = .ok step := by rw [Document.need, hl]
      rw [Override.ofDocument, hneed]
      exact (only_filterOf hbg).bind fun _ _ => (only_filterOf hsize).bind fun _ _ =>
        (only_filterOf hstack).bind fun _ _ => .ok _
  | _ => cases h

/-- the step of an override that passes the check is one -/
theorem isStep_of_override {d : Document} {o : Override Document Document}
    (h : overrideProblems sc length path d = []) (ho : o.Read d) :
    isStep length o.step = true := by
  cases d with
  | map ms =>
    simp only [overrideProblems, List.append_eq_nil_iff] at h
    obtain ⟨step, hl, hstep⟩ := exists_of_isStep (demand_eq_nil.1 h.1.1.1)
    have hneed := ho.step
    rw [Document.need, hl] at hneed
    rw [← Except.ok.inj hneed]
    exact hstep
  | _ => cases h

theorem overridesProblems_eq_nil {o : Option Document}
    (h : overridesProblems sc length path o = []) : ∃ items, Document.elementsOf o = .ok items ∧
      ∀ e ∈ items.zipIdx, overrideProblems sc length s!"{path}[{e.2}]" e.1 = [] := by
  cases o with
  | none => exact ⟨[], rfl, fun e he => absurd he List.not_mem_nil⟩
  | some d =>
    cases d with
    | null => exact ⟨[], rfl, fun e he => absurd he List.not_mem_nil⟩
    | list items => exact ⟨items, by cases items <;> rfl, List.flatMap_eq_nil_iff.1 h⟩
    | _ => cases h

theorem only_overrides {r : Ramp} {o : Option Document} (hr : r.Offers F length)
    (h : overridesProblems sc length path o = []) : Only F (Override.listOf r owner o) := by
  obtain ⟨items, hitems, hall⟩ := overridesProblems_eq_nil h
  rw [Override.listOf, hitems]
  refine Only.mapM fun e he => (only_override (hall e he)).bind fun o ho => ?_
  have hstep := isStep_of_override (hall e he) (Override.read_of_ofDocument ho)
  exact (hr _ _ hstep).bind fun _ _ => .ok _

/-! ## semantic colors -/

theorem interactionProblems_eq_nil {d : Document} (h : interactionProblems sc length path d = []) :
    ∃ ms step, d = .map ms ∧ ms.lookup (.text "step") = some step ∧ isStep length step = true ∧
      overridesProblems sc length (path ++ ".overrides") (ms.lookup (.text "overrides")) = [] := by
  cases d with
  | map ms =>
    obtain ⟨hstep, hoverrides⟩ := List.append_eq_nil_iff.1 h
    obtain ⟨step, hl, hstep⟩ := exists_of_isStep (demand_eq_nil.1 hstep)
    exact ⟨ms, step, rfl, hl, hstep, hoverrides⟩
  | _ => cases h

/-- an entry that passes the check is checked on the ramp that it names, or on that of its color -/
theorem variantProblems_eq_nil {d : Document} (h : variantProblems sc length path d = []) :
    ∃ ms found, d = .map ms ∧
      (∀ step, ms.lookup (.text "defaultStep") = some step → isStep found step = true) ∧
      overridesProblems sc found (path ++ ".overrides") (ms.lookup (.text "overrides")) = [] ∧
      (ms.lookup (.text "ramp") = none ∧ found = length ∨
        ∃ name, ms.lookup (.text "ramp") = some name ∧ sc.rampLength? name = some found) := by
  cases d with
  | map ms =>
    rw [variantProblems] at h
    dsimp only at h
    split at h
    · next hl =>
      obtain ⟨hstep, hoverrides⟩ := List.append_eq_nil_iff.1 h
      refine ⟨ms, length, rfl, fun step hs => ?_, hoverrides, .inl ⟨hl, rfl⟩⟩
      rw [hs] at hstep
      exact demand_eq_nil.1 hstep
    · next name hl =>
      split at h
      · next found hfound =>
        obtain ⟨hstep, hoverrides⟩ := List.append_eq_nil_iff.1 h
        refine ⟨ms, found, rfl, fun step hs => ?_, hoverrides, .inr ⟨name, hl, hfound⟩⟩
        rw [hs] at hstep
        exact demand_eq_nil.1 hstep
      · cases h
  | _ => cases h

theorem semanticProblems_eq_nil {d : Document} (h : semanticProblems sc path d = []) :
    ∃ ms name length step, d = .map ms ∧ ms.lookup (.text "ramp") = some name ∧
      sc.rampLength? name = some length ∧ ms.lookup (.text "defaultStep") = some step ∧
      isStep length step = true ∧
      overridesProblems sc length (path ++ ".overrides") (ms.lookup (.text "overrides")) = [] ∧
      mapOr (path ++ ".interactions") (fun es => es.flatMap fun e =>
        interactionProblems sc length (path ++ ".interactions" ++ "." ++ e.1.shown) e.2)
        (ms.lookup (.text "interactions")) = [] ∧
      mapOr (path ++ ".vision") (fun es => es.flatMap fun e =>
        variantProblems sc length (path ++ ".vision" ++ "." ++ e.1.shown) e.2)
        (ms.lookup (.text "vision")) = [] := by
  cases d with
  | map ms =>
    rw [semanticProblems] at h
    split at h
    · next n hn =>
      split at h
      · cases h
      · next length hlength =>
        simp only [List.append_eq_nil_iff, interactionsProblems_eq, blockProblems_eq] at h
        obtain ⟨⟨⟨⟨⟨hstep, _⟩, hoverrides⟩, hstates⟩, hvision⟩, _⟩ := h
        obtain ⟨step, hl, hstep⟩ := exists_of_isStep (demand_eq_nil.1 hstep)
        exact ⟨ms, _, length, step, rfl, hn, hlength, hl, hstep, hoverrides, hstates, hvision⟩
    · cases h
  | _ => cases h

theorem only_interaction {r : Ramp} {d : Document} (hr : r.Offers F length)
    (h : interactionProblems sc length path d = []) :
    Only F (Interaction.ofDocument r owner d) := by
  obtain ⟨ms, step, rfl, hl, hstep, hoverrides⟩ := interactionProblems_eq_nil h
  refine only_get ?_
  rw [hl]
  refine (hr _ _ hstep).bind fun _ _ => only_get ?_
  exact (only_overrides hr hoverrides).bind fun _ _ => .ok _

theorem only_vision {r : Ramp} {default : Choice} {d : Document} (hr : Reach F sc ramps)
    (hself : Leads F ramps r.name.document length)
    (hdefault : isStep length default.document = true)
    (hd : Inherits F sc ramps default.document d) (h : variantProblems sc length path d = []) :
    Only F (VisionEntry.ofDocument ramps r default owner d) := by
  obtain ⟨ms, found, rfl, hsteps, hoverrides, hramp⟩ := variantProblems_eq_nil h
  -- the ramp is that of the color or one that the entry names; only in the second case may the
  -- step that is taken over be missing from it
  obtain ⟨name, hname, hleads, hinherits⟩ : ∃ name,
      (ms.lookup (.text "ramp")).getD r.name.document = name ∧ Leads F ramps name found ∧
      (ms.lookup (.text "defaultStep") = none → ∀ r', ramps.require owner (some name) = .ok r' →
        Only F (r'.require owner (some default.document))) := by
    rcases hramp with ⟨hl, rfl⟩ | ⟨name, hl, hfound⟩
    · refine ⟨_, rfl, ?_⟩
      rw [hl]
      exact ⟨hself, fun _ r' hr' => (hself owner).2 r' hr' _ _ hdefault⟩
    · refine ⟨name, ?_, hr.leads hfound, fun hn r' hr' => ?_⟩
      · rw [hl]
        rfl
      · exact hd length name found hdefault hl hn hfound owner r' hr' owner
  refine only_get ?_
  rw [hname]
  refine (hleads owner).1.bind fun r' hr' => only_get ?_
  have hoffers := (hleads owner).2 r' hr'
  refine Only.bind ?_ fun _ _ => only_get ?_
  · cases hl : ms.lookup (.text "defaultStep") with
    | none => exact hinherits hl r' hr'
    | some step => exact hoffers _ _ (hsteps step hl)
  · exact (only_overrides hoffers hoverrides).bind fun _ _ => .ok _

theorem only_semantic {target : Target} {name : Atom} {d : Document} (hr : Reach F sc ramps)
    (hd : ∀ e ∈ d.block "vision",
      Inherits F sc ramps (((membersOf d).lookup (.text "defaultStep")).getD .null) e.2)
    (h : semanticProblems sc path d = []) : Only F (Semantic.ofDocument ramps target name d) := by
  obtain ⟨ms, n, length, step, rfl, hn, hlength, hl, hstep, hoverrides, hstates, hvision⟩ :=
    semanticProblems_eq_nil h
  refine only_get ?_
  rw [hn]
  refine (hr.leads hlength _).1.bind fun r hfound => only_get ?_
  have hoffers := (hr.leads hlength _).2 r hfound
  rw [hl]
  refine (hoffers _ _ hstep).bind fun default hdefault => only_get ?_
  have hdocument := document_of_require hstep hdefault
  refine only_membersOf hstates rfl fun hstates => ?_
  refine Only.bind (only_entries fun e he => ?_) fun _ _ => only_get ?_
  · exact only_interaction hoffers (List.flatMap_eq_nil_iff.1 hstates e he)
  refine only_membersOf hvision rfl fun hvision => ?_
  refine Only.bind (only_entries fun e he => ?_) fun _ _ => only_get (only_get ?_)
  · have hinherits := hd e he
    rw [membersOf, hl, Option.getD_some, ← hdocument] at hinherits
    rw [← hdocument] at hstep
    exact only_vision hr (hr.again hlength hfound) hstep hinherits
      (List.flatMap_eq_nil_iff.1 hvision e he)
  · exact (only_overrides hoffers hoverrides).bind fun _ _ => .ok _

theorem exists_semanticProblems {s : String} {before : List Atom} {o : Option Document}
    (h : sectionProblems sc s before o = []) :
    ∀ t ∈ membersOf (o.getD .null), ∃ path, semanticProblems sc path t.2 = [] := by
  rw [sectionProblems_eq] at h
  intro t ht
  have hall := List.flatMap_eq_nil_iff.1 (each_of_mapOr h rfl) t ht
  exact ⟨_, (List.append_eq_nil_iff.1 hall).2⟩

theorem only_sectionOf {s : String} {before : List Atom} {target : Target} {o : Option Document}
    (hr : Reach F sc ramps) (hd : ∀ t ∈ membersOf (o.getD .null), ∀ e ∈ t.2.block "vision",
      Inherits F sc ramps (((membersOf t.2).lookup (.text "defaultStep")).getD .null) e.2)
    (h : sectionProblems sc s before o = []) : Only F (sectionOf ramps target o) := by
  have hall := exists_semanticProblems h
  rw [sectionProblems_eq] at h
  refine only_membersOf h rfl fun _ => only_entries fun t ht => ?_
  obtain ⟨path, hproblems⟩ := hall t ht
  exact only_semantic hr (hd t ht) hproblems

/-! ## themes and stacks -/

theorem only_theme {layers : Stacks} {name : Atom} {d : Document} (hr : Reach F sc ramps)
    (h : themeProblems sc path d = []) : Only F (Theme.ofDocument name d ramps layers) := by
  cases d with
  | map ms =>
    have texts {o : Option Document} (h : optional isTexts o = true) :
        Only F (Document.elementsOf o) := by
      cases o with
      | none => exact .ok []
      | some d =>
        cases d with
        | list items => cases items <;> exact .ok _
        | _ => cases h
    simp only [themeProblems, namesProblems, List.flatMap_cons, List.append_eq_nil_iff] at h
    obtain ⟨⟨hramp, hfallback, haliases, _⟩, _⟩ := h
    split at hramp
    · next n hn =>
      split at hramp
      · cases hramp
      · next length hlength =>
        obtain ⟨step, hl, hstep⟩ := exists_of_isStep (demand_eq_nil.1 hramp)
        refine only_get ?_
        rw [hn]
        refine (hr.leads hlength _).1.bind fun r hfound => only_get ?_
        rw [hl]
        refine ((hr.leads hlength _).2 r hfound _ _ hstep).bind fun _ _ => only_get ?_
        refine (texts (demand_eq_nil.1 hfallback)).bind fun _ _ => only_get ?_
        exact (texts (demand_eq_nil.1 haliases)).bind fun _ _ => .ok _
    · cases hramp
  | _ => cases h

theorem only_themesOf {layers : Stacks} {o : Option Document} (hr : Reach F sc ramps)
    (h : mapProblems "themes" (fun n d => themeProblems sc s!"themes.{n.shown}" d) o = []) :
    Only F (themesOf ramps layers o) :=
  only_mapProblems h fun _ _ h => only_entries fun e he => only_theme hr (h e he)

/-- the offset of the base level is all that may be wrong with stacks -/
theorem only_stacksOf {o : Option Document}
    (hroot : ∀ n, (membersOf (o.getD .null)).lookup Stacks.base = some (.int n) → n ≠ 0 →
      F (.rootOffset (.int n)))
    (h : stacksProblems o = []) : Only F (Stacks.ofDocument o) := by
  cases o with
  | none => exact .ok _
  | some d =>
    cases d with
    | null => exact .ok _
    | map ms =>
      have hoffsets : ∀ e ∈ ms, ∃ n, e.2 = .int n := by
        intro e he
        have hint := demand_eq_nil.1 (List.flatMap_eq_nil_iff.1 h e he)
        cases hd : e.2 with
        | int n => exact ⟨n, rfl⟩
        | _ =>
          rw [hd] at hint
          cases hint
      rw [Stacks.ofDocument]
      split
      · show Only _ (Stacks.ofMembers ms)
        rw [Stacks.ofMembers]
        dsimp only
        split
        · next hmoved =>
          cases hl : ms.lookup Stacks.base with
          | none =>
            rw [hl] at hmoved
            cases hmoved
          | some d =>
            obtain ⟨k, hk, _⟩ := Entries.exists_of_lookup hl
            obtain ⟨n, rfl⟩ := hoffsets _ hk
            refine .error (hroot n hl ?_)
            rintro rfl
            rw [hl] at hmoved
            cases hmoved
        · refine Only.bind (only_entries fun e he => ?_) fun _ _ => .ok _
          obtain ⟨n, hn⟩ := hoffsets e (List.mem_filter.1 he).1
          rw [hn]
          exact .ok n
      · exact .ok _
    | _ => cases h

/-! ## the configuration and ramps -/

/-- the members of the options for deficiencies that have to be numbers -/
def thresholds : List String := ["confusionThresholdDE", "distinguishableThresholdDE"]

/-- the numbers are all that may be wrong with the configuration -/
theorem only_ofMembers {ms : Entries Atom Document} {themes : List Atom}
    (hnumber : ∀ key ∈ thresholds, ∀ d,
      ((Document.map ms).block "cvd").lookup (.text key) = some d → isNumber d = true →
        Only F d.number)
    (h : configProblems sc (.map ms) = []) : Only F (Config.ofMembers ms themes) := by
  have hcvd := (List.append_eq_nil_iff.1 h).2
  rw [correctionProblems_eq] at hcvd
  refine only_membersOf hcvd rfl fun h => ?_
  simp only [List.flatMap_cons, List.append_eq_nil_iff] at h
  obtain ⟨_, hconfusion, hdistinguishable, _⟩ := h
  have number {key : String} {usual : Float} (hk : key ∈ thresholds)
      (h : optional isNumber (((Document.map ms).block "cvd").lookup (.text key)) = true) :
      Only F ((((Document.map ms).block "cvd").lookup (.text key)).getD (.float usual)).number := by
    cases hl : ((Document.map ms).block "cvd").lookup (.text key) with
    | none => exact .ok usual
    | some d =>
      rw [hl] at h
      exact hnumber key hk d hl h
  refine Only.bind (Only.bind ?_ fun _ _ => Only.bind ?_ fun _ _ => .ok _) fun _ _ => .ok _
  · exact number List.mem_cons_self (demand_eq_nil.1 hconfusion)
  · exact number (List.mem_cons_of_mem _ List.mem_cons_self) (demand_eq_nil.1 hdistinguishable)

/-- a configuration that is there passes the check of configurations -/
theorem mapOr_config {ms : Entries Atom Document} (h : memberProblems ms = []) :
    mapOr "config" (fun config => configProblems (scope ms) (.map config))
      (ms.lookup (.text "config")) = [] := by
  have hconfig := (List.append_eq_nil_iff.1 h).2
  cases hl : ms.lookup (.text "config") with
  | none => rfl
  | some d =>
    rw [hl] at hconfig
    cases d with
    | null => rfl
    | map config => exact hconfig
    | _ => cases hconfig

/-- the colors of the ramps of a specification -/
def colors (d : Document) : List Document :=
  (d.block "primitives").flatMap fun e =>
    match e.2 with
    | .list cs => cs
    | _ => []

theorem exists_colorProblems {name : Atom} {cs : List Document}
    (h : rampProblems name (.list cs) = []) {c : Document} (hc : c ∈ cs) :
    ∃ path, colorProblems path c = [] := by
  cases cs with
  | nil => exact absurd hc List.not_mem_nil
  | cons s ss =>
    obtain ⟨i, hi⟩ := List.mem_iff_getElem?.1 hc
    exact ⟨_, List.flatMap_eq_nil_iff.1 h (c, i) (List.mem_zipIdx_iff_getElem?.2 hi)⟩

/-- the colors are all that may be wrong with ramps -/
theorem only_rampsOf {ms : Entries Atom Document}
    (hcolor : ∀ c ∈ colors (.map ms), ∀ path, colorProblems path c = [] → Only F (Hex.ofValue c))
    (h : mapProblems "primitives" rampProblems (ms.lookup (.text "primitives")) = []) :
    Only F (rampsOf (ms.lookup (.text "primitives"))) := by
  refine only_mapProblems h fun ramps hl h => only_entries fun e he => ?_
  have hblock : (Document.map ms).block "primitives" = ramps := by
    show membersOf ((ms.lookup (.text "primitives")).getD .null) = ramps
    rw [hl]
    rfl
  have hramp := h e he
  cases hd : e.2 with
  | list cs =>
    rw [hd] at hramp
    show Only F (cs.mapM Hex.ofValue >>= fun colors => pure (⟨e.1, colors⟩ : Ramp))
    refine Only.bind (Only.mapM fun c hc => ?_) fun _ _ => .ok _
    obtain ⟨path, hp⟩ := exists_colorProblems hramp hc
    refine hcolor c (List.mem_flatMap.2 ⟨e, hblock ▸ he, ?_⟩) path hp
    rw [hd]
    exact hc
  | _ =>
    rw [hd] at hramp
    cases hramp

end Spec
end Palette
