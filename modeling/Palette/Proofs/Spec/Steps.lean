import Palette.Proofs.Spec.Parts

/-!
# Steps on a ramp of another length

The check measures the steps of a part against the length of a ramp. What passes on one ramp passes
on another one exactly if its steps are below the length of this one too: nothing else in a part is
measured, and no step is below zero.

* `isBelow`, `isStep_iff_isBelow`   steps below a length;
* `overridesSteps`, `interactionSteps`, `variantSteps`, `themeToneSteps`   the steps of a part that
                        are measured against the ramp of its owner; an entry that names a ramp of
                        its own has none;
* `overridesProblems_iff`, `interactionProblems_iff`, `variantProblems_iff`,
  `themeToneProblems_iff`   what passes is measured again, and `remeasured` for maps of such parts;
* `SemanticOn`, `semanticProblems_map`   the check of a semantic color, member by member;
* `ThemeOn`, `themeProblems_map`         and that of a theme.
-/

namespace Palette.Spec
open Outcome

/-- is a step below a length? -/
def isBelow (length : Nat) : Document → Bool
  | .int n => n < length
  | _ => false

theorem isBelow_of_isStep {length : Nat} {d : Document} (h : isStep length d = true) :
    isBelow length d = true := by
  cases d with
  | int n => exact (Bool.and_eq_true_iff.1 h).2
  | _ => cases h

/-- a step is not below zero -/
theorem isStep_iff_isBelow {length length' : Nat} {d : Document} (h : isStep length d = true) :
    isStep length' d = true ↔ isBelow length' d = true := by
  cases d with
  | int n =>
    show (decide (0 ≤ n) && decide (n < length')) = true ↔ _
    rw [(Bool.and_eq_true_iff.1 h).1, Bool.true_and]
    rfl
  | _ => cases h

variable {sc : Scope} {length length' : Nat} {path path' : String}

/-! ## overrides -/

def stepOf (d : Document) : Document := ((membersOf d).lookup (.text "step")).getD .null

/-- the steps of a list of overrides -/
def overridesSteps : Option Document → List Document
  | some (.list items) => items.map stepOf
  | _ => []

theorem filterProblems_path {ms : Entries Atom Document} {key : String} {ok : String → Bool}
    {c : String → Complaint} (path' : String) (h : filterProblems ms key path ok c = []) :
    filterProblems ms key path' ok c = [] := by
  rw [filterProblems] at h ⊢
  split
  · rfl
  · next d hd =>
    rw [hd] at h
    dsimp only at h
    split
    · next hn =>
      rw [hn] at h
      cases h
    · next names hn =>
      rw [hn] at h
      refine List.flatMap_eq_nil_iff.2 fun n hn => demand_eq_nil.2 ?_
      exact demand_eq_nil.1 (List.flatMap_eq_nil_iff.1 h n hn)

theorem overrideProblems_iff {d : Document} (h : overrideProblems sc length path d = []) :
    overrideProblems sc length' path' d = [] ↔ isBelow length' (stepOf d) = true := by
  cases d with
  | map ms =>
    simp only [overrideProblems, List.append_eq_nil_iff] at h ⊢
    obtain ⟨⟨⟨hstep, hbg⟩, hsize⟩, hstack⟩ := h
    rw [demand_eq_nil] at hstep ⊢
    rw [isStep_iff_isBelow hstep]
    constructor
    · exact fun h => h.1.1.1
    · exact fun h => ⟨⟨⟨h, filterProblems_path _ hbg⟩, filterProblems_path _ hsize⟩,
        filterProblems_path _ hstack⟩
  | _ => cases h

/-- an override passes wherever it stands -/
theorem overrideProblems_path {d : Document} (path' : String)
    (h : overrideProblems sc length path d = []) : overrideProblems sc length path' d = [] :=
  (overrideProblems_iff h).2 ((overrideProblems_iff h).1 h)

theorem overridesProblems_list {items : List Document} :
    overridesProblems sc length path (some (.list items)) = [] ↔
      ∀ d ∈ items, overrideProblems sc length path d = [] := by
  show (items.zipIdx.flatMap fun e => overrideProblems sc length s!"{path}[{e.2}]" e.1) = [] ↔ _
  rw [List.flatMap_eq_nil_iff]
  constructor
  · intro h d hd
    rw [← List.zipIdx_map_fst 0 items] at hd
    obtain ⟨e, he, rfl⟩ := List.mem_map.1 hd
    exact overrideProblems_path path (h e he)
  · exact fun h e he => overrideProblems_path _ (h e.1 (List.fst_mem_of_mem_zipIdx he))

theorem overridesProblems_iff {o : Option Document}
    (h : overridesProblems sc length path o = []) :
    overridesProblems sc length' path' o = [] ↔
      ∀ s ∈ overridesSteps o, isBelow length' s = true := by
  cases o with
  | none => exact iff_of_true rfl fun s hs => absurd hs List.not_mem_nil
  | some d =>
    cases d with
    | null => exact iff_of_true rfl fun s hs => absurd hs List.not_mem_nil
    | list items =>
      rw [overridesProblems_list] at h ⊢
      show _ ↔ ∀ s ∈ items.map stepOf, _
      rw [List.forall_mem_map]
      exact forall₂_congr fun d hd => overrideProblems_iff (h d hd)
    | _ => cases h

theorem overridesProblems_path {o : Option Document} (path' : String)
    (h : overridesProblems sc length path o = []) : overridesProblems sc length path' o = [] :=
  (overridesProblems_iff h).2 ((overridesProblems_iff h).1 h)

/-- a list of overrides that passes is read, with the same steps -/
theorem exists_elementsOf {o : Option Document} (h : overridesProblems sc length path o = []) :
    ∃ items, Document.elementsOf o = .ok items ∧ overridesSteps o = items.map stepOf ∧
      overridesProblems sc length path (some (.list items)) = [] := by
  cases o with
  | none => exact ⟨[], rfl, rfl, rfl⟩
  | some d =>
    cases d with
    | null => exact ⟨[], rfl, rfl, rfl⟩
    | list items => exact ⟨items, by cases items <;> rfl, rfl, h⟩
    | _ => cases h

/-- overrides that pass on the one ramp, followed by some that pass on the other -/
theorem overridesProblems_append {o o' : Option Document} {items added : List Document}
    (h : overridesProblems sc length path o = []) (hitems : Document.elementsOf o = .ok items)
    {path'' : String} (h' : overridesProblems sc length' path' o' = [])
    (hadded : Document.elementsOf o' = .ok added) :
    overridesProblems sc length' path'' (some (.list (items ++ added))) = [] ↔
      ∀ s ∈ overridesSteps o, isBelow length' s = true := by
  obtain ⟨_, helements, hsteps, hlist⟩ := exists_elementsOf h
  obtain rfl := Except.ok.inj (hitems.symm.trans helements)
  obtain ⟨_, helements', _, hlist'⟩ := exists_elementsOf h'
  obtain rfl := Except.ok.inj (hadded.symm.trans helements')
  rw [overridesProblems_list, List.forall_mem_append, ← overridesProblems_list,
    ← overridesProblems_list, and_iff_left (overridesProblems_path _ hlist'),
    overridesProblems_iff hlist, hsteps]
  rfl

/-! ## states and entries -/

/-- the steps of a state -/
def interactionSteps (d : Document) : List Document :=
  stepOf d :: overridesSteps ((membersOf d).lookup (.text "overrides"))

/-- the steps of an entry that are measured against the ramp of its color: all of them, unless it
names a ramp -/
def variantSteps (d : Document) : List Document :=
  match (membersOf d).lookup (.text "ramp") with
  | none => ((membersOf d).lookup (.text "defaultStep")).toList ++
      overridesSteps ((membersOf d).lookup (.text "overrides"))
  | some _ => []

/-- the step of a tone of a theme that is measured against the ramp of the theme -/
def themeToneSteps (d : Document) : List Document :=
  match (membersOf d).lookup (.text "ramp") with
  | none => ((membersOf d).lookup (.text "step")).toList
  | some _ => []

theorem interactionProblems_iff {d : Document} (h : interactionProblems sc length path d = []) :
    interactionProblems sc length' path' d = [] ↔
      ∀ s ∈ interactionSteps d, isBelow length' s = true := by
  cases d with
  | map ms =>
    rw [interactionProblems, List.append_eq_nil_iff] at h ⊢
    rw [demand_eq_nil] at h ⊢
    rw [isStep_iff_isBelow h.1, overridesProblems_iff h.2, interactionSteps, List.forall_mem_cons]
    rfl
  | _ => cases h

/-- the length of the ramp that an entry is measured against -/
def entryLength? (sc : Scope) (length : Nat) (ms : Entries Atom Document) : Option Nat :=
  match ms.lookup (.text "ramp") with
  | none => some length
  | some name => sc.rampLength? name

theorem variantProblems_map {ms : Entries Atom Document} :
    variantProblems sc length path (.map ms) = [] ↔
      ∃ found, entryLength? sc length ms = some found ∧
      (∀ step ∈ ms.lookup (.text "defaultStep"), isStep found step = true) ∧
      overridesProblems sc found (path ++ ".overrides") (ms.lookup (.text "overrides")) = [] := by
  constructor
  · intro h
    obtain ⟨ms', found, heq, hstep, hoverrides, hramp⟩ := variantProblems_eq_nil h
    obtain rfl := Document.map.inj heq
    refine ⟨found, ?_, hstep, hoverrides⟩
    rcases hramp with ⟨hl, rfl⟩ | ⟨name, hl, hfound⟩
    · rw [entryLength?, hl]
    · rw [entryLength?, hl]
      exact hfound
  · rintro ⟨found, hfound, hstep, hoverrides⟩
    rw [entryLength?] at hfound
    rw [variantProblems]
    dsimp only
    cases hl : ms.lookup (.text "ramp") with
    | none =>
      rw [hl] at hfound
      obtain rfl := Option.some.inj hfound
      refine List.append_eq_nil_iff.2 ⟨?_, hoverrides⟩
      split
      · next step hs => exact demand_eq_nil.2 (hstep step hs)
      · rfl
    | some name =>
      rw [hl] at hfound
      dsimp only at hfound ⊢
      rw [hfound]
      refine List.append_eq_nil_iff.2 ⟨?_, hoverrides⟩
      split
      · next step hs => exact demand_eq_nil.2 (hstep step hs)
      · rfl

theorem variantProblems_iff {d : Document} (h : variantProblems sc length path d = []) :
    variantProblems sc length' path' d = [] ↔
      ∀ s ∈ variantSteps d, isBelow length' s = true := by
  cases d with
  | map ms =>
    have hms : membersOf (.map ms) = ms := rfl
    obtain ⟨found, hfound, hstep, hoverrides⟩ := variantProblems_map.1 h
    rw [variantProblems_map, variantSteps, hms]
    rw [entryLength?] at hfound
    cases hl : ms.lookup (.text "ramp") with
    | none =>
      rw [hl] at hfound
      obtain rfl := Option.some.inj hfound
      simp only [entryLength?, hl, Option.some.injEq, exists_eq_left', List.forall_mem_append,
        Option.mem_toList]
      rw [overridesProblems_iff hoverrides]
      exact and_congr_left' (forall₂_congr fun s hs => isStep_iff_isBelow (hstep s hs))
    | some name =>
      rw [hl] at hfound
      refine iff_of_true ⟨found, ?_, hstep, overridesProblems_path _ hoverrides⟩
        fun s hs => absurd hs List.not_mem_nil
      rw [entryLength?, hl]
      exact hfound
  | _ => cases h

theorem namesProblems_eq_nil_iff {ms : Entries Atom Document} :
    namesProblems ms path = [] ↔
      ∀ key ∈ ["fallback", "aliases"], optional isTexts (ms.lookup (.text key)) = true :=
  List.flatMap_eq_nil_iff.trans (forall₂_congr fun _ _ => demand_eq_nil)

theorem themeToneProblems_map {ramp : Document} {ms : Entries Atom Document} :
    themeToneProblems sc ramp path (.map ms) = [] ↔
      (∃ found, sc.rampLength? ((ms.lookup (.text "ramp")).getD ramp) = some found ∧
        ∀ step ∈ ms.lookup (.text "step"), isStep found step = true) ∧
      ∀ key ∈ ["fallback", "aliases"], optional isTexts (ms.lookup (.text key)) = true := by
  rw [themeToneProblems, List.append_eq_nil_iff, namesProblems_eq_nil_iff]
  refine and_congr_left' ?_
  cases sc.rampLength? ((ms.lookup (.text "ramp")).getD ramp) with
  | none => exact iff_of_false (fun h => nomatch h) fun ⟨_, h, _⟩ => nomatch h
  | some found =>
    simp only [Option.some.injEq, exists_eq_left']
    cases ms.lookup (.text "step") with
    | none => exact iff_of_true rfl fun step h => nomatch h
    | some step => exact demand_eq_nil.trans (by simp)

/-- a tone of a theme that names no ramp is measured against that of the theme -/
theorem themeToneProblems_iff {ramp ramp' d : Document} (h : themeToneProblems sc ramp path d = [])
    (hramp : sc.rampLength? ramp' = some length') :
    themeToneProblems sc ramp' path d = [] ↔ ∀ s ∈ themeToneSteps d, isBelow length' s = true := by
  cases d with
  | map ms =>
    have hms : membersOf (.map ms) = ms := rfl
    rw [themeToneProblems_map] at h ⊢
    obtain ⟨⟨found, hfound, hstep⟩, hnames⟩ := h
    rw [themeToneSteps, hms, and_iff_left hnames]
    cases hl : ms.lookup (.text "ramp") with
    | none =>
      simp only [Option.getD_none, hramp, Option.some.injEq, exists_eq_left', Option.mem_toList]
      exact forall₂_congr fun s hs => isStep_iff_isBelow (hstep s hs)
    | some name =>
      rw [hl] at hfound
      exact iff_of_true ⟨found, hfound, hstep⟩ fun s hs => absurd hs List.not_mem_nil
  | _ => cases h

/-! ## maps of parts -/

/-- a value for a map that may be missing or null -/
def isOptionalMap (d : Document) : Bool := d.isNull || d.isMap

theorem mapOr_eq_nil_iff {f : Atom × Document → List Problem} {o : Option Document} :
    mapOr path (fun ms => ms.flatMap f) o = [] ↔
      optional isOptionalMap o = true ∧ ∀ e ∈ membersOf (o.getD .null), f e = [] := by
  cases o with
  | none => exact iff_of_true rfl ⟨rfl, fun e he => absurd he List.not_mem_nil⟩
  | some d =>
    cases d with
    | null => exact iff_of_true rfl ⟨rfl, fun e he => absurd he List.not_mem_nil⟩
    | map ms =>
      show ms.flatMap f = [] ↔ _
      rw [List.flatMap_eq_nil_iff]
      exact (and_iff_right rfl).symm
    | _ => exact iff_of_false (fun h => nomatch h) fun h => nomatch h.1

theorem mapProblems_eq_nil_iff (name : String) {each : Atom → Document → List Problem}
    {o : Option Document} : mapProblems name each o = [] ↔
      (o.getD .null).isMap = true ∧ ∀ e ∈ membersOf (o.getD .null), each e.1 e.2 = [] := by
  constructor
  · intro h
    obtain ⟨ms, rfl, hall⟩ := mapProblems_eq_nil h
    exact ⟨rfl, hall⟩
  · rintro ⟨hmap, h⟩
    cases o with
    | none => cases hmap
    | some d =>
      cases d with
      | map ms => exact List.flatMap_eq_nil_iff.2 h
      | _ => cases hmap

/-- parts of a map that pass, measured again one by one -/
theorem remeasured (path' : String) {f f' : Atom × Document → List Problem} {o : Option Document}
    {steps : Document → List Document} (h : mapOr path (fun ms => ms.flatMap f) o = [])
    (hparts : ∀ e, f e = [] → (f' e = [] ↔ ∀ s ∈ steps e.2, isBelow length' s = true)) :
    mapOr path' (fun ms => ms.flatMap f') o = [] ↔
      ∀ s ∈ (membersOf (o.getD .null)).flatMap (fun e => steps e.2), isBelow length' s = true := by
  rw [mapOr_eq_nil_iff] at h ⊢
  rw [and_iff_right h.1, List.forall_mem_flatMap]
  exact forall₂_congr fun e he => hparts e (h.2 e he)

/-! ## semantic colors -/

/-- what the check asks of the members of a semantic color on a ramp of some length -/
structure SemanticOn (sc : Scope) (length : Nat) (path : String) (ms : Entries Atom Document) :
    Prop where
  default : isStep length ((ms.lookup (.text "defaultStep")).getD .null) = true
  decorative : optional isBool (ms.lookup (.text "decorative")) = true
  overrides :
    overridesProblems sc length (path ++ ".overrides") (ms.lookup (.text "overrides")) = []
  interactions : interactionsProblems sc length (path ++ ".interactions")
    (ms.lookup (.text "interactions")) = []
  vision : blockProblems sc length (path ++ ".vision") (ms.lookup (.text "vision")) = []
  tone : blockProblems sc length (path ++ ".tone") (ms.lookup (.text "tone")) = []

theorem semanticProblems_map {ms : Entries Atom Document} :
    semanticProblems sc path (.map ms) = [] ↔ ∃ name length, ms.lookup (.text "ramp") = some name ∧
      sc.rampLength? name = some length ∧ SemanticOn sc length path ms := by
  constructor
  · intro h
    rw [semanticProblems] at h
    split at h
    · next n hn =>
      split at h
      · cases h
      · next length hlength =>
        simp only [List.append_eq_nil_iff, demand_eq_nil] at h
        obtain ⟨⟨⟨⟨⟨hdefault, hdecorative⟩, hoverrides⟩, hstates⟩, hvision⟩, htone⟩ := h
        exact ⟨_, length, hn, hlength, hdefault, hdecorative, hoverrides, hstates, hvision, htone⟩
    · cases h
  · rintro ⟨name, length, hn, hlength, h⟩
    cases name with
    | text n =>
      rw [semanticProblems, hn]
      dsimp only
      rw [hlength]
      simp only [List.append_eq_nil_iff, demand_eq_nil]
      exact ⟨⟨⟨⟨⟨h.default, h.decorative⟩, h.overrides⟩, h.interactions⟩, h.vision⟩, h.tone⟩
    | _ => cases hlength

/-- the same where the ramp is known -/
theorem semanticProblems_iff {ms : Entries Atom Document} {name : Document}
    (hn : ms.lookup (.text "ramp") = some name) (hl : sc.rampLength? name = some length) :
    semanticProblems sc path (.map ms) = [] ↔ SemanticOn sc length path ms := by
  refine semanticProblems_map.trans ⟨?_, fun h => ⟨name, length, hn, hl, h⟩⟩
  rintro ⟨name', length', hn', hl', h⟩
  obtain rfl := Option.some.inj (hn.symm.trans hn')
  obtain rfl := Option.some.inj (hl.symm.trans hl')
  exact h

/-! ## themes -/

/-- what the check asks of the members of a theme on a ramp of some length -/
structure ThemeOn (sc : Scope) (ramp : Document) (length : Nat) (path : String)
    (ms : Entries Atom Document) : Prop where
  step : isStep length ((ms.lookup (.text "step")).getD .null) = true
  names : ∀ key ∈ ["fallback", "aliases"], optional isTexts (ms.lookup (.text key)) = true
  tone : mapOr (path ++ ".tone") (fun es => es.flatMap fun e =>
    themeToneProblems sc ramp (path ++ ".tone." ++ e.1.shown) e.2) (ms.lookup (.text "tone")) = []

theorem themeProblems_map {ms : Entries Atom Document} :
    themeProblems sc path (.map ms) = [] ↔ ∃ name length, ms.lookup (.text "ramp") = some name ∧
      sc.rampLength? name = some length ∧ ThemeOn sc name length path ms := by
  have htone {name : Document} (hn : ms.lookup (.text "ramp") = some name) :
      mapOr (path ++ ".tone") (fun es => es.flatMap fun e =>
          themeToneProblems sc ((ms.lookup (.text "ramp")).getD .null)
            (path ++ ".tone." ++ e.1.shown) e.2) (ms.lookup (.text "tone")) =
        mapOr (path ++ ".tone") (fun es => es.flatMap fun e =>
          themeToneProblems sc name (path ++ ".tone." ++ e.1.shown) e.2)
          (ms.lookup (.text "tone")) := by
    rw [hn]
    rfl
  constructor
  · intro h
    simp only [themeProblems, List.append_eq_nil_iff, namesProblems_eq_nil_iff] at h
    obtain ⟨⟨hramp, hnames⟩, htones⟩ := h
    split at hramp
    · next n hn =>
      split at hramp
      · cases hramp
      · next length hlength =>
        exact ⟨_, length, hn, hlength, demand_eq_nil.1 hramp, hnames, (htone hn).symm.trans htones⟩
    · cases hramp
  · rintro ⟨name, length, hn, hlength, h⟩
    cases name with
    | text n =>
      simp only [themeProblems, List.append_eq_nil_iff, namesProblems_eq_nil_iff]
      refine ⟨⟨?_, h.names⟩, (htone hn).trans h.tone⟩
      rw [hn]
      dsimp only
      rw [hlength]
      exact demand_eq_nil.2 h.step
    | _ => cases hlength

theorem themeProblems_iff {ms : Entries Atom Document} {name : Document}
    (hn : ms.lookup (.text "ramp") = some name) (hl : sc.rampLength? name = some length) :
    themeProblems sc path (.map ms) = [] ↔ ThemeOn sc name length path ms := by
  refine themeProblems_map.trans ⟨?_, fun h => ⟨name, length, hn, hl, h⟩⟩
  rintro ⟨name', length', hn', hl', h⟩
  obtain rfl := Option.some.inj (hn.symm.trans hn')
  obtain rfl := Option.some.inj (hl.symm.trans hl')
  exact h

end Palette.Spec
