import Mathlib.Data.List.Nodup
import Palette.Proofs.Spec.Names

/-!
# Specifications that differ in a choice

Some members of the configuration have a choice of values. A value with another choice there passes
the check where the value itself does, and compiles to the same specification with this choice.

* `Document.configured`  the value with a member of its configuration;
* `Document.atLevel`, `Spec.atLevel`   the value and the specification at a level of strictness;
* `Document.withPolicy`, `Spec.withPolicy`   and with a policy for failing manual steps;
* `memberProblems_configured`  the check says nothing new;
* `compile_atLevel`, `compile_withPolicy`   compiling and choosing go in either order;
* `level_of_compile`, `policy_of_compile`    what has been chosen when a value compiles;
* `Coherent.withConfig`, `Unambiguous.withConfig`   other choices change no names and references.
-/

namespace Palette

/-- the value of a specification with a member of its configuration -/
def Document.configured (d : Document) (key : String) (v : Document) : Document :=
  match d with
  | .map ms => .map (Entries.put (.text "config")
      (.map (Entries.put (.text key) v (d.block "config"))) ms)
  | d => d

/-- the value of a specification at a level of strictness -/
def Document.atLevel (d : Document) (l : Level) : Document :=
  match d with
  | .map ms => .map (Entries.put (.text "config")
      (.map (Entries.put (.text "wcagTarget") l.document (d.block "config"))) ms)
  | d => d

theorem Document.atLevel_eq (d : Document) (l : Level) :
    d.atLevel l = d.configured "wcagTarget" l.document := by
  cases d <;> rfl

/-- the value of a specification with a policy -/
def Document.withPolicy (d : Document) (q : Policy) : Document :=
  d.configured "onUnresolvedOverride" q.document

namespace Spec
open Outcome

/-- the specification at a level of strictness -/
def atLevel (p : Spec) (l : Level) : Spec := { p with config := { p.config with level := l } }

/-- the specification with a policy -/
def withPolicy (p : Spec) (q : Policy) : Spec := { p with config := { p.config with policy := q } }

section
variable {ms : Entries Atom Document} {key : String} {v : Document}

theorem lookup_put_text {name : String} (h : key ≠ name) :
    (Entries.put (.text key) v ms).lookup (.text name) = ms.lookup (.text name) := by
  rw [Entries.lookup_put, Atom.text_beq, beq_false_of_ne h, if_neg Bool.false_ne_true]

theorem lookup_put_self : (Entries.put (.text key) v ms).lookup (.text key) = some v := by
  rw [Entries.lookup_put, BEq.rfl, if_pos rfl]

end

/-! ## the check -/

/-- a configuration that is missing or null is checked like an empty one -/
theorem configProblems_block {ms : Entries Atom Document} (h : memberProblems ms = []) :
    configProblems (scope ms) (.map (Document.block (.map ms) "config")) = [] := by
  have hc := (List.append_eq_nil_iff.1 h).2
  show configProblems (scope ms) (.map (membersOf ((ms.lookup (.text "config")).getD .null))) = []
  cases hl : ms.lookup (.text "config") with
  | none => rfl
  | some d =>
    rw [hl] at hc
    cases d with
    | null => rfl
    | map members => exact hc
    | _ => cases hc

theorem nodup_choices : (choices.map Prod.fst).Nodup := by decide

theorem configProblems_put {key : String} {allowed : List String} {v : Document}
    (hc : (key, allowed) ∈ choices) (hv : isOneOf allowed v = true) {sc : Scope}
    {ms : Entries Atom Document} (h : configProblems sc (.map ms) = []) :
    configProblems sc (.map (Entries.put (.text key) v ms)) = [] := by
  have hother (name : String) (hn : name ∉ choices.map Prod.fst) :
      (Entries.put (.text key) v ms).lookup (.text name) = ms.lookup (.text name) :=
    lookup_put_text fun hk => hn (hk ▸ List.mem_map_of_mem hc)
  rw [configProblems] at h ⊢
  simp only [List.append_eq_nil_iff, List.flatMap_eq_nil_iff] at h ⊢
  rw [hother "defaultTheme" (by decide), hother "stacks" (by decide), hother "cvd" (by decide)]
  obtain ⟨⟨⟨hchoices, htheme⟩, hstacks⟩, hcvd⟩ := h
  refine ⟨⟨⟨fun c hm => ?_, htheme⟩, hstacks⟩, hcvd⟩
  by_cases hk : key = c.1
  · obtain rfl : (key, allowed) = c := List.inj_on_of_nodup_map nodup_choices hc hm hk
    rw [lookup_put_self]
    exact demand_eq_nil.2 hv
  · rw [lookup_put_text hk]
    exact hchoices c hm

/-- the parts of a specification other than its configuration are checked without it -/
theorem memberProblems_put_config {ms : Entries Atom Document} (h : memberProblems ms = [])
    {v : Document} (hv : configProblems (scope ms) v = []) :
    memberProblems (Entries.put (.text "config") v ms) = [] := by
  have hother (name : String) (hne : "config" ≠ name) :
      (Entries.put (.text "config") v ms).lookup (.text name) = ms.lookup (.text name) :=
    lookup_put_text hne
  have hprimitives := hother "primitives" (by decide)
  have hthemes := hother "themes" (by decide)
  have hforeground := hother "foreground" (by decide)
  have hnonText := hother "nonText" (by decide)
  -- what the parts can refer to are ramps and themes
  have hscope : scope (Entries.put (.text "config") v ms) = scope ms := by
    rw [scope, scope, hprimitives, hthemes]
  have hparts := (List.append_eq_nil_iff.1 h).1
  rw [memberProblems, List.append_eq_nil_iff]
  constructor
  · simp only [hscope, declaredIn, derivations, sections, List.flatMap_cons, List.flatMap_nil,
      List.any_cons, List.any_nil, hprimitives, hthemes, hforeground, hnonText] at hparts ⊢
    exact hparts
  · rw [lookup_put_self, hscope]
    cases v with
    | null => rfl
    | _ => exact hv

theorem memberProblems_configured {ms : Entries Atom Document} (h : memberProblems ms = [])
    {key : String} {allowed : List String} {v : Document} (hc : (key, allowed) ∈ choices)
    (hv : isOneOf allowed v = true) : problems ((Document.map ms).configured key v) = [] :=
  memberProblems_put_config h (configProblems_put hc hv (configProblems_block h))

/-! ## the specification -/

/-- a choice that does not concern the stacks is made in the configuration alone -/
theorem compileUnchecked_configured {ms : Entries Atom Document} {p : Spec}
    (h : compileUnchecked (.map ms) = .ok p) {key : String} {v : Document} (hkey : key ≠ "stacks")
    {choose : Config → Config}
    (hchoose : ∀ {ms themes c}, Config.ofMembers ms themes = .ok c →
      Config.ofMembers (Entries.put (.text key) v ms) themes = .ok (choose c)) :
    compileUnchecked ((Document.map ms).configured key v) =
      .ok { p with config := choose p.config } := by
  obtain ⟨cs, texts, parts, h⟩ := compileUnchecked_map.1 h
  obtain rfl := Document.eq_block (d := .map ms) rfl h.choices
  have hother {v : Document} (name : String) (hne : "config" ≠ name) :
      (Entries.put (.text "config") v ms).lookup (.text name) = ms.lookup (.text name) :=
    lookup_put_text hne
  refine compileUnchecked_map.2
    ⟨Entries.put (.text key) v ((Document.map ms).block "config"), texts, parts, ?_⟩
  exact {
    ramps := (hother "primitives" (by decide)).symm ▸ h.ramps
    choices := lookup_put_self ▸ Document.entriesOf_map _
    layers := (lookup_put_text hkey).symm ▸ h.layers
    themes := (hother "themes" (by decide)).symm ▸ h.themes
    foreground := (hother "foreground" (by decide)).symm ▸ h.foreground
    nonText := (hother "nonText" (by decide)).symm ▸ h.nonText
    semantics := h.semantics
    config := hchoose h.config
    warnings := h.warnings }

/-- a value compiles with any choice where it compiles at all, to one specification but for the
choice -/
theorem compile_configured {d : Document} {p : Spec} (h : compile d = .ok p) {key : String}
    {allowed : List String} {v : Document} (hc : (key, allowed) ∈ choices)
    (hv : isOneOf allowed v = true) {choose : Config → Config}
    (hchoose : ∀ {ms themes c}, Config.ofMembers ms themes = .ok c →
      Config.ofMembers (Entries.put (.text key) v ms) themes = .ok (choose c)) :
    compile (d.configured key v) = .ok { p with config := choose p.config } := by
  obtain ⟨⟨ms, rfl, hp⟩, h⟩ := memberProblems_eq_nil_of_compile h
  have hkey : key ≠ "stacks" := by
    rintro rfl
    exact absurd (List.mem_map_of_mem hc) (by decide : "stacks" ∉ choices.map Prod.fst)
  refine bind_ok.2 ⟨(), ?_, compileUnchecked_configured h hkey hchoose⟩
  rw [requireValid, isValid, memberProblems_configured hp hc hv]
  rfl

theorem Coherent.withConfig {p : Spec} (h : p.Coherent) (c : Config) :
    Coherent { p with config := c } := { h with }

theorem Named.withConfig {p : Spec} (h : p.Named) (c : Config) :
    Named { p with config := c } := h

theorem Unambiguous.withConfig {p : Spec} (h : p.Unambiguous) (c : Config) :
    Unambiguous { p with config := c } := { h with }

/-! ## levels and policies -/

theorem ofMembers_put_level {ms : Entries Atom Document} {themes : List Atom} {c : Config}
    (h : Config.ofMembers ms themes = .ok c) {l : Level} (hl : l = .aa ∨ l = .aaa) :
    Config.ofMembers (Entries.put (.text "wcagTarget") l.document ms) themes =
      .ok { c with level := l } := by
  have hother (name : String) (hne : "wcagTarget" ≠ name) :
      (Entries.put (.text "wcagTarget") l.document ms).lookup (.text name) =
        ms.lookup (.text name) := lookup_put_text hne
  have hlevel : Level.ofDocument l.document = l := by
    rcases hl with rfl | rfl <;> rfl
  obtain ⟨es, hes, h⟩ := bind_ok.1 h
  obtain ⟨o, ho, h⟩ := bind_ok.1 h
  obtain rfl := pure_ok.1 h
  refine bind_ok.2 ⟨es, ?_, bind_ok.2 ⟨o, ho, pure_ok.2 ?_⟩⟩
  · rw [hother "cvd" (by decide)]
    exact hes
  · simp only [hother "complianceEngine" (by decide),
      hother "stepSelectionStrategy" (by decide),
      hother "onUnresolvedOverride" (by decide),
      hother "defaultTheme" (by decide), lookup_put_self, Option.getD_some, hlevel]

theorem ofMembers_put_policy {ms : Entries Atom Document} {themes : List Atom} {c : Config}
    (h : Config.ofMembers ms themes = .ok c) {q : Policy} (hq : q = .warn ∨ q = .error) :
    Config.ofMembers (Entries.put (.text "onUnresolvedOverride") q.document ms) themes =
      .ok { c with policy := q } := by
  have hother (name : String) (hne : "onUnresolvedOverride" ≠ name) :
      (Entries.put (.text "onUnresolvedOverride") q.document ms).lookup (.text name) =
        ms.lookup (.text name) := lookup_put_text hne
  have hpolicy : Policy.ofDocument q.document = q := by
    rcases hq with rfl | rfl <;> rfl
  obtain ⟨es, hes, h⟩ := bind_ok.1 h
  obtain ⟨o, ho, h⟩ := bind_ok.1 h
  obtain rfl := pure_ok.1 h
  refine bind_ok.2 ⟨es, ?_, bind_ok.2 ⟨o, ho, pure_ok.2 ?_⟩⟩
  · rw [hother "cvd" (by decide)]
    exact hes
  · simp only [hother "complianceEngine" (by decide),
      hother "stepSelectionStrategy" (by decide),
      hother "wcagTarget" (by decide),
      hother "defaultTheme" (by decide), lookup_put_self, Option.getD_some, hpolicy]

/-- a value compiles at either level where it compiles at all, to one specification but for the
level -/
theorem compile_atLevel {d : Document} {p : Spec} (h : compile d = .ok p) {l : Level}
    (hl : l = .aa ∨ l = .aaa) : compile (d.atLevel l) = .ok (p.atLevel l) := by
  have hlevel : isOneOf ["AA", "AAA"] l.document = true := by
    rcases hl with rfl | rfl <;> rfl
  rw [Document.atLevel_eq]
  exact compile_configured h (by decide) hlevel fun hc => ofMembers_put_level hc hl

/-- and so it does with either policy -/
theorem compile_withPolicy {d : Document} {p : Spec} (h : compile d = .ok p) {q : Policy}
    (hq : q = .warn ∨ q = .error) : compile (d.withPolicy q) = .ok (p.withPolicy q) := by
  have hpolicy : isOneOf ["error", "warn"] q.document = true := by
    rcases hq with rfl | rfl <;> rfl
  exact compile_configured h (by decide) hpolicy fun hc => ofMembers_put_policy hc hq

/-- what stands for a member with a choice is one of its values -/
theorem exists_choice_of_compile {d : Document} {p : Spec} (h : compile d = .ok p) {key : String}
    {allowed : List String} (hc : (key, allowed) ∈ choices) {usual : String}
    (husual : usual ∈ allowed) :
    ∃ s ∈ allowed, ((d.block "config").lookup (.text key)).getD (.text usual) = .text s := by
  obtain ⟨⟨ms, rfl, hp⟩, _⟩ := memberProblems_eq_nil_of_compile h
  have hconfig := configProblems_block hp
  simp only [configProblems, List.append_eq_nil_iff, List.flatMap_eq_nil_iff] at hconfig
  have hchoice := demand_eq_nil.1 (hconfig.1.1.1 _ hc)
  cases hl : ((Document.map ms).block "config").lookup (.text key) with
  | none => exact ⟨usual, husual, rfl⟩
  | some v =>
    rw [hl] at hchoice
    cases v with
    | text s => exact ⟨s, by simpa [optional, isOneOf] using hchoice, rfl⟩
    | _ => cases hchoice

theorem choices_of_compile {d : Document} {p : Spec} (h : compile d = .ok p) :
    p.config.level =
        Level.ofDocument (((d.block "config").lookup (.text "wcagTarget")).getD (.text "AA")) ∧
      p.config.policy = Policy.ofDocument
        (((d.block "config").lookup (.text "onUnresolvedOverride")).getD (.text "warn")) := by
  obtain ⟨_, _, h⟩ := read_of_compileUnchecked (memberProblems_eq_nil_of_compile h).2
  obtain ⟨_, _, h⟩ := bind_ok.1 h.config
  obtain ⟨_, _, h⟩ := bind_ok.1 h
  rw [← pure_ok.1 h]
  exact ⟨rfl, rfl⟩

/-- the check lets no other level pass -/
theorem level_of_compile {d : Document} {p : Spec} (h : compile d = .ok p) :
    p.config.level = .aa ∨ p.config.level = .aaa := by
  obtain ⟨s, hs, hl⟩ := exists_choice_of_compile h
    (by decide : ("wcagTarget", ["AA", "AAA"]) ∈ choices) List.mem_cons_self
  rw [(choices_of_compile h).1, hl]
  simp only [List.mem_cons, List.not_mem_nil, or_false] at hs
  rcases hs with rfl | rfl
  · exact .inl rfl
  · exact .inr rfl

/-- nor any other policy -/
theorem policy_of_compile {d : Document} {p : Spec} (h : compile d = .ok p) :
    p.config.policy = .error ∨ p.config.policy = .warn := by
  obtain ⟨s, hs, hl⟩ := exists_choice_of_compile h
    (by decide : ("onUnresolvedOverride", ["error", "warn"]) ∈ choices)
    (List.mem_cons_of_mem _ List.mem_cons_self)
  rw [(choices_of_compile h).2, hl]
  simp only [List.mem_cons, List.not_mem_nil, or_false] at hs
  rcases hs with rfl | rfl
  · exact .inl rfl
  · exact .inr rfl

end Spec
end Palette
