import Palette.Proofs.Document.Keyed
import Palette.Spec.Compile

/-!
# Compiled specifications are coherent

Whatever the value, if it compiles then the parts of the specification fit together: steps lie on
their ramps, names are those of the entries, references lead to parts of the specification, and
each theme has one surface for each stack. The check of the whole value is not needed for this.

* `Ramp.Holds`            all steps of some overrides are on a ramp;
* `Interaction.Fits`, `VisionEntry.Fits`, `Semantic.Fits`, `Theme.Fits`   the parts;
* `Spec.Coherent`         the whole;
* `Document.block_of`     what holds of the members of a value holds in its parts;
* `Override.Read`, `Interaction.Read`, `VisionEntry.Read`, `Semantic.Read`   what has been read of a
                          part, and `Stacks.of_ofDocument` which stacks have been;
* `Spec.Compiled`, `compileUnchecked_map`   the steps of compiling;
* `Spec.Read`, `read_of_compileUnchecked`   what has been read when a value compiles;
* `coherent_of_compileUnchecked` the specification is coherent.
-/

namespace Palette
open Outcome

/-- are all steps of some overrides on the ramp? -/
def Ramp.Holds (r : Ramp) (os : Overrides) : Prop := ∀ o ∈ os, r.hasStep o.step.index = true

/-- a state whose steps are on a ramp -/
structure Interaction.Fits (i : Interaction) (r : Ramp) : Prop where
  step : r.hasStep i.step.index = true
  overrides : r.Holds i.overrides

/-- an entry for a deficiency whose ramp is one of some ramps, with its steps on it -/
structure VisionEntry.Fits (v : VisionEntry) (ramps : Ramps) : Prop where
  ramp : ramps.lookup v.ramp.name = some v.ramp
  default : v.ramp.hasStep v.default.index = true
  overrides : v.ramp.Holds v.overrides

/-- a semantic color whose ramps are among some ramps, with all its steps on them -/
structure Semantic.Fits (t : Semantic) (ramps : Ramps) : Prop where
  ramp : ramps.lookup t.ramp.name = some t.ramp
  default : t.ramp.hasStep t.default.index = true
  overrides : t.ramp.Holds t.overrides
  states : ∀ i ∈ t.interactions, i.2.Fits t.ramp
  vision : ∀ v ∈ t.vision, v.2.Fits ramps
  distinct_states : t.interactions.Distinct
  distinct_vision : t.vision.Distinct

/-- a theme that a step of one of some ramps makes, with a surface for each of some stacks -/
def Theme.Fits (t : Theme) (ramps : Ramps) (layers : Stacks) : Prop :=
  ∃ r step, ramps.lookup r.name = some r ∧ r.hasStep step.index = true ∧
    t = Theme.ofStep t.name r step layers t.fallback t.aliases

/-- a specification whose parts fit together -/
structure Spec.Coherent (p : Spec) : Prop where
  distinct_ramps : p.ramps.Distinct
  ramp : ∀ e ∈ p.ramps, e.2.name = e.1
  distinct_layers : p.layers.Distinct
  distinct_themes : p.themes.Distinct
  theme : ∀ e ∈ p.themes, e.2.name = e.1 ∧ e.2.Fits p.ramps p.layers
  distinct_semantics : p.semantics.Distinct
  semantic : ∀ e ∈ p.semantics, e.2.Fits p.ramps

/-! ## references -/

/-- a ramp that is found by its name is named so, where ramps are entered under their names -/
theorem Ramps.lookup_of_require {ramps : Ramps} (hn : ∀ e ∈ ramps, e.2.name = e.1)
    {owner : String} {name : Option Document} {r : Ramp} (h : ramps.require owner name = .ok r) :
    ramps.lookup r.name = some r := by
  rw [require] at h
  split at h
  · next r' hr =>
    obtain rfl := Except.ok.inj h
    obtain ⟨n, _, hl⟩ := Option.bind_eq_some_iff.1 hr
    obtain ⟨k, hm, hk⟩ := Entries.exists_of_lookup hl
    have hname : r'.name = .text n := (hn _ hm).trans (Atom.eq_of_text_beq hk)
    rw [hname, hl]
  · cases h

theorem Ramp.hasStep_of_require {r : Ramp} {owner : String} {step : Option Document} {c : Choice}
    (h : r.require owner step = .ok c) : r.hasStep c.index = true :=
  ((r.require_eq_ok_iff owner step c).1 h).2

/-! ## what is read -/

/-- the members of a map that is a member of another one -/
def Document.block (d : Document) (name : String) : Entries Atom Document :=
  Spec.membersOf (((Spec.membersOf d).lookup (.text name)).getD .null)

theorem Document.entriesOf_map (es : Entries Atom Document) :
    entriesOf (some (.map es)) = .ok es := by
  cases es <;> rfl

theorem Document.entriesOf_eq_membersOf {o : Option Document} {es : Entries Atom Document}
    (h : Document.entriesOf o = .ok es) : es = Spec.membersOf (o.getD .null) := by
  cases o with
  | none => exact (Except.ok.inj h).symm
  | some d =>
    rw [Document.entriesOf] at h
    split at h
    · cases d with
      | map members => exact (Except.ok.inj h).symm
      | _ => cases h
    · next hf =>
      obtain rfl := Except.ok.inj h
      cases d with
      | map members =>
        rw [Document.truthy] at hf
        cases members with
        | nil => rfl
        | cons e es => exact absurd rfl hf
      | _ => rfl

/-- the members that are read where a member is a map are those of the map -/
theorem Document.eq_block {d : Document} {name : String} {o : Option Document}
    {es : Entries Atom Document} (ho : d.get name = .ok o) (h : Document.entriesOf o = .ok es) :
    es = d.block name := by
  rw [entriesOf_eq_membersOf h, block]
  cases d with
  | map members =>
    obtain rfl := Except.ok.inj ho
    rfl
  | _ => cases ho

theorem Document.eq_lookup_of_get {d : Document} {name : String} {o : Option Document}
    (h : d.get name = .ok o) : o = (Spec.membersOf d).lookup (.text name) := by
  cases d with
  | map members => exact (Except.ok.inj h).symm
  | _ => cases h

/-- what has been read of an override -/
structure Override.Read (o : Override Document Document) (d : Document) : Prop where
  step : d.need "step" = .ok o.step
  themes : Override.filterOf ((Spec.membersOf d).lookup (.text "bg")) = .ok o.themes
  fontSizes : Override.filterOf ((Spec.membersOf d).lookup (.text "fontSize")) = .ok o.fontSizes
  layers : Override.filterOf ((Spec.membersOf d).lookup (.text "stack")) = .ok o.layers

theorem Override.read_of_ofDocument {d : Document} {o : Override Document Document}
    (h : Override.ofDocument d = .ok o) : o.Read d := by
  obtain ⟨step, hs, h⟩ := bind_ok.1 h
  obtain ⟨_, hot, h⟩ := bind_ok.1 h
  obtain ⟨themes, ht, h⟩ := bind_ok.1 h
  obtain ⟨_, hof, h⟩ := bind_ok.1 h
  obtain ⟨fontSizes, hf, h⟩ := bind_ok.1 h
  obtain ⟨_, hol, h⟩ := bind_ok.1 h
  obtain ⟨layers, hl, h⟩ := bind_ok.1 h
  obtain rfl := pure_ok.1 h
  obtain rfl := Document.eq_lookup_of_get hot
  obtain rfl := Document.eq_lookup_of_get hof
  obtain rfl := Document.eq_lookup_of_get hol
  exact ⟨hs, ht, hf, hl⟩

/-- each override of a list has been read from an item, with its step -/
theorem Override.exists_of_listOf {r : Ramp} {owner : String} {d : Option Document}
    {os : Overrides} (h : Override.listOf r owner d = .ok os) :
    ∃ items, Document.elementsOf d = .ok items ∧ ∀ o ∈ os, ∃ e ∈ items.zipIdx,
      ∃ (o' : Override Document Document) (owner : String), o'.Read e.1 ∧
        r.require owner (some o'.step) = .ok o.step ∧ o = { o' with step := o.step } := by
  obtain ⟨items, hi, h⟩ := bind_ok.1 h
  refine ⟨items, hi, fun o ho => ?_⟩
  obtain ⟨e, he, h⟩ := exists_of_mem_right (mapM_ok.1 h) ho
  obtain ⟨o', ho', h⟩ := bind_ok.1 h
  obtain ⟨step, hs, h⟩ := bind_ok.1 h
  obtain rfl := pure_ok.1 h
  exact ⟨e, he, o', _, Override.read_of_ofDocument ho', hs, rfl⟩

/-- what has been read of a state -/
structure Interaction.Read (i : Interaction) (r : Ramp) (d : Document) : Prop where
  step : ∃ owner, r.require owner ((Spec.membersOf d).lookup (.text "step")) = .ok i.step
  overrides : ∃ owner, Override.listOf r owner ((Spec.membersOf d).lookup (.text "overrides")) =
    .ok i.overrides

theorem Interaction.read_of_ofDocument {r : Ramp} {owner : String} {d : Document} {i : Interaction}
    (h : Interaction.ofDocument r owner d = .ok i) : i.Read r d := by
  obtain ⟨_, hos, h⟩ := bind_ok.1 h
  obtain ⟨step, hs, h⟩ := bind_ok.1 h
  obtain ⟨_, hoo, h⟩ := bind_ok.1 h
  obtain ⟨os, ho, h⟩ := bind_ok.1 h
  obtain rfl := pure_ok.1 h
  obtain rfl := Document.eq_lookup_of_get hos
  obtain rfl := Document.eq_lookup_of_get hoo
  exact ⟨⟨_, hs⟩, _, ho⟩

/-- what has been read of an entry for a deficiency, of a color with a ramp and a default step -/
structure VisionEntry.Read (v : VisionEntry) (ramps : Ramps) (r : Ramp) (default : Choice)
    (d : Document) : Prop where
  ramp : ∃ owner, ramps.require owner
    (some (((Spec.membersOf d).lookup (.text "ramp")).getD r.name.document)) = .ok v.ramp
  default : ∃ owner, v.ramp.require owner
    (some (((Spec.membersOf d).lookup (.text "defaultStep")).getD default.document)) = .ok v.default
  overrides : ∃ owner, Override.listOf v.ramp owner
    ((Spec.membersOf d).lookup (.text "overrides")) = .ok v.overrides

theorem VisionEntry.read_of_ofDocument {ramps : Ramps} {r : Ramp} {default : Choice}
    {owner : String} {d : Document} {v : VisionEntry}
    (h : VisionEntry.ofDocument ramps r default owner d = .ok v) : v.Read ramps r default d := by
  obtain ⟨_, hor, h⟩ := bind_ok.1 h
  obtain ⟨ramp, hr, h⟩ := bind_ok.1 h
  obtain ⟨_, hos, h⟩ := bind_ok.1 h
  obtain ⟨step, hs, h⟩ := bind_ok.1 h
  obtain ⟨_, hoo, h⟩ := bind_ok.1 h
  obtain ⟨os, ho, h⟩ := bind_ok.1 h
  obtain rfl := pure_ok.1 h
  obtain rfl := Document.eq_lookup_of_get hor
  obtain rfl := Document.eq_lookup_of_get hos
  obtain rfl := Document.eq_lookup_of_get hoo
  exact ⟨⟨_, hr⟩, ⟨_, hs⟩, _, ho⟩

/-- what has been read of a semantic color -/
structure Semantic.Read (t : Semantic) (ramps : Ramps) (name : Atom) (d : Document) : Prop where
  name : t.name = name
  ramp : ∃ owner, ramps.require owner ((Spec.membersOf d).lookup (.text "ramp")) = .ok t.ramp
  default : ∃ owner, t.ramp.require owner ((Spec.membersOf d).lookup (.text "defaultStep")) =
    .ok t.default
  interactions : ∃ owner : Atom → String, Made
    (fun e => Interaction.ofDocument t.ramp (owner e.1) e.2) (d.block "interactions") t.interactions
  vision : ∃ owner : Atom → String, Made
    (fun e => VisionEntry.ofDocument ramps t.ramp t.default (owner e.1) e.2) (d.block "vision")
    t.vision
  overrides : ∃ owner, Override.listOf t.ramp owner
    ((Spec.membersOf d).lookup (.text "overrides")) = .ok t.overrides

theorem Semantic.read_of_ofDocument {ramps : Ramps} {target : Target} {name : Atom} {d : Document}
    {t : Semantic} (h : Semantic.ofDocument ramps target name d = .ok t) : t.Read ramps name d := by
  obtain ⟨_, hor, h⟩ := bind_ok.1 h
  obtain ⟨ramp, hr, h⟩ := bind_ok.1 h
  obtain ⟨_, hos, h⟩ := bind_ok.1 h
  obtain ⟨default, hs, h⟩ := bind_ok.1 h
  obtain ⟨_, hoi, h⟩ := bind_ok.1 h
  obtain ⟨_, hei, h⟩ := bind_ok.1 h
  obtain ⟨interactions, hi, h⟩ := bind_ok.1 h
  obtain ⟨_, hov, h⟩ := bind_ok.1 h
  obtain ⟨_, hev, h⟩ := bind_ok.1 h
  obtain ⟨vision, hv, h⟩ := bind_ok.1 h
  obtain ⟨_, _, h⟩ := bind_ok.1 h
  obtain ⟨_, hoo, h⟩ := bind_ok.1 h
  obtain ⟨overrides, ho, h⟩ := bind_ok.1 h
  obtain rfl := pure_ok.1 h
  obtain rfl := Document.eq_lookup_of_get hor
  obtain rfl := Document.eq_lookup_of_get hos
  obtain rfl := Document.eq_lookup_of_get hoo
  obtain rfl := Document.eq_block hoi hei
  obtain rfl := Document.eq_block hov hev
  let owner := s!"Semantic \"{name.shown}\""
  exact ⟨rfl, ⟨owner, hr⟩, ⟨owner, hs⟩,
    ⟨fun k => s!"{owner} interaction \"{k.shown}\"", Made.of_mapM hi⟩,
    ⟨fun k => s!"{owner} vision \"{k.shown}\"", Made.of_mapM hv⟩, owner, ho⟩

/-! ## semantic colors -/

theorem Override.holds_of_listOf {r : Ramp} {owner : String} {d : Option Document} {os : Overrides}
    (h : Override.listOf r owner d = .ok os) : r.Holds os := by
  obtain ⟨_, _, h⟩ := Override.exists_of_listOf h
  intro o ho
  obtain ⟨_, _, _, _, _, hs, _⟩ := h o ho
  exact Ramp.hasStep_of_require hs

theorem Interaction.Read.fits {r : Ramp} {d : Document} {i : Interaction} (h : i.Read r d) :
    i.Fits r := by
  obtain ⟨_, hs⟩ := h.step
  obtain ⟨_, ho⟩ := h.overrides
  exact ⟨Ramp.hasStep_of_require hs, Override.holds_of_listOf ho⟩

theorem VisionEntry.Read.fits {ramps : Ramps} (hn : ∀ e ∈ ramps, e.2.name = e.1) {r : Ramp}
    {default : Choice} {d : Document} {v : VisionEntry} (h : v.Read ramps r default d) :
    v.Fits ramps := by
  obtain ⟨_, hr⟩ := h.ramp
  obtain ⟨_, hs⟩ := h.default
  obtain ⟨_, ho⟩ := h.overrides
  exact ⟨Ramps.lookup_of_require hn hr, Ramp.hasStep_of_require hs, Override.holds_of_listOf ho⟩

/-- what holds of a value and passes on to members holds of the maps among its members -/
theorem Document.block_of {P : Document → Prop} (hempty : P (.map []))
    (hmember : ∀ {members : Entries Atom Document} {k : Atom} {d : Document},
      P (.map members) → members.lookup k = some d → P d)
    {d : Document} (hd : P d) (name : String) : P (.map (d.block name)) := by
  have hmembers {d : Document} (hd : P d) : P (.map (Spec.membersOf d)) := by
    cases d with
    | map members => exact hd
    | _ => exact hempty
  rw [block]
  cases hl : (Spec.membersOf d).lookup (.text name) with
  | none => exact hempty
  | some v => exact hmembers (hmember (hmembers hd) hl)

theorem Document.isKeyed_block {d : Document} (hd : d.isKeyed = true) (name : String) :
    (Document.map (d.block name)).isKeyed = true :=
  block_of (P := fun d => d.isKeyed = true) rfl (fun h hl => isKeyed_of_lookup h hl) hd name

theorem Document.isTextual_block {d : Document} (hd : d.isTextual = true) (name : String) :
    (Document.map (d.block name)).isTextual = true :=
  block_of (P := fun d => d.isTextual = true) rfl (fun h hl => isTextual_of_lookup h hl) hd name

theorem Semantic.Read.fits {ramps : Ramps} (hn : ∀ e ∈ ramps, e.2.name = e.1) {name : Atom}
    {d : Document} (hd : d.isKeyed = true) {t : Semantic} (h : t.Read ramps name d) :
    t.Fits ramps := by
  obtain ⟨_, hr⟩ := h.ramp
  obtain ⟨_, hs⟩ := h.default
  obtain ⟨_, hi⟩ := h.interactions
  obtain ⟨_, hv⟩ := h.vision
  obtain ⟨_, ho⟩ := h.overrides
  have distinct (name : String) : (d.block name).Distinct :=
    ((Document.isKeyed_map _).1 (Document.isKeyed_block hd name)).1
  exact {
    ramp := Ramps.lookup_of_require hn hr
    default := Ramp.hasStep_of_require hs
    overrides := Override.holds_of_listOf ho
    states := fun i him => by
      obtain ⟨e, _, _, he⟩ := hi.exists_of_mem him
      exact (Interaction.read_of_ofDocument he).fits
    vision := fun v hvm => by
      obtain ⟨e, _, _, he⟩ := hv.exists_of_mem hvm
      exact (VisionEntry.read_of_ofDocument he).fits hn
    distinct_states := (Entries.distinct_congr hi.keys_eq).2 (distinct "interactions")
    distinct_vision := (Entries.distinct_congr hv.keys_eq).2 (distinct "vision") }

/-! ## themes and stacks -/

theorem Theme.fits_of_ofDocument {ramps : Ramps} (hn : ∀ e ∈ ramps, e.2.name = e.1)
    {layers : Stacks} {name : Atom} {d : Document} {t : Theme}
    (h : Theme.ofDocument name d ramps layers = .ok t) : t.name = name ∧ t.Fits ramps layers := by
  obtain ⟨_, _, h⟩ := bind_ok.1 h
  obtain ⟨r, hr, h⟩ := bind_ok.1 h
  obtain ⟨_, _, h⟩ := bind_ok.1 h
  obtain ⟨step, hs, h⟩ := bind_ok.1 h
  obtain ⟨_, _, h⟩ := bind_ok.1 h
  obtain ⟨fallback, _, h⟩ := bind_ok.1 h
  obtain ⟨_, _, h⟩ := bind_ok.1 h
  obtain ⟨aliases, _, h⟩ := bind_ok.1 h
  obtain rfl := pure_ok.1 h
  exact ⟨rfl, r, step, Ramps.lookup_of_require hn hr, Ramp.hasStep_of_require hs, rfl⟩

theorem Theme.Fits.keys_surfaces {t : Theme} {ramps : Ramps} {layers : Stacks}
    (h : t.Fits ramps layers) : t.surfaces.keys = layers.keys := by
  obtain ⟨r, step, _, _, ht⟩ := h
  rw [ht]
  show (layers.map _).map _ = layers.map _
  rw [List.map_map]
  rfl

/-- what has been read of stacks: none are declared, or they are those after the base level, which
is left where it is -/
theorem Stacks.of_ofDocument {o : Option Document} {layers : Stacks}
    (h : Stacks.ofDocument o = .ok layers) :
    Spec.membersOf (o.getD .null) = [] ∧ layers = usual ∨
      (((Spec.membersOf (o.getD .null)).lookup base).getD (.int 0)).same (.int 0) = true ∧
        ∃ others, layers = (base, 0) :: others ∧ Made (fun e => e.2.whole)
          ((Spec.membersOf (o.getD .null)).filter fun e => !(e.1 == base)) others := by
  rw [ofDocument.eq_def] at h
  split at h
  · next v =>
    cases v with
    | map members =>
      split at h
      · right
        obtain ⟨_, hm, h⟩ := bind_ok.1 h
        obtain rfl := Except.ok.inj hm
        unfold ofMembers at h
        simp only at h
        split at h
        · obtain ⟨_, hf, _⟩ := bind_ok.1 h
          cases hf
        · next hroot =>
          have hsame : ((members.lookup base).getD (.int 0)).same (.int 0) = true := by
            simpa using hroot
          obtain ⟨others, ho, h⟩ := bind_ok.1 h
          exact ⟨hsame, others, (pure_ok.1 h).symm, Made.of_mapM ho⟩
      · next hfalsy =>
        left
        refine ⟨?_, (Except.ok.inj h).symm⟩
        cases members with
        | nil => rfl
        | cons e es => exact absurd rfl hfalsy
    | _ =>
      left
      split at h
      · obtain ⟨_, hm, _⟩ := bind_ok.1 h
        cases hm
      · exact ⟨rfl, (Except.ok.inj h).symm⟩
  · exact .inl ⟨rfl, (Except.ok.inj h).symm⟩

theorem Stacks.root_of_ofDocument {o : Option Document} {layers : Stacks}
    (h : Stacks.ofDocument o = .ok layers) : ∃ others, layers = (base, 0) :: others := by
  rcases of_ofDocument h with ⟨_, rfl⟩ | ⟨_, others, rfl, _⟩ <;> exact ⟨_, rfl⟩

theorem Stacks.distinct_ofDocument {o : Option Document}
    (ho : (Document.map (Spec.membersOf (o.getD .null))).isKeyed = true) {layers : Stacks}
    (h : Stacks.ofDocument o = .ok layers) : layers.Distinct := by
  rcases of_ofDocument h with ⟨_, rfl⟩ | ⟨_, others, rfl, hmade⟩
  · decide
  · have hk := hmade.keys_eq
    have hm := ((Document.isKeyed_map _).1 ho).1
    rw [Entries.distinct_cons, hk]
    refine ⟨fun k hk => ?_, (Entries.distinct_congr hk).2 (Entries.distinct_filter hm _)⟩
    obtain ⟨d, hd⟩ := Entries.mem_keys.1 hk
    have hb := (List.mem_filter.1 hd).2
    rw [BEq.comm]
    simpa using hb

/-! ## the whole -/

namespace Spec

/-- what has been read from a value that compiles, with the semantic colors of both sections -/
structure Read (d : Document) (p : Spec) (texts parts : Entries Atom Semantic) : Prop where
  ramps : Made (fun e => Ramp.ofDocument e.1 e.2) (d.block "primitives") p.ramps
  layers : Stacks.ofDocument ((d.block "config").lookup (.text "stacks")) = .ok p.layers
  themes : Made (fun e => Theme.ofDocument e.1 e.2 p.ramps p.layers) (d.block "themes") p.themes
  texts_made : Made (fun e => Semantic.ofDocument p.ramps .text e.1 e.2) (d.block "foreground")
    texts
  parts_made : Made (fun e => Semantic.ofDocument p.ramps .uiComponent e.1 e.2) (d.block "nonText")
    parts
  semantics : p.semantics = Entries.ofList (texts ++ parts)
  config : Config.ofMembers (d.block "config") p.themes.keys = .ok p.config
  warnings : p.warnings = rampWarnings p.ramps ++ themeWarnings p.themes

theorem made_of_get {α : Type} {d : Document} {name : String} {o : Option Document}
    (ho : d.get name = .ok o) {f : Atom × Document → Except Fault α} {m : Entries Atom α}
    (h : (do
      (← Document.entriesOf o).mapM fun e => do
        return (e.1, ← f e)) = .ok m) : Made f (d.block name) m := by
  obtain ⟨es, he, h⟩ := bind_ok.1 h
  rw [← Document.eq_block ho he]
  exact Made.of_mapM h

/-- what compiling takes from the members of a value, step by step -/
structure Compiled (ms : Entries Atom Document) (p : Spec) (members : Entries Atom Document)
    (texts parts : Entries Atom Semantic) : Prop where
  ramps : rampsOf (ms.lookup (.text "primitives")) = .ok p.ramps
  choices : Document.entriesOf (ms.lookup (.text "config")) = .ok members
  layers : Stacks.ofDocument (members.lookup (.text "stacks")) = .ok p.layers
  themes : themesOf p.ramps p.layers (ms.lookup (.text "themes")) = .ok p.themes
  foreground : sectionOf p.ramps .text (ms.lookup (.text "foreground")) = .ok texts
  nonText : sectionOf p.ramps .uiComponent (ms.lookup (.text "nonText")) = .ok parts
  semantics : p.semantics = Entries.ofList (texts ++ parts)
  config : Config.ofMembers members p.themes.keys = .ok p.config
  warnings : p.warnings = rampWarnings p.ramps ++ themeWarnings p.themes

theorem compileUnchecked_map {ms : Entries Atom Document} {p : Spec} :
    compileUnchecked (.map ms) = .ok p ↔
      ∃ members texts parts, Compiled ms p members texts parts := by
  constructor
  · intro h
    obtain ⟨_, hor, h⟩ := bind_ok.1 h
    obtain ⟨ramps, hramps, h⟩ := bind_ok.1 h
    obtain ⟨_, hoc, h⟩ := bind_ok.1 h
    obtain ⟨members, hchoices, h⟩ := bind_ok.1 h
    obtain ⟨layers, hlayers, h⟩ := bind_ok.1 h
    obtain ⟨_, hot, h⟩ := bind_ok.1 h
    obtain ⟨themes, hthemes, h⟩ := bind_ok.1 h
    obtain ⟨_, hof, h⟩ := bind_ok.1 h
    obtain ⟨texts, htexts, h⟩ := bind_ok.1 h
    obtain ⟨_, hon, h⟩ := bind_ok.1 h
    obtain ⟨parts, hparts, h⟩ := bind_ok.1 h
    obtain ⟨config, hconfig, h⟩ := bind_ok.1 h
    obtain rfl := pure_ok.1 h
    obtain rfl := Except.ok.inj hor
    obtain rfl := Except.ok.inj hoc
    obtain rfl := Except.ok.inj hot
    obtain rfl := Except.ok.inj hof
    obtain rfl := Except.ok.inj hon
    exact ⟨members, texts, parts, hramps, hchoices, hlayers, hthemes, htexts, hparts, rfl, hconfig,
      rfl⟩
  · rintro ⟨_, texts, parts, h⟩
    refine bind_ok.2 ⟨_, rfl, bind_ok.2 ⟨_, h.ramps, ?_⟩⟩
    refine bind_ok.2 ⟨_, rfl, bind_ok.2 ⟨_, h.choices, bind_ok.2 ⟨_, h.layers, ?_⟩⟩⟩
    refine bind_ok.2 ⟨_, rfl, bind_ok.2 ⟨_, h.themes, ?_⟩⟩
    refine bind_ok.2 ⟨_, rfl, bind_ok.2 ⟨_, h.foreground, ?_⟩⟩
    refine bind_ok.2 ⟨_, rfl, bind_ok.2 ⟨_, h.nonText, bind_ok.2 ⟨_, h.config, ?_⟩⟩⟩
    rw [← h.semantics, ← h.warnings]
    rfl

theorem read_of_compileUnchecked {d : Document} {p : Spec} (h : compileUnchecked d = .ok p) :
    ∃ texts parts, p.Read d texts parts := by
  cases d with
  | map ms =>
    obtain ⟨_, texts, parts, h⟩ := compileUnchecked_map.1 h
    have hget (name : String) : (Document.map ms).get name = .ok (ms.lookup (.text name)) := rfl
    obtain rfl := Document.eq_block (hget "config") h.choices
    exact ⟨texts, parts, made_of_get (hget _) h.ramps, h.layers, made_of_get (hget _) h.themes,
      made_of_get (hget _) h.foreground, made_of_get (hget _) h.nonText, h.semantics, h.config,
      h.warnings⟩
  | _ => cases h

namespace Read
variable {d : Document} {p : Spec} {texts parts : Entries Atom Semantic}

theorem ramp_name (h : p.Read d texts parts) : ∀ e ∈ p.ramps, e.2.name = e.1 := by
  intro e he
  obtain ⟨e', _, hk, hr⟩ := h.ramps.exists_of_mem he
  obtain ⟨items, _, hr⟩ := bind_ok.1 hr
  obtain ⟨colors, _, hr⟩ := bind_ok.1 hr
  rw [hk, ← pure_ok.1 hr]

theorem coherent (h : p.Read d texts parts) (hd : d.isKeyed = true) : p.Coherent := by
  have distinct {α : Type} {name : String} {f : Atom × Document → Except Fault α}
      {m : Entries Atom α} (hm : Made f (d.block name) m) : m.Distinct :=
    (Entries.distinct_congr hm.keys_eq).2
      ((Document.isKeyed_map _).1 (Document.isKeyed_block hd name)).1
  have keyed {name : String} : ∀ e ∈ d.block name, e.2.isKeyed = true :=
    ((Document.isKeyed_map _).1 (Document.isKeyed_block hd name)).2
  have fits {target : Target} {name : String} {m : Entries Atom Semantic}
      (hm : Made (fun e => Semantic.ofDocument p.ramps target e.1 e.2) (d.block name) m) :
      ∀ e ∈ m, e.2.Fits p.ramps := by
    intro e he
    obtain ⟨e', he', _, ht⟩ := hm.exists_of_mem he
    exact (Semantic.read_of_ofDocument ht).fits h.ramp_name (keyed e' he')
  exact {
    distinct_ramps := distinct h.ramps
    ramp := h.ramp_name
    distinct_layers := Stacks.distinct_ofDocument
      (Document.isKeyed_block (Document.isKeyed_block hd "config") "stacks") h.layers
    distinct_themes := distinct h.themes
    theme := fun e he => by
      obtain ⟨e', _, hk, ht⟩ := h.themes.exists_of_mem he
      obtain ⟨hname, hfits⟩ := Theme.fits_of_ofDocument h.ramp_name ht
      exact ⟨hname.trans hk.symm, hfits⟩
    distinct_semantics := h.semantics ▸ Entries.distinct_ofList _
    semantic := fun e he => by
      rw [h.semantics] at he
      obtain ⟨e', he', _, hv⟩ := Entries.exists_of_mem_ofList he
      rw [← hv]
      rcases List.mem_append.1 he' with he' | he'
      · exact fits h.texts_made e' he'
      · exact fits h.parts_made e' he' }

end Read

theorem coherent_of_compileUnchecked {d : Document} (hd : d.isKeyed = true) {p : Spec}
    (h : compileUnchecked d = .ok p) : p.Coherent := by
  obtain ⟨texts, parts, h⟩ := read_of_compileUnchecked h
  exact h.coherent hd

end Spec
end Palette
