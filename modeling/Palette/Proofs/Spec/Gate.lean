import Palette.Proofs.Color.Conversion
import Palette.Proofs.Spec.Parts

/-!
# What passes the check compiles

What the check has nothing to say against is read without a fault, but for three kinds of faults:

* parts that are well formed and do not fit together, which are for the compilation to find;
* numbers out of range, whose size the check does not look at;
* a color under the member `hex` of a color. The check looks into it, and the compilation wants a
  text there.

* `Fault.incoherent`, `Fault.outOfBounds`   the first two kinds;
* `Space.Refuses`, `Spec.OutOfRange`   the numbers of a specification that are out of range;
* `Spec.ofValue_of_checked`    colors;
* `reach_incoherent`           references;
* `only_section`, `only_themes`, `only_stacks`, `only_config`, `only_ramps`   the parts;
* `Spec.compile_of_isValid`    the whole.
-/

namespace Palette
open Outcome

namespace Fault

/-- do parts of a specification not fit together? -/
def incoherent : Fault → Bool
  | .rootOffset _ | .unknownRamp .. | .stepOutside .. => true
  | _ => false

/-- is a number too large to go on with? -/
def outOfBounds : Fault → Bool
  | .overflow | .unreadable .angle => true
  | _ => false

end Fault

/-! ## numbers out of range -/

/-- is a value a whole number beyond the range of floats? -/
def Document.TooLarge (d : Document) : Prop := ∃ n : Int, d = .int n ∧ Floating.tooLarge ≤ n.natAbs

theorem Document.tooLarge_of_floatOfInt {n : Int} :
    Only (fun f => f = .overflow ∧ (Document.int n).TooLarge) (floatOfInt n) := by
  rw [floatOfInt]
  split
  · next hinf => exact .error ⟨rfl, n, rfl, (Floating.isInf_toFloat_iff n).1 hinf⟩
  · exact .ok _

/-- Why is the color of three components in a space out of range? A component is too large, or a
power on the way to the color is, or the hue has no direction. -/
inductive Space.Refuses (s : Space) (a b c : Document) : Fault → Prop
  | component {d : Document} (hd : d ∈ [a, b, c]) (h : d.TooLarge) : Refuses s a b c .overflow
  | power {x y z : Float} (ha : component a = .ok x) (hb : component b = .ok y)
    (hc : component c = .ok z) (h : (s.powers ⟨x, y, z⟩).any Power.overflows = true) :
    Refuses s a b c .overflow
  | hue {z : Float} (hs : s.isPolar = true) (hc : component c = .ok z) (h : z.isInf = true) :
    Refuses s a b c (.unreadable .angle)

namespace Spec

/-- a color that a value gives by a space and components is out of range -/
inductive ColorOutOfRange : Document → Fault → Prop
  | parts {ms : Entries Atom Document} {s : Space} {a b c : Document} {f : Fault}
    (space : ms.lookup (.text "colorSpace") = some (.text s.name))
    (components : ms.lookup (.text "components") = some (.list [a, b, c]))
    (h : s.Refuses a b c f) : ColorOutOfRange (.map ms) f

/-- a color of a specification or one of its thresholds is out of range -/
inductive OutOfRange (d : Document) : Fault → Prop
  | color {c : Document} {f : Fault} (hc : c ∈ colors d) (h : ColorOutOfRange c f) : OutOfRange d f
  | threshold {key : String} {v : Document} (hk : key ∈ thresholds)
    (hv : ((Document.map (d.block "config")).block "cvd").lookup (.text key) = some v)
    (h : v.TooLarge) : OutOfRange d .overflow

theorem OutOfRange.outOfBounds {d : Document} {f : Fault} (h : OutOfRange d f) :
    f.outOfBounds = true := by
  cases h with
  | color _ h =>
    obtain ⟨_, _, h⟩ := h
    cases h <;> rfl
  | threshold => rfl

theorem only_number {d : Document} (h : isNumber d = true) :
    Only (fun f => f = .overflow ∧ d.TooLarge) d.number := by
  cases d with
  | int n => exact Document.tooLarge_of_floatOfInt
  | float x => exact .ok x
  | bool b => exact .ok _
  | _ => cases h

theorem only_component {d : Document} (h : isComponent d = true) :
    Only (fun f => f = .overflow ∧ d.TooLarge) (Space.component d) := by
  cases d with
  | text s =>
    obtain rfl := eq_of_beq h
    exact .ok 0.0
  | int n => exact Document.tooLarge_of_floatOfInt
  | float x => exact .ok x
  | _ => cases h

/-! ## colors -/

/-- coordinates are refused for a power or for a hue, and for nothing else -/
theorem only_toHex {s : Space} {a b c : Document} {x y z : Float}
    (ha : Space.component a = .ok x) (hb : Space.component b = .ok y)
    (hc : Space.component c = .ok z) : Only (s.Refuses a b c) (s.toHex ⟨x, y, z⟩) := by
  rw [Space.toHex_eq]
  by_cases hz : s.isPolar = true → (Oklab.radians z).isInf = false
  · have htakes := s.takes_coordinates ⟨x, y, z⟩ hz
    cases hpowers : (s.powers ⟨x, y, z⟩).any Power.overflows with
    | true =>
      rw [htakes.overflow hpowers]
      exact .error (.power ha hb hc hpowers)
    | false =>
      obtain ⟨u, hu⟩ := htakes.ok hpowers
      rw [hu]
      exact .ok _
  · obtain ⟨hs, hr⟩ := Classical.not_imp.1 hz
    have hinf := Bool.of_not_eq_false hr
    rw [Space.coordinates_of_isPolar (v := ⟨x, y, z⟩) hs hinf]
    exact .error (.hue hs hc (Space.isInf_of_radians hinf))

/-- the map that a color has under `hex` -/
def innerColor? : Document → Option (Entries Atom Document)
  | .map ms =>
    match ms.lookup (.text "hex") with
    | some (.map inner) => some inner
    | _ => none
  | _ => none

theorem hexProblems_eq (path : String) (ms : Entries Atom Document) :
    hexProblems path ms = (ms.lookup (.text "hex")).bind fun d =>
      if d.isNull then none else some (colorProblems (path ++ ".hex") d) := by
  induction ms with
  | nil => rfl
  | cons e ms ih =>
    obtain ⟨k, d⟩ := e
    rw [hexProblems, List.lookup_cons]
    cases hk : Atom.text "hex" == k with
    | true => rfl
    | false => exact ih

/-- a space is read from its name -/
theorem eq_name_of_ofDocument? {o : Option Document} {s : Space}
    (h : Space.ofDocument? (o.getD .null) = some s) : o = some (.text s.name) := by
  cases o with
  | none => cases h
  | some d =>
    cases d with
    | text t =>
      have ht : (s.name == t) = true := List.find?_some (p := fun c : Space => c.name == t) h
      rw [eq_of_beq ht]
    | _ => cases h

theorem only_ofParts {ms : Entries Atom Document} {path : String}
    (h : partsProblems ms path = []) :
    Only (ColorOutOfRange (.map ms)) (Hex.ofParts ((ms.lookup (.text "colorSpace")).getD .null)
      ((ms.lookup (.text "components")).getD .null)) := by
  obtain ⟨hspace, hcomponents⟩ := List.append_eq_nil_iff.1 h
  obtain ⟨s, hs⟩ := Option.isSome_iff_exists.1 (demand_eq_nil.1 hspace)
  split at hcomponents
  · next a b c hl =>
    have hall := demand_eq_nil.1 hcomponents
    simp only [List.all_cons, List.all_nil, Bool.and_true, Bool.and_eq_true] at hall
    obtain ⟨ha, hb, hc⟩ := hall
    have part {d : Document} (hd : d ∈ [a, b, c]) (h : isComponent d = true) :
        Only (s.Refuses a b c) (Space.component d) := by
      refine (only_component h).imp ?_
      rintro f ⟨rfl, hlarge⟩
      exact .component hd hlarge
    rw [hl, Hex.ofParts, hs]
    refine Only.imp (F := s.Refuses a b c) ?_ fun f => .parts (eq_name_of_ofDocument? hs) hl
    exact (part (.head _) ha).bind fun _ hx => (part (.tail _ (.head _)) hb).bind fun _ hy =>
      (part (.tail _ (.tail _ (.head _))) hc).bind fun _ hz => only_toHex hx hy hz
  · cases hcomponents

theorem ofDocument_of_checked {path s : String} (h : colorProblems path (.text s) = []) :
    ∃ x, Hex.ofDocument (.text s) = .ok x := by
  rw [colorProblems] at h
  obtain ⟨x, hx⟩ := Option.isSome_iff_exists.1 (demand_eq_nil.1 h)
  exact ⟨x, by rw [Hex.ofDocument, Document.text?, Option.bind_some, hx]⟩

/-- A color that passes the check is refused for the size of its coordinates, or because there is a
map under `hex`. -/
theorem ofValue_of_checked {path : String} {c : Document} (h : colorProblems path c = []) :
    match innerColor? c with
    | some inner => Hex.ofValue c = .error (.notHex (.map inner))
    | none => Only (ColorOutOfRange c) (Hex.ofValue c) := by
  cases c with
  | text s =>
    obtain ⟨x, hx⟩ := ofDocument_of_checked h
    exact fun f hf => nomatch hx.symm.trans hf
  | map ms =>
    rw [colorProblems, hexProblems_eq] at h
    rw [innerColor?, Hex.ofValue]
    cases hl : ms.lookup (.text "hex") with
    | none =>
      rw [hl] at h
      exact only_ofParts h
    | some d =>
      rw [hl] at h
      cases d with
      | null => exact only_ofParts h
      | text s =>
        obtain ⟨x, hx⟩ := ofDocument_of_checked h
        have hs : (Document.text s).truthy = true := by
          refine bne_iff_ne.2 ?_
          rintro rfl
          cases hx
        show Only _ (if (Document.text s).truthy = true then _ else _)
        rw [if_pos hs, hx]
        exact .ok x
      -- the check goes into the map, and the compilation takes it for a text
      | map inner =>
        cases inner with
        | nil => cases h
        | cons e inner => rfl
      | _ => cases h
  | _ => cases h

/-! ## references -/

theorem only_requireRamp (ramps : Ramps) (owner : String) (name : Option Document) :
    Only (·.incoherent = true) (ramps.require owner name) := by
  rw [Ramps.require]
  split
  · exact .ok _
  · exact .error rfl

theorem only_requireStep (r : Ramp) (owner : String) (step : Option Document) :
    Only (·.incoherent = true) (r.require owner step) := by
  rw [Ramp.require]
  split
  · split
    · exact .ok _
    · exact .error rfl
  · exact .error rfl

theorem reach_incoherent (sc : Scope) (ramps : Ramps) : Reach (·.incoherent = true) sc ramps :=
  have leads (name : Document) (length : Nat) : Leads (·.incoherent = true) ramps name length :=
    fun _ => ⟨only_requireRamp _ _ _, fun _ _ _ _ _ => only_requireStep _ _ _⟩
  ⟨fun _ => leads _ _, fun _ _ => leads _ _⟩

/-! ## the parts -/

theorem only_section {sc : Scope} {s : String} {before : List Atom} {ramps : Ramps}
    {target : Target} {o : Option Document} (h : sectionProblems sc s before o = []) :
    Only (·.incoherent = true) (sectionOf ramps target o) :=
  only_sectionOf (reach_incoherent sc ramps)
    (fun _ _ _ _ _ _ _ _ _ _ _ _ _ _ _ => only_requireStep _ _ _) h

theorem only_themes {sc : Scope} {ramps : Ramps} {layers : Stacks} {o : Option Document}
    (h : mapProblems "themes" (fun n d => themeProblems sc s!"themes.{n.shown}" d) o = []) :
    Only (·.incoherent = true) (themesOf ramps layers o) :=
  only_themesOf (reach_incoherent sc ramps) h

theorem only_stacks {o : Option Document} (h : stacksProblems o = []) :
    Only (·.incoherent = true) (Stacks.ofDocument o) := only_stacksOf (fun _ _ _ => rfl) h

theorem only_config {d : Document} {sc : Scope} (themes : List Atom)
    (h : configProblems sc (.map (d.block "config")) = []) :
    Only (OutOfRange d) (Config.ofMembers (d.block "config") themes) := by
  refine only_ofMembers (fun key hk v hv hnumber => (only_number hnumber).imp ?_) h
  rintro f ⟨rfl, hlarge⟩
  exact .threshold hk hv hlarge

/-! ## the whole -/

/-- a map stands where one of some colors has to have a text -/
def InnerColor (cs : List Document) (f : Fault) : Prop :=
  ∃ c ∈ cs, ∃ inner, innerColor? c = some inner ∧ f = .notHex (.map inner)

theorem only_color {path : String} {c : Document} (h : colorProblems path c = []) :
    Only (fun f => ColorOutOfRange c f ∨ InnerColor [c] f) (Hex.ofValue c) := by
  have hc := ofValue_of_checked h
  split at hc
  · next inner hi =>
    intro f hf
    obtain rfl := Except.error.inj (hc.symm.trans hf)
    exact .inr ⟨c, List.mem_singleton.2 rfl, inner, hi, rfl⟩
  · exact hc.imp fun _ => .inl

theorem only_ramps {ms : Entries Atom Document}
    (h : mapProblems "primitives" rampProblems (ms.lookup (.text "primitives")) = []) :
    Only (fun f => OutOfRange (.map ms) f ∨ InnerColor (colors (.map ms)) f)
      (rampsOf (ms.lookup (.text "primitives"))) := by
  refine only_rampsOf (fun c hc path hp => (only_color hp).imp fun f hf =>
    hf.imp (OutOfRange.color hc) ?_) h
  rintro ⟨c', hc', inner, hi, rfl⟩
  obtain rfl := List.mem_singleton.1 hc'
  exact ⟨c', hc, inner, hi, rfl⟩

/-- Whatever passes the check compiles, unless parts do not fit together, a component of a color, a
power or a hue on its way or a threshold is out of range, or a color has a map under `hex`. -/
theorem compile_of_isValid {d : Document} (h : isValid d = true) :
    (∃ p, compile d = .ok p) ∨ ∃ f, compile d = .error f ∧
      (f.incoherent = true ∨ f.outOfBounds = true ∧ OutOfRange d f ∨ InnerColor (colors d) f) := by
  have hvalid : requireValid d = .ok () := if_pos h
  suffices hs : Only (fun f => f.incoherent = true ∨ OutOfRange d f ∨ InnerColor (colors d) f)
      (compileUnchecked d) by
    rw [compile, hvalid]
    show (∃ p, compileUnchecked d = .ok p) ∨ ∃ f, compileUnchecked d = .error f ∧ _
    cases hc : compileUnchecked d with
    | ok p => exact .inl ⟨p, rfl⟩
    | error f =>
      exact .inr ⟨f, rfl, (hs f hc).imp_right fun hf => hf.imp_left fun ho => ⟨ho.outOfBounds, ho⟩⟩
  rw [isValid, List.isEmpty_iff] at h
  cases d with
  | map ms =>
    have hconfig := mapOr_config h
    simp only [problems, memberProblems, List.append_eq_nil_iff] at h
    obtain ⟨⟨⟨⟨⟨⟨hramps, hthemes⟩, _⟩, htexts⟩, hparts⟩, _⟩, _⟩ := h
    have fits {α : Type} {x : Except Fault α} (hx : Only (·.incoherent = true) x) :
        Only (fun f => f.incoherent = true ∨ OutOfRange (.map ms) f ∨
          InnerColor (colors (.map ms)) f) x := hx.imp fun _ => .inl
    -- the parts, in the order in which the compilation reads them
    refine only_get (((only_ramps hramps).imp fun _ => .inr).bind fun ramps _ => only_get ?_)
    refine only_membersOf hconfig rfl fun hconfig => ?_
    have hstacks := hconfig
    simp only [configProblems, List.append_eq_nil_iff] at hstacks
    obtain ⟨⟨_, hstacks⟩, _⟩ := hstacks
    refine (fits (only_stacks hstacks)).bind fun layers _ => only_get ?_
    refine (fits (only_themes hthemes)).bind fun themes _ => only_get ?_
    refine (fits (only_section htexts)).bind fun texts _ => only_get ?_
    refine (fits (only_section hparts)).bind fun parts _ => ?_
    have hnumbers : Only (OutOfRange (.map ms)) _ := only_config (Entries.keys themes) hconfig
    exact (hnumbers.imp fun _ hf => .inr (.inl hf)).bind fun _ _ => .ok _
  | _ => cases h

end Spec

/-- a ramp whose color has a color of its own under `hex` -/
def Sample.nested : Document := .record [
  ("primitives", .record [
    ("gray", .list [.record [("hex", .record [("hex", .text "#fff")])]])]),
  ("themes", .record []),
  ("foreground", .record [])]

/-- it passes the check and does not compile -/
theorem Spec.compile_of_isValid_sample :
    isValid Sample.nested = true ∧ ∃ f, compile Sample.nested = .error f ∧
      f.incoherent = false ∧ f.outOfBounds = false ∧ InnerColor (colors Sample.nested) f := by
  have hvalid : isValid Sample.nested = true := by decide
  have hfails : compile Sample.nested = .error (.notHex (.record [("hex", .text "#fff")])) := rfl
  obtain ⟨p, hp⟩ | ⟨f, hf, hcause⟩ := compile_of_isValid hvalid
  · cases hfails.symm.trans hp
  · obtain rfl := Except.error.inj (hfails.symm.trans hf)
    obtain hcause | ⟨hcause, _⟩ | hcause := hcause
    · cases hcause
    · cases hcause
    · exact ⟨hvalid, _, hf, rfl, rfl, hcause⟩

end Palette
