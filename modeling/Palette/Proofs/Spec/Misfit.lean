import Palette.Proofs.Spec.Gate

/-!
# What passes the check and does not compile

A value that passes the check compiles, if its colors are texts and its thresholds are floats, but
for two things that the check does not look at. The base level may have an offset of its own, and
an entry for a deficiency may name a ramp that ends before the step that it takes over.

* `Document.movesRoot`, `Document.overreaches`   the two things;
* `Spec.exists_ramp`     the check and the compilation find the same ramps, with the same lengths;
* `Spec.root_of_ofDocument`, `Spec.endsBefore_of_semantic`   what is read has neither of them;
* `Spec.compile_eq_error_iff`   so these are the values that do not compile.
-/

namespace Palette
open Outcome

/-- does an entry that gives no step name a ramp that ends before a step? -/
def Spec.Scope.endsBefore (sc : Scope) (step : Option Document) (entry : Document) : Bool :=
  match (membersOf entry).lookup (.text "ramp"), (membersOf entry).lookup (.text "defaultStep"),
    step with
  | some name, none, some (.int n) => (sc.rampLength? name).any fun (length : Nat) => length ≤ n
  | _, _, _ => false

namespace Document

/-- does a specification give the base level another offset than zero? -/
def movesRoot (d : Document) : Bool :=
  match ((Document.map (d.block "config")).block "stacks").lookup Stacks.base with
  | some (.int n) => n != 0
  | _ => false

/-- does an entry for a deficiency take over a step that its ramp does not have? -/
def overreaches (d : Document) : Bool :=
  (d.block "foreground" ++ d.block "nonText").any fun t => (t.2.block "vision").any fun e =>
    (Spec.scope (Spec.membersOf d)).endsBefore ((Spec.membersOf t.2).lookup (.text "defaultStep"))
      e.2

/-- is the value a float? -/
def isFloat : Document → Bool
  | .float _ => true
  | _ => false

end Document

namespace Spec
variable {F : Fault → Prop} {sc : Scope} {ramps : Ramps}

/-! ## references -/

theorem endsBefore_iff {step : Option Document} {entry : Document} :
    sc.endsBefore step entry = true ↔
      ∃ (name : Document) (length : Nat) (n : Int),
        (membersOf entry).lookup (.text "ramp") = some name ∧
        (membersOf entry).lookup (.text "defaultStep") = none ∧ step = some (.int n) ∧
        sc.rampLength? name = some length ∧ length ≤ n := by
  unfold Scope.endsBefore
  constructor
  · intro h
    split at h
    · next name n hname hnone =>
      obtain ⟨length, hl, hle⟩ := (Option.any_eq_true _ _).1 h
      exact ⟨name, length, n, hname, hnone, rfl, hl, of_decide_eq_true hle⟩
    · cases h
  · rintro ⟨name, length, n, hname, hnone, rfl, hl, hle⟩
    simp [hname, hnone, hl, hle]

theorem offers_of_length {r : Ramp} {length : Nat} (h : r.length = length) : r.Offers F length := by
  intro owner step hs
  cases step with
  | int n =>
    simp only [isStep, Bool.and_eq_true, decide_eq_true_eq] at hs
    have hstep : r.hasStep n = true := by
      rw [r.hasStep_iff, h]
      exact hs
    rw [(r.require_eq_ok_iff owner _ (.number n)).2 ⟨rfl, hstep⟩]
    exact .ok _
  | _ => cases hs

section
variable (hm : Made (fun e => Ramp.ofDocument e.1 e.2) sc.ramps ramps)
include hm

/-- a name that leads the check to a list leads to the ramp of this list -/
theorem exists_ramp {name : Document} {length : Nat} (h : sc.rampLength? name = some length) :
    ∃ r, (∀ owner, ramps.require owner (some name) = .ok r) ∧ r.name.document = name ∧
      r.length = length := by
  rw [Scope.rampLength?] at h
  split at h
  · next steps hl =>
    obtain rfl := Option.some.inj h
    obtain ⟨n, hn, hl⟩ := Option.bind_eq_some_iff.1 hl
    obtain ⟨k, r, hk, hr, hfound⟩ := hm.lookup_eq_some hl
    obtain rfl := Atom.eq_of_text_beq hk
    obtain ⟨items, hitems, hr⟩ := bind_ok.1 hr
    obtain rfl := Except.ok.inj hitems
    obtain ⟨colors, hcolors, hr⟩ := bind_ok.1 hr
    obtain rfl := pure_ok.1 hr
    have hlength := (mapM_ok.1 hcolors).length_eq
    have hname : name = .text n := by
      cases name with
      | text s => exact congrArg _ (Option.some.inj hn)
      | _ => cases hn
    rw [hname]
    refine ⟨⟨.text n, colors⟩, fun owner => ?_, rfl, hlength.symm⟩
    rw [Ramps.require]
    simp only [Option.bind_some, Document.text?, hfound]
  · cases h

theorem reach_of_made : Reach F sc ramps := by
  have leads {name : Document} {length : Nat} (h : sc.rampLength? name = some length) :
      Leads F ramps name length := by
    obtain ⟨r, hr, _, hlength⟩ := exists_ramp hm h
    intro owner
    rw [hr]
    refine ⟨.ok r, fun r' hr' => ?_⟩
    obtain rfl := Except.ok.inj hr'
    exact offers_of_length hlength
  refine ⟨leads, fun {name length owner r} h hr => ?_⟩
  obtain ⟨r', hr', hname, _⟩ := exists_ramp hm h
  obtain rfl := Except.ok.inj (hr.symm.trans (hr' owner))
  rw [hname]
  exact leads h

end

/-! ## what is read -/

theorem same_int (m n : Int) : (Document.int m).same (.int n) = true ↔ m = n := by
  show (Atom.int m == Atom.int n) = true ↔ _
  rw [Atom.beq_iff, Atom.key, Atom.key, Key.int.injEq]

theorem root_of_ofDocument {o : Option Document} {layers : Stacks}
    (h : Stacks.ofDocument o = .ok layers) {n : Int}
    (hn : (membersOf (o.getD .null)).lookup Stacks.base = some (.int n)) : n = 0 := by
  rcases Stacks.of_ofDocument h with ⟨hnil, _⟩ | ⟨hroot, _⟩
  · rw [hnil] at hn
    cases hn
  · rw [hn] at hroot
    exact (same_int _ _).1 hroot

section
variable (hm : Made (fun e => Ramp.ofDocument e.1 e.2) sc.ramps ramps)
include hm

theorem endsBefore_of_entry {r : Ramp} {default : Choice} {step : Option Document}
    {entry : Document} {v : VisionEntry} (hs : step.bind Choice.ofDocument? = some default)
    (h : v.Read ramps r default entry) : sc.endsBefore step entry = false := by
  rw [← Bool.not_eq_true, endsBefore_iff]
  rintro ⟨name, length, n, hname, hnone, rfl, hl, hle⟩
  obtain rfl := Option.some.inj hs
  obtain ⟨r', hr', _, hlength⟩ := exists_ramp hm hl
  obtain ⟨owner, hramp⟩ := h.ramp
  obtain ⟨_, hc⟩ := h.default
  rw [hname] at hramp
  rw [hnone] at hc
  have hfound : r' = v.ramp := Except.ok.inj ((hr' owner).symm.trans hramp)
  -- the step that is taken over is on the ramp, since it has been read
  obtain ⟨hchoice, hon⟩ := (v.ramp.require_eq_ok_iff _ _ v.default).1 hc
  rw [← Option.some.inj hchoice, v.ramp.hasStep_iff, ← hfound, hlength] at hon
  exact absurd hon.2 (Int.not_lt.2 hle)

theorem endsBefore_of_semantic {name : Atom} {d : Document} {t : Semantic}
    (h : t.Read ramps name d) : ∀ e ∈ d.block "vision",
      sc.endsBefore ((membersOf d).lookup (.text "defaultStep")) e.2 = false := by
  obtain ⟨_, hdefault⟩ := h.default
  obtain ⟨_, hv⟩ := h.vision
  intro e he
  obtain ⟨v, _, _, hv⟩ := exists_of_mem_left hv he
  exact endsBefore_of_entry hm ((t.ramp.require_eq_ok_iff _ _ t.default).1 hdefault).1
    (VisionEntry.read_of_ofDocument hv)

end

/-- what compiles leaves the base level where it is and takes over no step that is not there -/
theorem fits_of_compileUnchecked {d : Document} {p : Spec} (h : compileUnchecked d = .ok p) :
    d.movesRoot = false ∧ d.overreaches = false := by
  obtain ⟨texts, parts, h⟩ := read_of_compileUnchecked h
  constructor
  · unfold Document.movesRoot
    split
    · next n hn =>
      obtain rfl := root_of_ofDocument h.layers hn
      rfl
    · rfl
  · have hm : Made (fun e => Ramp.ofDocument e.1 e.2) (scope (membersOf d)).ramps p.ramps := h.ramps
    have within {target : Target} {name : String} {m : Entries Atom Semantic}
        (hs : Made (fun e => Semantic.ofDocument p.ramps target e.1 e.2) (d.block name) m) :
        ∀ t ∈ d.block name, ∀ e ∈ t.2.block "vision", (scope (membersOf d)).endsBefore
          ((membersOf t.2).lookup (.text "defaultStep")) e.2 = false := by
      intro t ht
      obtain ⟨_, _, _, hs⟩ := exists_of_mem_left hs ht
      exact endsBefore_of_semantic hm (Semantic.read_of_ofDocument hs)
    rw [Document.overreaches, List.any_eq_false]
    intro t ht
    rw [Bool.not_eq_true, List.any_eq_false]
    intro e he
    rw [Bool.not_eq_true]
    rcases List.mem_append.1 ht with ht | ht
    · exact within h.texts_made t ht e he
    · exact within h.parts_made t ht e he

/-! ## the whole -/

section
variable {d : Document}

/-- Is a fault one of references, in a specification that does one of the two things? -/
def Misfit (d : Document) (f : Fault) : Prop :=
  f.incoherent = true ∧ (d.movesRoot = true ∨ d.overreaches = true)

theorem only_misfit_stacks (h : stacksProblems ((d.block "config").lookup (.text "stacks")) = []) :
    Only (Misfit d) (Stacks.ofDocument ((d.block "config").lookup (.text "stacks"))) := by
  refine only_stacksOf (fun n hn hne => ⟨rfl, .inl ?_⟩) h
  rw [Document.movesRoot]
  rw [show ((Document.map (d.block "config")).block "stacks").lookup Stacks.base = some (.int n)
    from hn]
  simpa using hne

theorem inherits_misfit (hm : Made (fun e => Ramp.ofDocument e.1 e.2) (scope (membersOf d)).ramps
    ramps) : ∀ t ∈ d.block "foreground" ++ d.block "nonText", ∀ e ∈ t.2.block "vision",
      Inherits (Misfit d) (scope (membersOf d)) ramps
        (((membersOf t.2).lookup (.text "defaultStep")).getD .null) e.2 := by
  intro t ht e he own name length hstep hname hnone hlength owner r hr owner'
  obtain ⟨r', hr', _, hl⟩ := exists_ramp hm hlength
  obtain rfl := Except.ok.inj (hr.symm.trans (hr' owner))
  obtain ⟨step, hs, hstep⟩ := exists_of_isStep hstep
  rw [hs, Option.getD_some]
  cases step with
  | int n =>
    by_cases hle : (length : Int) ≤ n
    · have hover : d.overreaches = true := by
        rw [Document.overreaches, List.any_eq_true]
        refine ⟨t, ht, List.any_eq_true.2 ⟨e, he, endsBefore_iff.2 ?_⟩⟩
        exact ⟨name, length, n, hname, hnone, hs, hlength, hle⟩
      exact (only_requireStep _ _ _).imp fun f hf => ⟨hf, .inr hover⟩
    · refine offers_of_length hl _ _ ?_
      simp only [isStep, Bool.and_eq_true, decide_eq_true_eq] at hstep ⊢
      omega
  | _ => cases hstep

theorem only_misfit_ramps {ms : Entries Atom Document}
    (hcolors : ∀ c ∈ colors (.map ms), c.isText = true)
    (h : mapProblems "primitives" rampProblems (ms.lookup (.text "primitives")) = []) :
    Only F (rampsOf (ms.lookup (.text "primitives"))) := by
  refine only_rampsOf (fun c hc path hp => ?_) h
  have htext := hcolors c hc
  cases c with
  | text s =>
    obtain ⟨x, hx⟩ := ofDocument_of_checked hp
    show Only F (Hex.ofDocument (.text s))
    rw [hx]
    exact .ok x
  | _ => cases htext

theorem only_misfit {d : Document} (h : isValid d = true)
    (hcolors : ∀ c ∈ colors d, c.isText = true)
    (hthresholds : ∀ key ∈ thresholds, optional Document.isFloat
      (((Document.map (d.block "config")).block "cvd").lookup (.text key)) = true) :
    Only (Misfit d) (compileUnchecked d) := by
  rw [isValid, List.isEmpty_iff] at h
  cases d with
  | map ms =>
    have hconfig := mapOr_config h
    simp only [problems, memberProblems, List.append_eq_nil_iff] at h
    obtain ⟨⟨⟨⟨⟨⟨hramps, hthemes⟩, _⟩, htexts⟩, hparts⟩, _⟩, _⟩ := h
    -- the parts, in the order in which the compilation reads them
    refine only_get ((only_misfit_ramps hcolors hramps).bind fun ramps hr => only_get ?_)
    have hm : Made (fun e => Ramp.ofDocument e.1 e.2) (scope ms).ramps ramps :=
      made_of_get (d := .map ms) rfl hr
    have hinherits := inherits_misfit (d := .map ms) hm
    refine only_membersOf hconfig rfl fun hconfig => ?_
    have hstacks := hconfig
    simp only [configProblems, List.append_eq_nil_iff] at hstacks
    obtain ⟨⟨_, hstacks⟩, _⟩ := hstacks
    refine (only_misfit_stacks (d := .map ms) hstacks).bind fun layers _ => only_get ?_
    refine (only_themesOf (reach_of_made hm) hthemes).bind fun themes _ => only_get ?_
    refine Only.bind (only_sectionOf (reach_of_made hm) ?_ htexts) fun texts _ => only_get ?_
    · exact fun t ht => hinherits t (List.mem_append_left _ ht)
    refine Only.bind (only_sectionOf (reach_of_made hm) ?_ hparts) fun parts _ => ?_
    · exact fun t ht => hinherits t (List.mem_append_right _ ht)
    refine (only_ofMembers (fun key hk v hv _ => ?_) hconfig).bind fun _ _ => .ok _
    have hfloat := hthresholds key hk
    rw [show ((Document.map ((Document.map ms).block "config")).block "cvd").lookup (.text key) =
      some v from hv] at hfloat
    cases v with
    | float x => exact .ok x
    | _ => cases hfloat
  | _ => cases h

/-- A value that passes the check, with texts for colors and floats for thresholds, does not
compile exactly where the base level is moved or an entry for a deficiency takes over a step that
its ramp does not have. Then the fault is that parts do not fit together. -/
theorem compile_eq_error_iff {d : Document} (h : isValid d = true)
    (hcolors : ∀ c ∈ colors d, c.isText = true)
    (hthresholds : ∀ key ∈ thresholds, optional Document.isFloat
      (((Document.map (d.block "config")).block "cvd").lookup (.text key)) = true) :
    ((∃ f, compile d = .error f) ↔ d.movesRoot = true ∨ d.overreaches = true) ∧
      (∀ f, compile d = .error f → f.incoherent = true) ∧
      (¬(d.movesRoot = true ∨ d.overreaches = true) → ∃ p, compile d = .ok p) := by
  have hcompile : compile d = compileUnchecked d := by
    have hvalid : requireValid d = .ok () := if_pos h
    rw [compile, hvalid]
    rfl
  have honly := only_misfit h hcolors hthresholds
  rw [hcompile]
  refine ⟨⟨?_, ?_⟩, fun f hf => (honly f hf).1, fun hn => ?_⟩
  · rintro ⟨f, hf⟩
    exact (honly f hf).2
  · intro hmisfit
    cases hc : compileUnchecked d with
    | error f => exact ⟨f, rfl⟩
    | ok p =>
      obtain ⟨hroot, hover⟩ := fits_of_compileUnchecked hc
      rw [hroot, hover] at hmisfit
      simp at hmisfit
  · cases hc : compileUnchecked d with
    | error f => exact absurd (honly f hc).2 hn
    | ok p => exact ⟨p, rfl⟩

end

end Spec

/-- an entry under a name that is no deficiency, on a ramp that ends before the step of the color -/
def Sample.short : Document := .record [
  ("primitives", .record [
    ("gray", .list [.text "#000", .text "#777777", .text "#FFFFFF"]),
    ("sand", .list [.text "#ffffff", .text "#000000"])]),
  ("themes", .record [("day", .record [("ramp", .text "gray"), ("step", .int 2)])]),
  ("nonText", .record [
    ("a", .record [("ramp", .text "gray"), ("defaultStep", .int 2),
      ("vision", .record [("dusk", .record [("ramp", .text "sand")])])])]),
  ("config", .record [
    ("stacks", .record [("root", .int 0), ("card", .int (-4))]),
    ("cvd", .record [("confusionThresholdDE", .float 3.5)])])]

/-- it passes the check and does not compile -/
theorem Spec.compile_eq_error_short :
    isValid Sample.short = true ∧ Sample.short.movesRoot = false ∧
      ∃ f, compile Sample.short = .error f ∧ f.incoherent = true := by
  have hvalid : isValid Sample.short = true := by decide
  have hover : Sample.short.overreaches = true := by decide
  obtain ⟨hiff, hkind, _⟩ := compile_eq_error_iff hvalid (by decide) (by decide)
  obtain ⟨f, hf⟩ := hiff.2 (.inr hover)
  exact ⟨hvalid, by decide, f, hf, hkind f hf⟩

end Palette
