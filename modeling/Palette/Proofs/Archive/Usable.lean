import Mathlib.Data.Fintype.EquivFin
import Palette.Archive.Audit
import Palette.CommandLine.Command
import Palette.Proofs.Archive.Refused
import Palette.Proofs.Archive.Transport
import Palette.Proofs.Archive.Visions
import Palette.Proofs.Registry.Sentences

/-!
# What can be done with an archive

Not every archive that is read can be used. An audit tells of each variant that fails, and for that
the parts of its key have to be texts and its required contrast a number in the range of floats.
A search comes to the fallback themes of the theme that is asked for, and these have to be keys.

* `Archive.Describable`           variants that an audit can tell of;
* `Archive.audit_ok_iff`          an audit ends where all that fail are;
* `Archive.audit_run`             so does the command, and else it fails before it says anything;
* `Archive.search_ok`, `Archive.search_none`   a search ends, or meets a name that is no key;
* `Archive.resolve_ok_iff`        all searches for texts end where all fallback themes are keys;
* `Archive.usable_iff`            all three, for what is read from a document.
-/

namespace Palette
open Outcome

/-! ## sentences -/

theorem Document.general_ok_iff (d : Document) :
    (∃ s, d.general = .ok s) ↔ Spec.isNumber d = true ∧ d.exceeds = false := by
  cases d with
  | int n =>
    show (∃ s, (floatOfInt n >>= _) = .ok s) ↔ _
    by_cases hx : (Document.int n).exceeds = true
    · have hn : floatOfInt n = .error .overflow := number_of_exceeds hx
      refine iff_of_false ?_ fun h => Bool.false_ne_true (h.2.symm.trans hx)
      rintro ⟨s, hs⟩
      rw [hn] at hs
      cases hs
    · refine iff_of_true ⟨_, bind_ok.2 ⟨_, if_neg hx, rfl⟩⟩ ⟨rfl, Bool.eq_false_iff.2 hx⟩
  | bool b => exact iff_of_true ⟨_, rfl⟩ ⟨rfl, rfl⟩
  | float x => exact iff_of_true ⟨_, rfl⟩ ⟨rfl, rfl⟩
  | _ => exact iff_of_false (fun ⟨_, h⟩ => nomatch h) (fun h => nomatch h.1)

namespace Archive
variable {a : Archive}

/-- Can a variant be told of? -/
structure Describable (e : VariantKey × StoredVariant) : Prop where
  key : ∀ x ∈ e.1.parts, x.isText = true
  required : ∀ d ∈ e.2.evaluation.required, Spec.isNumber d = true ∧ d.exceeds = false

theorem describe_ok_iff (e : VariantKey × StoredVariant) :
    (∃ s, describe e.1 e.2 = .ok s) ↔ Describable e := by
  have hsplit : (∃ s, describe e.1 e.2 = .ok s) ↔
      (∀ d ∈ e.2.evaluation.required, ∃ s, d.general = .ok s) ∧ ∃ s, e.1.text = .ok s := by
    rw [describe]
    cases e.2.evaluation.required with
    | none =>
      constructor
      · rintro ⟨s, hs⟩
        obtain ⟨_, _, hs⟩ := bind_ok.1 hs
        obtain ⟨key, hk, _⟩ := bind_ok.1 hs
        exact ⟨fun d hd => absurd hd (Option.not_mem_none d), key, hk⟩
      · rintro ⟨_, key, hk⟩
        exact ⟨_, bind_ok.2 ⟨_, rfl, bind_ok.2 ⟨key, hk, rfl⟩⟩⟩
    | some d =>
      constructor
      · rintro ⟨s, hs⟩
        obtain ⟨required, hr, hs⟩ := bind_ok.1 hs
        obtain ⟨key, hk, _⟩ := bind_ok.1 hs
        exact ⟨fun d' hd => Option.mem_some.1 hd ▸ ⟨required, hr⟩, key, hk⟩
      · rintro ⟨hr, key, hk⟩
        obtain ⟨required, hr⟩ := hr d rfl
        exact ⟨_, bind_ok.2 ⟨required, hr, bind_ok.2 ⟨key, hk, rfl⟩⟩⟩
  rw [hsplit, VariantKey.text_ok_iff]
  constructor
  · rintro ⟨hr, hk⟩
    exact ⟨hk, fun d hd => (Document.general_ok_iff d).1 (hr d hd)⟩
  · rintro ⟨hk, hr⟩
    exact ⟨fun d hd => (Document.general_ok_iff d).2 (hr d hd), hk⟩

theorem audit_ok_iff (a : Archive) :
    (∃ said, a.audit = .ok said) ↔ ∀ e ∈ a.failing, Describable e := by
  constructor
  · rintro ⟨said, hsaid⟩ e he
    obtain ⟨s, _, hs⟩ := exists_of_mem_left (mapM_ok.1 hsaid) he
    exact (describe_ok_iff e).1 ⟨s, hs⟩
  · exact fun h => exists_mapM_ok fun e he => (describe_ok_iff e).2 (h e he)

end Archive

/-! ## the command -/

namespace Shell
variable {α β : Type} {x : Action α} {f : α → Action β} {s s' : Shell}

/-- what comes after a step that ends -/
theorem run_bind_of_ok {b : α} (h : (x.run).run s = (.ok b, s')) :
    ((x >>= f).run).run s = ((f b).run).run s' := by
  rw [ExceptT.run_bind, StateT.run_bind, h]
  rfl

/-- nothing comes after a step that fails -/
theorem run_bind_of_error {why : Fault} (h : (x.run).run s = (.error why, s')) :
    ((x >>= f).run).run s = (.error why, s') := by
  rw [ExceptT.run_bind, StateT.run_bind, h]
  rfl

theorem run_lift (x : Except Fault α) (s : Shell) :
    ((liftM x : Action α).run).run s = (x, s) := rfl

theorem run_present (a : α) (s : Shell) : ((present (some a)).run).run s = (.ok a, s) := rfl

theorem run_look (f : Disk → Except Fault α) (s : Shell) :
    ((look f).run).run s = (f s.disk, s) := rfl

theorem run_say (line : String) (s : Shell) :
    ((say line).run).run s = (.ok (), { s with out := s.out ++ [line] }) := rfl

theorem run_forM_say (lines : List String) (s : Shell) :
    ((lines.forM say).run).run s = (.ok (), { s with out := s.out ++ lines }) := by
  induction lines generalizing s with
  | nil =>
    rw [List.append_nil]
    rfl
  | cons line lines ih =>
    show ((say line >>= fun _ => lines.forM say).run).run s = _
    rw [run_bind_of_ok (run_say line s), ih, List.append_assoc, List.singleton_append]

end Shell

namespace Archive
variable {a : Archive} {disk : Disk} {path : String}

/-- an audit that ends says what it found and a line more; one that does not says nothing -/
theorem audit_run (h : disk.archive path = .ok a) (strict : Bool) (now : String) :
    (∀ said, a.audit = .ok said → ∃ last,
      (Command.audit (some path) strict).run now disk =
        (.done (if strict && !said.isEmpty then 1 else 0) (said ++ [last]) [], disk)) ∧
      ∀ why, a.audit = .error why →
        (Command.audit (some path) strict).run now disk = (.failed why [] [], disk) := by
  have hlook : ((Shell.look fun d => d.archive path).run).run ⟨disk, [], []⟩ =
      (.ok a, ⟨disk, [], []⟩) := by
    rw [Shell.run_look, h]
  rw [Command.run, Command.action, Command.runAudit,
    Shell.run_bind_of_ok (Shell.run_present path _), Shell.run_bind_of_ok hlook]
  constructor
  · intro said hsaid
    rw [Shell.run_bind_of_ok (b := said) (by rw [Shell.run_lift, hsaid]),
      Shell.run_bind_of_ok (Shell.run_forM_say said _), Shell.run_bind_of_ok (Shell.run_say _ _)]
    exact ⟨_, rfl⟩
  · intro why hwhy
    have hlift : ((liftM a.audit : Action (List String)).run).run ⟨disk, [], []⟩ =
        (.error why, ⟨disk, [], []⟩) := by
      rw [Shell.run_lift, hwhy]
    rw [Shell.run_bind_of_error hlift]

end Archive

/-! ## searches -/

/-- there is a text that is none of some keys -/
theorem Atom.exists_fresh (keys : List Atom) : ∃ s, ∀ k ∈ keys, (k == .text s) = false := by
  obtain ⟨s, hs⟩ := Infinite.exists_notMem_finset (keys.filterMap Atom.text?).toFinset
  refine ⟨s, fun k hk => Bool.eq_false_iff.2 fun hks => hs ?_⟩
  rw [Atom.eq_of_text_beq (BEq.symm hks)] at hk
  exact List.mem_toFinset.2 (List.mem_filterMap.2 ⟨_, hk, rfl⟩)

namespace Archive
variable {a : Archive}

/-- a search among keys ends -/
theorem search_ok {keys : List (Option VariantKey)} (h : ∀ k ∈ keys, k.isSome = true) :
    ∃ found, a.search keys = .ok found := by
  induction keys with
  | nil => exact ⟨none, rfl⟩
  | cons o keys ih =>
    obtain ⟨ho, hkeys⟩ := List.forall_mem_cons.1 h
    obtain ⟨k, rfl⟩ := Option.isSome_iff_exists.1 ho
    rw [search]
    cases a.variants.get? k with
    | some v => exact ⟨some v.hex, rfl⟩
    | none => exact ih hkeys

/-- a search that finds nothing meets each name that is no key -/
theorem search_none {keys : List (Option VariantKey)} (hnone : none ∈ keys)
    (h : ∀ k, some k ∈ keys → a.variants.get? k = none) : a.search keys = .error .wrongKind := by
  induction keys with
  | nil => exact absurd hnone List.not_mem_nil
  | cons o keys ih =>
    cases o with
    | none => rfl
    | some k =>
      rw [search, h k List.mem_cons_self]
      refine ih ?_ fun k' hk' => h k' (List.mem_cons_of_mem _ hk')
      simpa using hnone

theorem token_of_mem_candidates {token : Atom} {c : Lookup} {k : VariantKey}
    (hk : some k ∈ a.candidates token c) : k.token = token := by
  rcases List.mem_append.1 hk with hk | hk
  · obtain ⟨k', hk', heq⟩ := List.mem_map.1 hk
    obtain rfl := Option.some.inj heq
    obtain ⟨s, _, hm⟩ := List.mem_flatMap.1 hk'
    obtain ⟨v, _, rfl⟩ := List.mem_map.1 hm
    rfl
  · obtain ⟨theme, _, hm⟩ := List.mem_flatMap.1 hk
    obtain ⟨v, _, hm⟩ := List.mem_map.1 hm
    obtain ⟨t, _, rfl⟩ := Option.map_eq_some_iff.1 hm
    rfl

theorem none_mem_candidates {token : Atom} {c : Lookup} :
    none ∈ a.candidates token c ↔
      ∃ d ∈ (a.fallbacks.lookup c.theme).getD [], d.atom? = none := by
  rw [candidates, List.mem_append]
  constructor
  · rintro (hk | hk)
    · obtain ⟨_, _, h⟩ := List.mem_map.1 hk
      cases h
    · obtain ⟨d, hd, hk⟩ := List.mem_flatMap.1 hk
      obtain ⟨_, _, hk⟩ := List.mem_map.1 hk
      exact ⟨d, hd, Option.map_eq_none_iff.1 hk⟩
  · rintro ⟨d, hd, hnone⟩
    refine .inr (List.mem_flatMap.2 ⟨d, hd, ?_⟩)
    rw [fallbackKeys, hnone]
    refine List.mem_map.2 ⟨plain, ?_, rfl⟩
    rw [visions]
    split
    · exact List.mem_singleton_self _
    · exact List.mem_cons_of_mem _ (List.mem_singleton_self _)

/-- a color that no variant has is searched for to the end -/
theorem resolve_fresh (a : Archive) {c : Lookup}
    (h : ∃ d ∈ (a.fallbacks.lookup c.theme).getD [], d.atom? = none) :
    ∃ token, a.resolve (.text token) c = .error .wrongKind := by
  obtain ⟨token, hfresh⟩ := Atom.exists_fresh (a.variants.toList.map (·.1.token))
  refine ⟨token, ?_⟩
  rw [resolve_eq_search, search_none (none_mem_candidates.2 h)]
  · rfl
  · intro k hk
    rw [← OrderedMap.lookup_toList]
    refine Entries.lookup_eq_none fun k' hk' => ?_
    obtain ⟨v, hm⟩ := Entries.mem_keys.1 hk'
    rw [← Bool.not_eq_true, BEq.comm, VariantKey.beq_iff_parts, token_of_mem_candidates hk]
    exact fun hparts => Bool.false_ne_true
      ((hfresh _ (List.mem_map.2 ⟨_, hm, rfl⟩)).symm.trans hparts.1)

/-- are the fallback themes of all themes that can be asked for keys? -/
def Reaches (a : Archive) : Prop :=
  ∀ e ∈ a.fallbacks, e.1.isText = true → ∀ d ∈ e.2, d.atom?.isSome = true

theorem resolve_ok_iff (hd : a.fallbacks.Distinct) :
    (∀ token fontSize theme stack vision : String, ∃ color,
      a.resolve (.text token) (.ofNames fontSize theme stack vision) = .ok color) ↔ a.Reaches := by
  constructor
  · intro h e he htext d hmem
    obtain ⟨theme, ht⟩ := Atom.exists_of_isText htext
    refine Option.isSome_iff_ne_none.2 fun hnone => ?_
    obtain ⟨token, htoken⟩ := a.resolve_fresh (c := .ofNames "" theme "" "") ⟨d, by
      show d ∈ (a.fallbacks.lookup (.text theme)).getD []
      rw [← ht, Entries.lookup_of_mem hd he]
      exact hmem, hnone⟩
    obtain ⟨color, hcolor⟩ := h token "" theme "" ""
    cases htoken.symm.trans hcolor
  · intro h token fontSize theme stack vision
    rw [resolve_eq_search]
    have hkeys : ∀ k ∈ a.candidates (.text token) (.ofNames fontSize theme stack vision),
        k.isSome = true := by
      intro k hk
      refine Option.isSome_iff_ne_none.2 fun hnone => ?_
      obtain ⟨d, hmem, hatom⟩ := none_mem_candidates.1 (hnone ▸ hk)
      cases hl : a.fallbacks.lookup (.text theme) with
      | none =>
        rw [Lookup.ofNames, hl] at hmem
        exact absurd hmem List.not_mem_nil
      | some ds =>
        rw [Lookup.ofNames, hl] at hmem
        obtain ⟨k', he, hk'⟩ := Entries.exists_of_lookup hl
        obtain rfl := Atom.eq_of_text_beq hk'
        have hsome := h _ he rfl d hmem
        rw [hatom] at hsome
        cases hsome
    obtain ⟨found, hfound⟩ := search_ok hkeys
    exact ⟨_, by rw [hfound]; rfl⟩

/-! ## what is read -/

theorem parts_of_ofDocument {d : Document} (h : ofDocument d = .ok a) : parts d = .ok a := by
  obtain ⟨version, _, h⟩ := bind_ok.1 h
  dsimp only at h
  split at h
  · cases h
  · cases hp : parts d with
    | ok b =>
      rw [hp] at h
      exact h
    | error f =>
      rw [hp] at h
      cases h

theorem distinct_fallbacks_of_ofDocument {d : Document} (h : ofDocument d = .ok a) :
    a.fallbacks.Distinct := by
  obtain ⟨_, _, h⟩ := bind_ok.1 (parts_of_ofDocument h)
  obtain ⟨_, _, h⟩ := bind_ok.1 h
  obtain ⟨variants, _, h⟩ := bind_ok.1 h
  obtain ⟨_, _, h⟩ := bind_ok.1 h
  obtain ⟨ramps, _, h⟩ := bind_ok.1 h
  obtain ⟨_, _, h⟩ := bind_ok.1 h
  obtain ⟨themes, _, h⟩ := bind_ok.1 h
  obtain ⟨_, _, h⟩ := bind_ok.1 h
  obtain ⟨fallbacks, hf, h⟩ := bind_ok.1 h
  obtain ⟨_, _, h⟩ := bind_ok.1 h
  obtain ⟨layers, _, h⟩ := bind_ok.1 h
  obtain ⟨_, _, h⟩ := bind_ok.1 h
  obtain ⟨defaults, _, h⟩ := bind_ok.1 h
  obtain ⟨_, _, h⟩ := bind_ok.1 h
  obtain ⟨info, _, h⟩ := bind_ok.1 h
  obtain ⟨_, _, h⟩ := bind_ok.1 h
  obtain ⟨warnings, _, h⟩ := bind_ok.1 h
  obtain rfl := pure_ok.1 h
  exact distinct_of_entriesOf hf

/-- Of what is read from a document, an audit returns, and its command ends with 0 or 1, exactly if
all variants that fail can be told of; and all texts can be resolved in all contexts of texts
exactly if the fallback themes of all themes that are texts are keys. -/
theorem usable_iff {d : Document} (h : ofDocument d = .ok a) :
    ((∃ said, a.audit = .ok said) ↔ ∀ e ∈ a.failing, Describable e) ∧
      (∀ (disk : Disk) (path : String), disk.archive path = .ok a →
        ∀ (strict : Bool) (now : String), (∃ exit out err, exit ≤ 1 ∧
          ((Command.audit (some path) strict).run now disk).1 = .done exit out err) ↔
            ∀ e ∈ a.failing, Describable e) ∧
      ((∀ token fontSize theme stack vision : String, ∃ color,
        a.resolve (.text token) (.ofNames fontSize theme stack vision) = .ok color) ↔
          a.Reaches) := by
  refine ⟨audit_ok_iff a, fun disk path hdisk strict now => ?_,
    resolve_ok_iff (distinct_fallbacks_of_ofDocument h)⟩
  obtain ⟨hends, hfails⟩ := audit_run hdisk strict now
  rw [← audit_ok_iff]
  cases haudit : a.audit with
  | ok said =>
    obtain ⟨last, hrun⟩ := hends said haudit
    refine iff_of_true ⟨_, _, _, ?_, by rw [hrun]⟩ ⟨said, rfl⟩
    split
    · exact Nat.le_refl 1
    · exact Nat.zero_le 1
  | error why =>
    refine iff_of_false ?_ fun ⟨_, hok⟩ => nomatch hok
    rintro ⟨exit, out, err, _, hdone⟩
    rw [hfails why haudit] at hdone
    cases hdone

end Archive

/-- an archive edited by hand: a key with a number for a name, a fallback theme that is a list -/
def Sample.stray : Document := .record [
  ("version", .int 2),
  ("meta", .record [("generatedAt", .null), ("totalVariants", .int 1), ("tokenCount", .int 1),
    ("complianceEngine", .text "wcag21"), ("wcagTarget", .text "AA"), ("inputHash", .text "")]),
  ("ramps", .list []),
  ("themes", .list []),
  ("themeFallbacks", .list [.list [.text "day", .list [.list [.text "night"]]]]),
  ("stacks", .list []),
  ("variantMap", .list [
    .list [.list [.int 1, .text "16px", .text "day", .text "root"],
      .record [("ramp", .text "gray"), ("step", .int 0), ("hex", .text "white"),
        ("compliance", .record [("pass", .bool false), ("metric", .text "wcag21"),
          ("value", .float 1.5), ("required", .float 4.5)])]]]),
  ("defaults", .record [])]

/-- its variant -/
def Sample.strayVariant : VariantKey × StoredVariant :=
  (⟨.int 1, .text "16px", .text "day", .text "root", .text "default"⟩,
    { ramp := .text "gray", step := .int 0, hex := .text "white"
      evaluation := { passed := false, metric := "wcag21", value := 1.5
                      required := some (.float 4.5), polarity := none } })

/-- the archive that it holds -/
def Sample.strayArchive : Archive := (Archive.ofDocument stray).toOption.get (by decide)

/-- it is read, but it can neither be audited nor resolved -/
theorem Archive.usable_iff_stray :
    ofDocument Sample.stray = .ok Sample.strayArchive ∧
      (¬∃ said, Sample.strayArchive.audit = .ok said) ∧
      ¬∀ token fontSize theme stack vision : String, ∃ color, Sample.strayArchive.resolve
        (.text token) (.ofNames fontSize theme stack vision) = .ok color := by
  have hread : ofDocument Sample.stray = .ok Sample.strayArchive := eq_ok_get _
  obtain ⟨haudit, _, hresolve⟩ := usable_iff hread
  refine ⟨hread, fun h => ?_, fun h => ?_⟩
  · have hvariants : Sample.strayArchive.variants = .ofList [Sample.strayVariant] := rfl
    have hmem : Sample.strayVariant ∈ Sample.strayArchive.failing := by
      rw [failing, hvariants, OrderedMap.toList_ofList]
      exact List.mem_singleton_self _
    exact Bool.false_ne_true ((haudit.1 h _ hmem).key _ List.mem_cons_self)
  · have hall : (Sample.strayArchive.fallbacks.all fun e => !e.1.isText ||
        e.2.all fun d => d.atom?.isSome) = false := by decide
    refine Bool.false_ne_true (hall.symm.trans ?_)
    refine List.all_eq_true.2 fun e he => ?_
    cases htext : e.1.isText with
    | false => rfl
    | true => exact List.all_eq_true.2 (hresolve.1 h e he htext)

end Palette
