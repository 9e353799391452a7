import Palette.Proofs.Spec.Coherent

/-!
# Names of colors

The colors of a specification are the declared ones and one for each state of them, under a name
that is derived from both names. Different pairs of a color and a state may derive one name, and a
derived name may be declared: the check refuses such specifications.

* `Spec.derived`, `Spec.names`   the derived names, and all names;
* `Spec.Named`           each color has the name that it is declared under;
* `Spec.Unambiguous`     no name stands for two colors;
* `derivedProblems_eq_nil`       when the check has nothing to say against derived names;
* `coherent_of_compile`  what passes the check and compiles is coherent;
* `named_of_compileUnchecked`    what compiles without the check is named, too;
* `names_of_compile`     the names of a specification that passes the check are those that its
                         value declares and derives, and each of them is there once.
-/

namespace Palette.Spec
open Outcome

/-- the names that states derive, in order -/
def derived (p : Spec) : List Atom :=
  p.semantics.flatMap fun t => t.2.interactions.map fun i => .text (derivedName t.1 i.1)

/-- the declared names and those that states derive -/
def names (p : Spec) : List Atom := p.semantics.keys ++ p.derived

/-- Does each color have the name that it is declared under? Names that are equal may be written
in two ways, such as a whole number and a float. -/
def Named (p : Spec) : Prop := ∀ t ∈ p.semantics, (t.2.name == t.1) = true

/-- Does no name stand for two colors? -/
structure Unambiguous (p : Spec) : Prop where
  named : ∀ t ∈ p.semantics, t.2.name = t.1
  distinct : p.names.Pairwise fun a b => (a == b) = false

theorem Unambiguous.toNamed {p : Spec} (hu : p.Unambiguous) : p.Named := by
  intro t ht
  rw [hu.named t ht]
  exact BEq.rfl

theorem derivedProblems_eq_nil (declared : List Atom) (seen : List String)
    (ds : List (String × String)) :
    derivedProblems declared seen ds = [] ↔
      (∀ d ∈ ds, declared.contains (.text d.2) = false ∧ d.2 ∉ seen) ∧ (ds.map (·.2)).Nodup := by
  -- what was seen grows with each name, so a name that comes again is among it
  induction ds generalizing seen with
  | nil => simp [derivedProblems]
  | cons d ds ih =>
    obtain ⟨path, name⟩ := d
    rw [derivedProblems, List.append_eq_nil_iff, ih, List.forall_mem_cons, List.map_cons,
      List.nodup_cons]
    by_cases hd : declared.contains (.text name) = true
    · simp [hd, complain]
    by_cases hs : name ∈ seen
    · simp [hs, hd, complain]
    rw [if_neg hd, if_neg (by simpa using hs)]
    constructor
    · rintro ⟨_, h, hn⟩
      refine ⟨⟨⟨by simpa using hd, hs⟩, fun e he => ⟨(h e he).1, ?_⟩⟩, ?_, hn⟩
      · exact fun hm => (h e he).2 (List.mem_cons_of_mem _ hm)
      · intro hm
        obtain ⟨e, he, hname⟩ := List.mem_map.1 hm
        exact (h e he).2 (hname ▸ List.mem_cons_self)
    · rintro ⟨⟨_, h⟩, hm, hn⟩
      refine ⟨rfl, fun e he => ⟨(h e he).1, ?_⟩, hn⟩
      rw [List.mem_cons, not_or]
      refine ⟨fun hname => hm (List.mem_map.2 ⟨e, he, hname⟩), (h e he).2⟩

/-! ## what the check says about names -/

theorem demand_eq_nil {ok : Bool} {path : String} {c : Complaint} :
    demand ok path c = [] ↔ ok = true := by
  cases ok <;> simp [demand, complain]

theorem mapProblems_eq_nil {name : String} {each : Atom → Document → List Problem}
    {o : Option Document} (h : mapProblems name each o = []) :
    ∃ ms, o = some (.map ms) ∧ ∀ e ∈ ms, each e.1 e.2 = [] := by
  cases o with
  | none => cases h
  | some d =>
    cases d with
    | map ms => exact ⟨ms, rfl, List.flatMap_eq_nil_iff.1 h⟩
    | _ => cases h

theorem memberProblems_eq_nil_of_compile {d : Document} {p : Spec} (h : compile d = .ok p) :
    (∃ ms, d = .map ms ∧ memberProblems ms = []) ∧ compileUnchecked d = .ok p := by
  obtain ⟨_, hv, h⟩ := bind_ok.1 h
  refine ⟨?_, h⟩
  rw [requireValid] at hv
  split at hv
  · next hd =>
    rw [isValid, List.isEmpty_iff] at hd
    cases d with
    | map ms => exact ⟨ms, rfl, hd⟩
    | _ => cases hd
  · cases hv

theorem coherent_of_compile {d : Document} (hd : d.isKeyed = true) {p : Spec}
    (h : compile d = .ok p) : p.Coherent :=
  coherent_of_compileUnchecked hd (memberProblems_eq_nil_of_compile h).2

/-- the names that the sections of a specification declare -/
def declared (d : Document) : List Atom := (d.block "foreground").keys ++ (d.block "nonText").keys

theorem contains_eq_false {l : List Atom} {a : Atom} :
    l.contains a = false ↔ ∀ b ∈ l, (a == b) = false := by
  rw [List.contains_eq_any_beq, List.any_eq_false]
  simp

theorem declared_disjoint {ms : Entries Atom Document} (h : memberProblems ms = []) :
    ∀ k ∈ (Document.block (.map ms) "foreground").keys,
      ∀ k' ∈ (Document.block (.map ms) "nonText").keys, (k == k') = false := by
  intro k hk k' hk'
  simp only [memberProblems, List.append_eq_nil_iff] at h
  obtain ⟨⟨⟨_, h⟩, _⟩, _⟩ := h
  obtain ⟨v, hv⟩ := Entries.mem_keys.1 hk'
  have hb : Document.block (.map ms) "nonText" =
      membersOf ((ms.lookup (.text "nonText")).getD .null) := rfl
  rw [hb] at hv
  cases hl : ms.lookup (.text "nonText") with
  | none =>
    rw [hl] at hv
    exact absurd hv List.not_mem_nil
  | some d =>
    rw [hl] at hv h
    cases d with
    | map tokens =>
      have h' := List.append_eq_nil_iff.1 (List.flatMap_eq_nil_iff.1 h (k', v) hv)
      have hc := demand_eq_nil.1 h'.1
      rw [Bool.not_eq_true', contains_eq_false] at hc
      rw [BEq.comm]
      exact hc k hk
    | _ => exact absurd hv List.not_mem_nil

/-- the sections declare each name once -/
theorem distinct_sections {ms : Entries Atom Document} (hd : (Document.map ms).isKeyed = true)
    (hp : memberProblems ms = []) {texts parts : Entries Atom Semantic}
    (ht : texts.keys = (Document.block (.map ms) "foreground").keys)
    (hn : parts.keys = (Document.block (.map ms) "nonText").keys) :
    Entries.Distinct (texts ++ parts) := by
  have block (name : String) := (Document.isKeyed_map _).1 (Document.isKeyed_block hd name)
  rw [Entries.distinct_append, Entries.distinct_congr ht, Entries.distinct_congr hn, ht, hn]
  exact ⟨(block "foreground").1, (block "nonText").1, declared_disjoint hp⟩

theorem derivations_distinct {ms : Entries Atom Document} (h : memberProblems ms = []) :
    ((derivations ms).map (·.2)).Nodup ∧
      ∀ n ∈ (derivations ms).map (·.2), ∀ k ∈ declared (.map ms), (k == .text n) = false := by
  simp only [memberProblems, List.append_eq_nil_iff] at h
  obtain ⟨⟨_, h⟩, _⟩ := h
  obtain ⟨hd, hn⟩ := (derivedProblems_eq_nil _ _ _).1 h
  refine ⟨hn, fun n hm k hk => ?_⟩
  obtain ⟨e, he, rfl⟩ := List.mem_map.1 hm
  rw [BEq.comm]
  exact contains_eq_false.1 (hd e he).1 k hk

/-! ## the names of a specification that passes the check -/

theorem derived_of_made {p : Spec} {target : Target} {m : Entries Atom Document}
    {m' : Entries Atom Semantic}
    (h : Made (fun e => Semantic.ofDocument p.ramps target e.1 e.2) m m') :
    m'.flatMap (fun t => t.2.interactions.map fun i => Atom.text (derivedName t.1 i.1)) =
      m.flatMap fun e => (e.2.block "interactions").map fun i => .text (derivedName e.1 i.1) := by
  refine (flatMap_eq h fun e he t ht => ?_).symm
  obtain ⟨hk, ht⟩ := ht
  obtain ⟨_, hi⟩ := (Semantic.read_of_ofDocument ht).interactions
  have hl := congrArg (List.map fun k => Atom.text (derivedName e.1 k)) hi.keys_eq
  rw [Entries.keys, Entries.keys, List.map_map, List.map_map] at hl
  rw [hk]
  exact hl.symm

theorem name_of_made {ramps : Ramps} {target : Target} {m : Entries Atom Document}
    {m' : Entries Atom Semantic}
    (h : Made (fun e => Semantic.ofDocument ramps target e.1 e.2) m m') :
    ∀ t ∈ m', t.2.name = t.1 := by
  intro t ht
  obtain ⟨e, _, hk, hs⟩ := h.exists_of_mem ht
  exact (Semantic.read_of_ofDocument hs).name.trans hk.symm

theorem named_of_compileUnchecked {d : Document} {p : Spec} (h : compileUnchecked d = .ok p) :
    p.Named := by
  obtain ⟨texts, parts, h⟩ := read_of_compileUnchecked h
  intro t ht
  rw [h.semantics] at ht
  obtain ⟨t', ht', hk, hv⟩ := Entries.exists_of_mem_ofList ht
  have hname : t'.2.name = t'.1 :=
    (List.mem_append.1 ht').elim (name_of_made h.texts_made t') (name_of_made h.parts_made t')
  rw [← hv, hname]
  exact hk

section
variable {d : Document} {p : Spec} (h : compile d = .ok p ∨ compileUnchecked d = .ok p)
include h

/-- with the check or without it -/
theorem named_of_compile_or : p.Named :=
  named_of_compileUnchecked (h.elim (fun h => (memberProblems_eq_nil_of_compile h).2) id)

theorem coherent_of_compile_or (hd : d.isKeyed = true) : p.Coherent :=
  coherent_of_compileUnchecked hd (h.elim (fun h => (memberProblems_eq_nil_of_compile h).2) id)

end

/-- the names of a specification that passes the check are those that its value declares and
derives, each of them once -/
theorem names_of_compile {d : Document} (hd : d.isKeyed = true) {p : Spec}
    (h : compile d = .ok p) :
    p.Unambiguous ∧ p.semantics.keys = declared d ∧
      p.derived = (derivations (membersOf d)).map fun n => .text n.2 := by
  obtain ⟨⟨ms, rfl, hp⟩, h⟩ := memberProblems_eq_nil_of_compile h
  obtain ⟨texts, parts, h⟩ := read_of_compileUnchecked h
  have hkeys : Entries.keys (texts ++ parts) = declared (.map ms) := by
    rw [Entries.keys_append, h.texts_made.keys_eq, h.parts_made.keys_eq, declared]
  have hdistinct : Entries.Distinct (texts ++ parts) :=
    distinct_sections hd hp h.texts_made.keys_eq h.parts_made.keys_eq
  have hs : p.semantics = texts ++ parts := by
    rw [h.semantics, Entries.ofList_of_distinct hdistinct]
  have hderived : p.derived = (derivations ms).map fun n => .text n.2 := by
    rw [derived, hs, List.flatMap_append, derived_of_made h.texts_made,
      derived_of_made h.parts_made]
    simp only [derivations, sections, List.flatMap_cons, List.flatMap_nil, List.append_nil,
      List.map_append, List.map_flatMap, List.map_map]
    rfl
  refine ⟨⟨fun t ht => ?_, ?_⟩, hs ▸ hkeys, hderived⟩
  · rw [hs] at ht
    rcases List.mem_append.1 ht with ht | ht
    · exact name_of_made h.texts_made t ht
    · exact name_of_made h.parts_made t ht
  · obtain ⟨hn, hdisj⟩ := derivations_distinct hp
    rw [names, hs, hderived, List.pairwise_append]
    refine ⟨hdistinct, ?_, ?_⟩
    · rw [List.pairwise_map]
      refine (List.pairwise_map.1 hn).imp fun hne => ?_
      rw [Atom.text_beq]
      exact beq_false_of_ne hne
    · rw [hkeys]
      intro k hk n hm
      obtain ⟨e, he, rfl⟩ := List.mem_map.1 hm
      exact hdisj e.2 (List.mem_map_of_mem he) k hk

end Palette.Spec
