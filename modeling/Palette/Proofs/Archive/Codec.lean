import Palette.Archive.Decode
import Palette.Proofs.Entries
import Palette.Proofs.Outcome

/-!
# Reading what was written

Each part of an archive is read from its document as it was. Maps have to hold each key once, for
they are written as rows of pairs, and a member that may be missing must not be null, for null is
read as missing.

* `entriesOf_pairs`           a map whose values are read as they were;
* `StoredTheme.ofDocument_document`, ...   the parts;
* `Archive.Normal`            maps with distinct keys and no member that is null;
* `Archive.Same`              equality of archives, with the entries of the variants in order;
* `Archive.read_document`     an archive in normal form is read as it was.
-/

namespace Palette
open Outcome

theorem Document.asKey_document (a : Atom) : a.document.asKey = .ok a := by
  rw [asKey, Atom.atom?_document]

/-- an empty list is no value at all, but has the same elements -/
theorem Document.elementsOf_list (items : List Document) :
    elementsOf (some (.list items)) = .ok items := by
  cases items <;> rfl

namespace Archive

theorem pair_entry {α : Type} {g : Document → Except Fault α} {k : Atom} {d : Document} {v : α}
    (h : g d = .ok v) :
    (do
      let (k, v) ← (Document.list [k.document, d]).pair
      let v ← g v
      return (← k.asKey, v) : Except Fault (Atom × α)) = .ok (k, v) := by
  show (do
    let v ← g d
    return (← k.document.asKey, v) : Except Fault (Atom × α)) = .ok (k, v)
  rw [h, Document.asKey_document]
  rfl

theorem entriesOf_pairs {α : Type} {f : α → Document} {g : Document → Except Fault α}
    {m : Entries Atom α} (hm : m.Distinct) (h : ∀ e ∈ m, g (f e.2) = .ok e.2) :
    entriesOf g (pairs f m) = .ok m := by
  refine bind_ok.2 ⟨_, rfl, bind_ok.2 ⟨m, ?_, ?_⟩⟩
  · rw [mapM_ok, List.forall₂_map_left_iff, List.forall₂_same]
    exact fun e he => pair_entry (h e he)
  · rw [Entries.ofList_of_distinct hm]
    rfl

end Archive

/-! ## the parts -/

theorem StoredStep.ofDocument_document (s : StoredStep) : ofDocument s.document = .ok s := rfl

theorem StoredSurface.ofDocument_document (u : StoredSurface) :
    ofDocument u.document = .ok u := rfl

theorem StoredMeta.ofDocument_document (i : StoredMeta) : ofDocument i.document = .ok i := rfl

theorem StoredRamp.ofDocument_document (r : StoredRamp) : ofDocument r.document = .ok r := by
  have hsteps : (r.steps.map StoredStep.document).mapM StoredStep.ofDocument = .ok r.steps := by
    rw [mapM_ok, List.forall₂_map_left_iff, List.forall₂_same]
    exact fun s _ => StoredStep.ofDocument_document s
  exact bind_ok.2 ⟨_, rfl, bind_ok.2 ⟨_, rfl, bind_ok.2 ⟨_, hsteps, rfl⟩⟩⟩

theorem StoredTheme.ofDocument_document {t : StoredTheme} (h : t.surfaces.Distinct) :
    ofDocument t.document = .ok t := by
  have hsurfaces : Archive.entriesOf StoredSurface.ofDocument
      (Archive.pairs StoredSurface.document t.surfaces) = .ok t.surfaces :=
    Archive.entriesOf_pairs h fun e _ => StoredSurface.ofDocument_document e.2
  have hfallback := Document.elementsOf_list t.fallback
  have haliases := Document.elementsOf_list t.aliases
  refine bind_ok.2 ⟨_, rfl, bind_ok.2 ⟨_, hsurfaces, ?_⟩⟩
  refine bind_ok.2 ⟨_, rfl, bind_ok.2 ⟨_, rfl, bind_ok.2 ⟨_, rfl, bind_ok.2 ⟨_, rfl, ?_⟩⟩⟩⟩
  refine bind_ok.2 ⟨_, rfl, bind_ok.2 ⟨_, rfl, bind_ok.2 ⟨_, hfallback, ?_⟩⟩⟩
  exact bind_ok.2 ⟨_, rfl, bind_ok.2 ⟨_, haliases, rfl⟩⟩

/-- an evaluation without members that are null -/
structure StoredEvaluation.Normal (v : StoredEvaluation) : Prop where
  required : ∀ d ∈ v.required, d.isNull = false
  polarity : ∀ d ∈ v.polarity, d.isNull = false

theorem StoredEvaluation.ofDocument_document {v : StoredEvaluation} (h : v.Normal) :
    ofDocument v.document = .ok v := by
  have hpresent {name : String} {o : Option Document} (hn : ∀ d ∈ o, d.isNull = false)
      (hget : v.document.get name = .ok o) : present v.document name = .ok o := by
    rw [present, hget]
    cases o with
    | none => rfl
    | some d =>
      show Except.ok ((some d).filter fun v => !v.isNull) = _
      rw [Option.filter, hn d rfl]
      rfl
  have hrequired : v.document.get "required" = .ok v.required := by
    obtain ⟨passed, metric, value, required, polarity⟩ := v
    cases required <;> cases polarity <;> rfl
  have hpolarity : v.document.get "polarity" = .ok v.polarity := by
    obtain ⟨passed, metric, value, required, polarity⟩ := v
    cases required <;> cases polarity <;> rfl
  refine bind_ok.2 ⟨_, rfl, bind_ok.2 ⟨_, rfl, bind_ok.2 ⟨_, rfl, bind_ok.2 ⟨_, rfl, ?_⟩⟩⟩⟩
  exact bind_ok.2 ⟨_, hpresent h.required hrequired,
    bind_ok.2 ⟨_, hpresent h.polarity hpolarity, rfl⟩⟩

theorem StoredVariant.ofDocument_document {v : StoredVariant} (h : v.evaluation.Normal) :
    ofDocument v.document = .ok v :=
  bind_ok.2 ⟨_, rfl, bind_ok.2 ⟨_, rfl, bind_ok.2 ⟨_, rfl, bind_ok.2 ⟨_, rfl,
    bind_ok.2 ⟨_, StoredEvaluation.ofDocument_document h, rfl⟩⟩⟩⟩⟩

theorem VariantKey.ofFive_document (k : VariantKey) :
    ofFive (k.token.document, k.fontSize.document, k.theme.document, k.stack.document,
      k.vision.document) = .ok k := by
  rw [ofFive]
  simp only [Document.asKey_document]
  rfl

/-! ## the whole -/

namespace Archive

theorem variantOf_entry {k : VariantKey} {v : StoredVariant} (h : v.evaluation.Normal) :
    variantOf (.list [k.document, v.document]) = .ok (k, v) :=
  bind_ok.2 ⟨_, rfl, bind_ok.2 ⟨_, rfl, bind_ok.2 ⟨_, rfl,
    bind_ok.2 ⟨_, StoredVariant.ofDocument_document h,
      bind_ok.2 ⟨_, VariantKey.ofFive_document k, rfl⟩⟩⟩⟩⟩

/-- an archive that says everything in one way -/
structure Normal (a : Archive) : Prop where
  ramps : a.ramps.Distinct
  themes : a.themes.Distinct
  surfaces : ∀ e ∈ a.themes, e.2.surfaces.Distinct
  fallbacks : a.fallbacks.Distinct
  layers : a.layers.Distinct
  defaults : a.defaults.Distinct
  evaluations : ∀ e ∈ a.variants.toList, e.2.evaluation.Normal

/-- equality of archives; the entries of each map are the same, in the same order -/
structure Same (a b : Archive) : Prop where
  ramps : a.ramps = b.ramps
  themes : a.themes = b.themes
  fallbacks : a.fallbacks = b.fallbacks
  layers : a.layers = b.layers
  variants : a.variants.toList = b.variants.toList
  defaults : a.defaults = b.defaults
  info : a.info = b.info
  warnings : a.warnings = b.warnings

theorem forall₂_entryAt (m : Entries Atom Document) (n : Nat) :
    List.Forall₂ (fun r e => Document.entryAt r.2 r.1 = .ok e)
      ((m.map fun e => Document.list [e.1.document, e.2]).zipIdx n) m := by
  induction m generalizing n with
  | nil => exact .nil
  | cons e m ih =>
    rw [List.map_cons, List.zipIdx_cons]
    refine .cons ?_ (ih (n + 1))
    exact bind_ok.2 ⟨_, Document.asKey_document e.1, rfl⟩

theorem dictionary_pairs {m : Entries Atom Document} (h : m.Distinct) :
    (pairs id m).dictionary = .ok m := by
  refine bind_ok.2 ⟨_, rfl, bind_ok.2 ⟨m, mapM_ok.2 (forall₂_entryAt m 0), ?_⟩⟩
  rw [Entries.ofList_of_distinct h]
  rfl

theorem read_document {a : Archive} (h : a.Normal) :
    ∃ b, ofDocument a.document = .ok b ∧ b.Same a := by
  have hvariants : (a.variants.toList.map fun e =>
      Document.list [e.1.document, e.2.document]).mapM variantOf = .ok a.variants.toList := by
    rw [mapM_ok, List.forall₂_map_left_iff, List.forall₂_same]
    exact fun e he => variantOf_entry (h.evaluations e he)
  have hramps := entriesOf_pairs h.ramps fun e _ => StoredRamp.ofDocument_document e.2
  have hthemes := entriesOf_pairs h.themes fun e he =>
    StoredTheme.ofDocument_document (h.surfaces e he)
  have hfallbacks : entriesOf Document.elements (pairs .list a.fallbacks) = .ok a.fallbacks :=
    entriesOf_pairs h.fallbacks fun _ _ => rfl
  have hlayers : entriesOf .ok (pairs id a.layers) = .ok a.layers :=
    entriesOf_pairs h.layers fun _ _ => rfl
  have hparts : parts a.document = .ok { a with variants := .ofList a.variants.toList } := by
    refine bind_ok.2 ⟨_, rfl, bind_ok.2 ⟨_, rfl, bind_ok.2 ⟨_, hvariants, ?_⟩⟩⟩
    refine bind_ok.2 ⟨_, rfl, bind_ok.2 ⟨_, hramps, ?_⟩⟩
    refine bind_ok.2 ⟨_, rfl, bind_ok.2 ⟨_, hthemes, ?_⟩⟩
    refine bind_ok.2 ⟨_, rfl, bind_ok.2 ⟨_, hfallbacks, ?_⟩⟩
    refine bind_ok.2 ⟨_, rfl, bind_ok.2 ⟨_, hlayers, ?_⟩⟩
    refine bind_ok.2 ⟨_, rfl, bind_ok.2 ⟨_, dictionary_pairs h.defaults, ?_⟩⟩
    refine bind_ok.2 ⟨_, rfl, bind_ok.2 ⟨_, StoredMeta.ofDocument_document a.info, ?_⟩⟩
    exact bind_ok.2 ⟨_, rfl, bind_ok.2 ⟨_, Document.elementsOf_list a.warnings, rfl⟩⟩
  refine ⟨{ a with variants := .ofList a.variants.toList }, ?_, ?_⟩
  · refine bind_ok.2 ⟨_, rfl, ?_⟩
    show (parts a.document).mapError malformed = _
    rw [hparts]
    rfl
  · have hsame : (OrderedMap.ofList a.variants.toList).toList = a.variants.toList := by
      rw [OrderedMap.toList_ofList, Entries.ofList_of_distinct a.variants.distinct_toList]
    exact ⟨rfl, rfl, rfl, rfl, hsame, rfl, rfl, rfl⟩

end Archive
end Palette
