import Palette.Proofs.Archive.Codec

/-!
# Documents that hold no archive

A document that is no archive is refused: it has another format, or a part of it is missing, is of
another kind or does not tell what it should. One part gets past this: a contrast that is a whole
number beyond the range of floats. It is a number, so it is not refused, and it cannot be read.

* `Fault.isRefusal`, `Fault.isMisshape`   refusals, and what is refused about a part;
* `Archive.misshape_need`, ...   the readers of parts fail for nothing else;
* `Document.exceeds`      whole numbers beyond the range of floats;
* `StoredVariant.Exceeds`, `Archive.Exceeds`   variants and documents where one is reached;
* `Archive.evaluation_of_exceeds`, `Archive.parts_of_exceeds`   a reading ends there;
* `Archive.refused_or_exceeds`   all other documents are read or refused.
-/

namespace Palette
open Outcome

namespace Fault

/-- is a document refused as an archive? -/
def isRefusal : Fault → Bool
  | .registryVersion _ | .registryMember _ | .registryShape _ => true
  | _ => false

/-- is a part missing, of another kind, or does it not tell what is asked? -/
def isMisshape : Fault → Bool
  | .noMember _ | .wrongKind _ | .unreadable _ => true
  | _ => false

theorem isRefusal_malformed {f : Fault} (h : f.isMisshape = true) :
    (Archive.malformed f).isRefusal = true := by
  cases f <;> first | rfl | cases h

end Fault

namespace Document

/-- is the value a whole number beyond the range of floats? -/
def exceeds : Document → Bool
  | .int n => (Dyadic.toFloat n).isInf
  | _ => false

theorem number_of_exceeds {d : Document} (h : d.exceeds = true) : d.number = .error .overflow := by
  cases d with
  | int n => exact if_pos h
  | _ => cases h

end Document

namespace Archive

/-! ## readers that fail for the shape of a part alone -/

section
variable {α : Type} {d : Document}

theorem misshape_need (name : String) : Only (·.isMisshape = true) (d.need name) := by
  cases d with
  | map ms =>
    rw [Document.need]
    split
    · exact .ok _
    · exact .error rfl
  | _ => exact .error rfl

/-- a member that is there is one of a map -/
theorem isMap_of_need {name : String} {v : Document} (h : d.need name = .ok v) :
    ∃ ms, d = .map ms := by
  cases d with
  | map ms => exact ⟨ms, rfl⟩
  | _ => cases h

theorem misshape_elements : Only (·.isMisshape = true) d.elements := by
  cases d <;> first | exact .ok _ | exact .error rfl

theorem misshape_elementsOf (o : Option Document) :
    Only (·.isMisshape = true) (Document.elementsOf o) := by
  cases o with
  | none => exact .ok _
  | some d =>
    rw [Document.elementsOf]
    split
    · exact misshape_elements
    · exact .ok _

theorem misshape_pair : Only (·.isMisshape = true) d.pair := by
  rw [Document.pair]
  split
  · exact .ok _
  · exact .error rfl
  · exact .error rfl

theorem misshape_asKey : Only (·.isMisshape = true) d.asKey := by
  rw [Document.asKey]
  split
  · exact .ok _
  · exact .error rfl

theorem misshape_entryAt (position : Nat) :
    Only (·.isMisshape = true) (Document.entryAt position d) := by
  rw [Document.entryAt]
  split
  · exact misshape_asKey.bind fun _ _ => .ok _
  · exact .error rfl
  · exact .error rfl

theorem misshape_dictionary : Only (·.isMisshape = true) d.dictionary := by
  have rows {d : Document} : Only (·.isMisshape = true) (do
      let rows ← d.elements
      return Entries.ofList (← rows.zipIdx.mapM fun r => Document.entryAt r.2 r.1)) :=
    misshape_elements.bind fun _ _ =>
      (Only.mapM fun _ _ => misshape_entryAt _).bind fun _ _ => .ok _
  cases d with
  | map ms => exact .ok ms
  | _ => exact rows

theorem misshape_entriesOf {f : Document → Except Fault α}
    (h : ∀ v, Only (·.isMisshape = true) (f v)) : Only (·.isMisshape = true) (entriesOf f d) := by
  refine misshape_elements.bind fun _ _ => Only.bind (Only.mapM fun _ _ => ?_) fun _ _ => .ok _
  exact misshape_pair.bind fun _ _ => (h _).bind fun _ _ => misshape_asKey.bind fun _ _ => .ok _

/-- after a member that has to be there, one that may be missing is no fault -/
theorem misshape_get {name name' : String} {v : Document} (h : d.need name = .ok v) :
    Only (·.isMisshape = true) (d.get name') := by
  obtain ⟨ms, rfl⟩ := isMap_of_need h
  exact .ok _

end

/-! ## the parts -/

section
variable {d : Document}

theorem misshape_step : Only (·.isMisshape = true) (StoredStep.ofDocument d) :=
  (misshape_need _).bind fun _ _ => (misshape_need _).bind fun _ _ =>
    (misshape_need _).bind fun _ _ => (misshape_need _).bind fun _ _ =>
      (misshape_need _).bind fun _ _ => (misshape_need _).bind fun _ _ =>
        (misshape_need _).bind fun _ _ => (misshape_need _).bind fun _ _ =>
          (misshape_need _).bind fun _ _ => .ok _

theorem misshape_ramp : Only (·.isMisshape = true) (StoredRamp.ofDocument d) :=
  (misshape_need _).bind fun _ _ => misshape_elements.bind fun _ _ =>
    (Only.mapM fun _ _ => misshape_step).bind fun _ _ => (misshape_need _).bind fun _ _ => .ok _

theorem misshape_surface : Only (·.isMisshape = true) (StoredSurface.ofDocument d) :=
  (misshape_need _).bind fun _ _ => (misshape_need _).bind fun _ _ =>
    (misshape_need _).bind fun _ _ => .ok _

theorem misshape_theme : Only (·.isMisshape = true) (StoredTheme.ofDocument d) :=
  (misshape_need _).bind fun _ h => (misshape_entriesOf fun _ => misshape_surface).bind fun _ _ =>
    (misshape_need _).bind fun _ _ => (misshape_need _).bind fun _ _ =>
      (misshape_need _).bind fun _ _ => (misshape_need _).bind fun _ _ =>
        (misshape_need _).bind fun _ _ => (misshape_get h).bind fun _ _ =>
          (misshape_elementsOf _).bind fun _ _ => (misshape_get h).bind fun _ _ =>
            (misshape_elementsOf _).bind fun _ _ => (misshape_need _).bind fun _ _ => .ok _

theorem misshape_meta : Only (·.isMisshape = true) (StoredMeta.ofDocument d) :=
  (misshape_need _).bind fun _ _ => (misshape_need _).bind fun _ _ =>
    (misshape_need _).bind fun _ _ => (misshape_need _).bind fun _ _ =>
      (misshape_need _).bind fun _ _ => (misshape_need _).bind fun _ _ => .ok _

theorem misshape_present {name name' : String} {v : Document} (h : d.need name = .ok v) :
    Only (·.isMisshape = true) (StoredEvaluation.present d name') :=
  (misshape_get h).bind fun _ _ => .ok _

theorem misshape_ofParts (parts : List Document) :
    Only (·.isMisshape = true) (VariantKey.ofParts parts) := by
  unfold VariantKey.ofParts
  split
  · exact .ok _
  · exact .ok _
  · exact .error rfl

theorem misshape_ofFive (five : Document × Document × Document × Document × Document) :
    Only (·.isMisshape = true) (VariantKey.ofFive five) :=
  misshape_asKey.bind fun _ _ => misshape_asKey.bind fun _ _ => misshape_asKey.bind fun _ _ =>
    misshape_asKey.bind fun _ _ => misshape_asKey.bind fun _ _ => .ok _

end
end Archive

/-! ## where a number out of range is reached -/

/-- an evaluation whose contrast is reached and is out of range -/
structure StoredEvaluation.Exceeds (d : Document) : Prop where
  passed : ∃ v, d.need "pass" = .ok v
  metric : ∃ v, d.need "metric" = .ok v
  value : ∃ v, d.need "value" = .ok v ∧ v.exceeds = true

/-- a variant with such an evaluation -/
structure StoredVariant.Exceeds (d : Document) : Prop where
  ramp : ∃ v, d.need "ramp" = .ok v
  step : ∃ v, d.need "step" = .ok v
  hex : ∃ v, d.need "hex" = .ok v
  evaluation : ∃ v, d.need "compliance" = .ok v ∧ StoredEvaluation.Exceeds v

namespace Archive
variable {d : Document}

/-- a pair of a key with so many parts as keys have and of such a variant -/
structure RowExceeds (row : Document) : Prop where
  pair : ∃ k v, row.pair = .ok (k, v) ∧ (∃ parts five, k.elements = .ok parts ∧
    VariantKey.ofParts parts = .ok five) ∧ StoredVariant.Exceeds v

/-- a document of this format with such a pair, where all variants before it are read -/
structure Exceeds (d : Document) : Prop where
  version : ∃ v, d.get "version" = .ok v ∧ (v.getD .null).same (.int version) = true
  row : ∃ rows front row back variants, d.need "variantMap" = .ok rows ∧
    rows.elements = .ok (front ++ row :: back) ∧ front.mapM variantOf = .ok variants ∧
    RowExceeds row

theorem misshape_number (h : d.exceeds = false) : Only (·.isMisshape = true) d.number := by
  cases d with
  | int n =>
    have hn : Document.floatOfInt n = .ok (Dyadic.toFloat n) := if_neg (ne_true_of_eq_false h)
    rw [Document.number, hn]
    exact .ok _
  | text s =>
    rw [Document.number]
    split
    · exact .ok _
    · exact .error rfl
  | float x => exact .ok x
  | bool b => exact .ok _
  | _ => exact .error rfl

theorem evaluation_of_exceeds (h : StoredEvaluation.Exceeds d) :
    StoredEvaluation.ofDocument d = .error .overflow := by
  obtain ⟨⟨passed, hp⟩, ⟨metric, hm⟩, value, hv, hx⟩ := h
  refine bind_error.2 (.inr ⟨passed, hp, bind_error.2 (.inr ⟨metric, hm, ?_⟩)⟩)
  refine bind_error.2 (.inr ⟨value, hv, bind_error.2 (.inl ?_)⟩)
  exact Document.number_of_exceeds hx

theorem misshape_evaluation (h : ¬StoredEvaluation.Exceeds d) :
    Only (·.isMisshape = true) (StoredEvaluation.ofDocument d) := by
  refine (misshape_need _).bind fun _ hp => (misshape_need _).bind fun _ hm => ?_
  refine (misshape_need _).bind fun v hv => Only.bind (misshape_number ?_) fun _ _ => ?_
  · exact Bool.eq_false_iff.2 fun hx => h ⟨⟨_, hp⟩, ⟨_, hm⟩, v, hv, hx⟩
  · exact (misshape_present hp).bind fun _ _ => (misshape_present hp).bind fun _ _ => .ok _

theorem variant_of_exceeds (h : StoredVariant.Exceeds d) :
    StoredVariant.ofDocument d = .error .overflow := by
  obtain ⟨⟨ramp, hr⟩, ⟨step, hs⟩, ⟨hex, hh⟩, evaluation, he, hx⟩ := h
  refine bind_error.2 (.inr ⟨ramp, hr, bind_error.2 (.inr ⟨step, hs, ?_⟩)⟩)
  refine bind_error.2 (.inr ⟨hex, hh, bind_error.2 (.inr ⟨evaluation, he, ?_⟩)⟩)
  exact bind_error.2 (.inl (evaluation_of_exceeds hx))

theorem misshape_variant (h : ¬StoredVariant.Exceeds d) :
    Only (·.isMisshape = true) (StoredVariant.ofDocument d) := by
  refine (misshape_need _).bind fun _ hr => (misshape_need _).bind fun _ hs => ?_
  refine (misshape_need _).bind fun _ hh => (misshape_need _).bind fun c hc => ?_
  refine Only.bind (misshape_evaluation fun hx => ?_) fun _ _ => .ok _
  exact h ⟨⟨_, hr⟩, ⟨_, hs⟩, ⟨_, hh⟩, c, hc, hx⟩

theorem row_of_exceeds (h : RowExceeds d) : variantOf d = .error .overflow := by
  obtain ⟨k, v, hp, ⟨parts, five, hk, hf⟩, hx⟩ := h
  refine bind_error.2 (.inr ⟨(k, v), hp, ?_⟩)
  dsimp only
  rw [hk]
  refine bind_error.2 (.inr ⟨parts, rfl, bind_error.2 (.inr ⟨five, hf, ?_⟩)⟩)
  exact bind_error.2 (.inl (variant_of_exceeds hx))

theorem misshape_row (h : ¬RowExceeds d) : Only (·.isMisshape = true) (variantOf d) := by
  refine misshape_pair.bind fun kv hp => ?_
  obtain ⟨k, v⟩ := kv
  dsimp only
  cases hk : k.elements with
  | error f => exact .error rfl
  | ok parts =>
    refine (misshape_ofParts parts).bind fun five hf => ?_
    refine Only.bind (misshape_variant fun hx => ?_) fun _ _ => ?_
    · exact h ⟨k, v, hp, ⟨parts, five, hk, hf⟩, hx⟩
    · exact (misshape_ofFive five).bind fun _ _ => .ok _

theorem parts_of_exceeds (h : Exceeds d) : parts d = .error .overflow := by
  obtain ⟨rows, front, row, back, variants, hr, hi, hfront, hx⟩ := h.row
  refine bind_error.2 (.inr ⟨rows, hr, bind_error.2 (.inr ⟨_, hi, bind_error.2 (.inl ?_)⟩)⟩)
  exact mapM_error.2 ⟨front, row, back, variants, rfl, hfront, row_of_exceeds hx⟩

/-- the version apart, a document is read up to a number out of range, or fails for its shape -/
theorem misshape_parts (hversion : ∃ v, d.get "version" = .ok v ∧
    (v.getD .null).same (.int version) = true) (h : ¬Exceeds d) :
    Only (·.isMisshape = true) (parts d) := by
  refine (misshape_need _).bind fun rows hr => misshape_elements.bind fun items hi => ?_
  refine Only.bind (fun f hf => ?_) fun _ _ => ?_
  · obtain ⟨front, row, back, variants, rfl, hfront, hrow⟩ := mapM_error.1 hf
    refine misshape_row (fun hx => h ⟨hversion, ?_⟩) f hrow
    exact ⟨rows, front, row, back, variants, hr, hi, hfront, hx⟩
  refine (misshape_need _).bind fun _ _ => ?_
  refine (misshape_entriesOf fun _ => misshape_ramp).bind fun _ _ => ?_
  refine (misshape_need _).bind fun _ _ => ?_
  refine (misshape_entriesOf fun _ => misshape_theme).bind fun _ _ => ?_
  refine (misshape_need _).bind fun _ _ => ?_
  refine (misshape_entriesOf fun _ => misshape_elements).bind fun _ _ => ?_
  refine (misshape_need _).bind fun _ _ => (misshape_entriesOf fun _ => .ok _).bind fun _ _ => ?_
  refine (misshape_need _).bind fun _ _ => misshape_dictionary.bind fun _ _ => ?_
  refine (misshape_need _).bind fun _ _ => misshape_meta.bind fun _ _ => ?_
  exact (misshape_get hr).bind fun _ _ => (misshape_elementsOf _).bind fun _ _ => .ok _

/-! ## the whole -/

theorem ofDocument_of_version {v : Option Document} (hv : d.get "version" = .ok v) :
    ofDocument d = if (v.getD .null).same (.int version) then (parts d).mapError malformed
      else .error (.registryVersion (v.getD .null)) := by
  rw [ofDocument, hv]
  show (if (!(v.getD .null).same (.int version)) = true then _ else _) = _
  cases (v.getD .null).same (.int version) <;> rfl

/-- A map is read or refused, unless a contrast out of range is reached: exactly then the reading
ends with it. -/
theorem refused_or_exceeds (ms : Entries Atom Document) :
    (ofDocument (.map ms) = .error .overflow ↔ Exceeds (.map ms)) ∧
      ((∃ a, ofDocument (.map ms) = .ok a) ∨
        (∃ f, ofDocument (.map ms) = .error f ∧ f.isRefusal = true) ∨ Exceeds (.map ms)) := by
  have hget : (Document.map ms).get "version" = .ok (ms.lookup (.text "version")) := rfl
  have hread := ofDocument_of_version hget
  by_cases hx : Exceeds (.map ms)
  · obtain ⟨v, hv, hsame⟩ := hx.version
    rw [ofDocument_of_version hv, if_pos hsame, parts_of_exceeds hx]
    exact ⟨iff_of_true rfl hx, .inr (.inr hx)⟩
  suffices h : (∃ a, ofDocument (.map ms) = .ok a) ∨
      ∃ f, ofDocument (.map ms) = .error f ∧ f.isRefusal = true by
    refine ⟨iff_of_false (fun ho => ?_) hx, h.imp_right .inl⟩
    rcases h with ⟨a, ha⟩ | ⟨f, hf, hrefused⟩
    · cases ho.symm.trans ha
    · cases ho.symm.trans hf
      cases hrefused
  split at hread
  · next hsame =>
    cases hp : parts (.map ms) with
    | ok a => exact .inl ⟨a, by rw [hread, hp]; rfl⟩
    | error f =>
      refine .inr ⟨malformed f, by rw [hread, hp]; rfl, ?_⟩
      exact Fault.isRefusal_malformed (misshape_parts ⟨_, hget, hsame⟩ hx f hp)
  · exact .inr ⟨_, hread, rfl⟩

end Archive

/-- an archive with one variant, whose contrast is a whole number of 310 digits -/
def Sample.vast : Document := .record [
  ("version", .int 2),
  ("variantMap", .list [.list [
    .list [.text "a", .text "12px", .text "day", .text "root"],
    .record [("ramp", .text "gray"), ("step", .int 0), ("hex", .text "white"),
      ("compliance", .record [("pass", .bool true), ("metric", .text "wcag21"),
        ("value", .int (pow10 309))])]]])]

/-- it is not refused -/
theorem Archive.refused_or_exceeds_vast :
    ofDocument Sample.vast = .error .overflow ∧ Fault.overflow.isRefusal = false := by
  refine ⟨(refused_or_exceeds _).1.2 ⟨⟨_, rfl, by decide⟩, ?_⟩, rfl⟩
  have hvalue : (Document.int (pow10 309)).exceeds = true := by decide +kernel
  refine ⟨_, [], _, [], [], rfl, rfl, rfl, _, _, rfl, ⟨_, _, rfl, rfl⟩, ?_⟩
  exact ⟨⟨_, rfl⟩, ⟨_, rfl⟩, ⟨_, rfl⟩, _, rfl, ⟨_, rfl⟩, ⟨_, rfl⟩, _, rfl, hvalue⟩

end Palette
