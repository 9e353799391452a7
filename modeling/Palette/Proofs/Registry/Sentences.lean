import Palette.Contrast.Engines
import Palette.Proofs.Outcome
import Palette.Proofs.Text.Separated
import Palette.Registry.Basic

/-!
# Sentences tell of which variant they are

A sentence about a variant begins with the texts of its key, and behind them comes a colon. Numbers
have no colon, and the metrics of the engines of this library have none, so this is the last one of
the sentence. Keys whose names have no underscore are told apart by their texts.

* `VariantKey.text_ok_iff`   which keys have a text;
* `VariantKey.eq_of_text`    and which are told apart by it;
* `Decimal.colon_notMem_fixed`, `Decimal.colon_notMem_general`   numbers;
* `describe_ok_iff`          what a sentence is;
* `text_eq_of_describe`      variants with one sentence have keys with one text.
-/

namespace Palette
open Outcome

/-! ## texts of keys -/

theorem Atom.isSome_mapM_text? (parts : List Atom) :
    (parts.mapM Atom.text?).isSome = true ↔ ∀ x ∈ parts, x.isText = true := by
  induction parts with
  | nil => exact iff_of_true rfl fun x hx => absurd hx List.not_mem_nil
  | cons x parts ih =>
    rw [List.mapM_cons, List.forall_mem_cons, ← ih]
    cases x with
    | text s => cases parts.mapM Atom.text? <;> simp [Atom.text?, Atom.isText]
    | _ => exact iff_of_false Bool.false_ne_true fun h => nomatch h.1

theorem Atom.eq_map_of_mapM_text? {parts : List Atom} {words : List String}
    (h : parts.mapM Atom.text? = some words) : parts = words.map Atom.text := by
  induction parts generalizing words with
  | nil =>
    obtain rfl := Option.some.inj h
    rfl
  | cons x parts ih =>
    rw [List.mapM_cons] at h
    obtain ⟨w, hw, h⟩ := Option.bind_eq_some_iff.1 h
    obtain ⟨rest, hrest, h⟩ := Option.bind_eq_some_iff.1 h
    obtain rfl := Option.some.inj h
    cases x with
    | text s =>
      obtain rfl := Option.some.inj hw
      rw [List.map_cons, ← ih hrest]
    | _ => cases hw

namespace VariantKey

theorem text_ok_iff (k : VariantKey) : (∃ s, k.text = .ok s) ↔ ∀ x ∈ k.parts, x.isText = true := by
  rw [← Atom.isSome_mapM_text?, text]
  cases k.parts.mapM Atom.text? with
  | none => exact iff_of_false (fun ⟨_, h⟩ => nomatch h) Bool.false_ne_true
  | some words => exact iff_of_true ⟨_, rfl⟩ rfl

/-- the words of which the text of a key is made -/
theorem exists_words {k : VariantKey} {s : String} (h : k.text = .ok s) :
    ∃ words : List String, k.parts = words.map Atom.text ∧ words.length = 5 ∧
      s = "__".intercalate words := by
  rw [text] at h
  split at h
  · next words hwords =>
    have hparts := Atom.eq_map_of_mapM_text? hwords
    have hlength := congrArg List.length hparts
    rw [List.length_map] at hlength
    exact ⟨words, hparts, hlength.symm, (Except.ok.inj h).symm⟩
  · cases h

/-- is a key made of names without an underscore? -/
def Plain (k : VariantKey) : Prop := ∀ w, Atom.text w ∈ k.parts → '_' ∉ w.toList

theorem eq_of_text {k k' : VariantKey} (hk : k.Plain) (hk' : k'.Plain) {s : String}
    (h : k.text = .ok s) (h' : k'.text = .ok s) : k = k' := by
  obtain ⟨words, hparts, hlength, hs⟩ := exists_words h
  obtain ⟨words', hparts', hlength', hs'⟩ := exists_words h'
  have hplain : ∀ w ∈ words, '_' ∉ w.toList := fun w hw =>
    hk w (hparts ▸ List.mem_map_of_mem hw)
  have hplain' : ∀ w ∈ words', '_' ∉ w.toList := fun w hw =>
    hk' w (hparts' ▸ List.mem_map_of_mem hw)
  have hseparator : "__".toList = ['_', '_'] := by decide
  obtain rfl := Text.eq_of_intercalate hseparator (hlength.trans hlength'.symm) hplain hplain'
    (hs.symm.trans hs')
  have heq := hparts.trans hparts'.symm
  obtain ⟨token, fontSize, theme, stack, vision⟩ := k
  obtain ⟨token', fontSize', theme', stack', vision'⟩ := k'
  simp only [parts, List.cons.injEq, and_true] at heq
  obtain ⟨rfl, rfl, rfl, rfl, rfl⟩ := heq
  rfl

end VariantKey

/-! ## numbers have no colon -/

namespace Decimal

theorem colon_notMem_digits (n : Nat) : ':' ∉ digits n := fun h =>
  absurd (Nat.isDigit_of_mem_toDigits (by decide) (by decide) h) (by decide)

theorem colon_notMem_padLeft {w : Nat} {cs : List Char} (h : ':' ∉ cs) : ':' ∉ padLeft w cs := by
  simp [padLeft, h]

theorem colon_notMem_pointed (n places : Nat) : ':' ∉ pointed n places := by
  have hpadded := colon_notMem_padLeft (w := places) (colon_notMem_digits (n % pow10 places))
  rw [pointed]
  split
  · exact colon_notMem_digits n
  · simp [colon_notMem_digits, hpadded]

theorem colon_notMem_special (x : Float) : ':' ∉ (special x).toList := by
  rw [special]
  split
  · decide
  · split <;> decide

theorem colon_notMem_withSign (negative : Bool) {cs : List Char} (h : ':' ∉ cs) :
    ':' ∉ (withSign negative cs).toList := by
  rw [withSign, String.toList_ofList]
  split
  · simp [h]
  · exact h

theorem colon_notMem_fixed (places : Nat) (x : Float) : ':' ∉ (fixed places x).toList := by
  rw [fixed]
  split
  · exact colon_notMem_special x
  · exact colon_notMem_withSign _ (colon_notMem_pointed _ _)

theorem colon_notMem_exponentText (e : Int) : ':' ∉ exponentText e := by
  have hpadded := colon_notMem_padLeft (w := 2) (colon_notMem_digits e.natAbs)
  rw [exponentText]
  split <;> simp [hpadded]

section
variable {ds : List Char} (h : ':' ∉ ds)
include h

theorem colon_notMem_positional (point : Int) {whole : List Char} (hw : ':' ∉ whole) :
    ':' ∉ positional ds point whole := by
  have htake : ':' ∉ ds.take point.toNat := mt List.mem_of_mem_take h
  have hdrop : ':' ∉ ds.drop point.toNat := mt List.mem_of_mem_drop h
  rw [positional]
  split
  · simp [h]
  · split
    · simp [h, hw]
    · simp [htake, hdrop]

theorem colon_notMem_scientific (point : Int) : ':' ∉ scientific ds point := by
  have hexponent := colon_notMem_exponentText (point - 1)
  obtain _ | ⟨d, _ | ⟨d', rest⟩⟩ := ds
  · exact List.not_mem_nil
  · simp_all [scientific]
  · simp_all [scientific]

end

theorem colon_notMem_general (x : Float) : ':' ∉ (general x).toList := by
  rw [general]
  split
  · exact colon_notMem_special x
  · refine colon_notMem_withSign _ ?_
    split
    · decide
    · rw [layout]
      split
      · exact colon_notMem_positional (colon_notMem_digits _) _ List.not_mem_nil
      · exact colon_notMem_scientific (colon_notMem_digits _) _

end Decimal

/-! ## sentences -/

/-- what a sentence says behind the key -/
def findingText (v : Variant) : String :=
  " contrast " ++ Decimal.fixed 2 v.evaluation.value ++ " < required " ++
    (v.evaluation.required.elim "?" Decimal.general) ++ " (" ++ v.evaluation.metric ++ ")"

/-- a sentence begins with the key of the variant that it is about -/
theorem describe_ok_iff {k : VariantKey} {v : Variant} {s : String} :
    describe k v = .ok s ↔
      ∃ key, k.text = .ok key ∧ s = "Variant " ++ key ++ ":" ++ findingText v := by
  obtain ⟨ramp, step, hex, passed, metric, value, required, polarity⟩ := v
  have htext (key required : String) : failureText key value required metric =
      "Variant " ++ key ++ ":" ++ (" contrast " ++ Decimal.fixed 2 value ++ " < required " ++
        required ++ " (" ++ metric ++ ")") :=
    String.toList_injective (by simp [failureText, toString])
  rw [describe, bind_ok]
  refine exists_congr fun key => and_congr_right fun _ => ?_
  rw [pure_ok, htext, eq_comm]
  cases required <;> exact Iff.rfl

theorem colon_notMem_findingText {v : Variant} (h : ':' ∉ v.evaluation.metric.toList) :
    ':' ∉ (findingText v).toList := by
  have hrequired : ':' ∉ (v.evaluation.required.elim "?" Decimal.general).toList := by
    cases v.evaluation.required with
    | none => decide
    | some x => exact Decimal.colon_notMem_general x
  simp [findingText, h, hrequired, Decimal.colon_notMem_fixed]

/-- variants with one sentence have keys with one text, unless a metric has a colon -/
theorem text_eq_of_describe {k k' : VariantKey} {v v' : Variant} {s : String}
    (h : describe k v = .ok s) (h' : describe k' v' = .ok s)
    (hm : ':' ∉ v.evaluation.metric.toList) (hm' : ':' ∉ v'.evaluation.metric.toList) :
    k.text = k'.text := by
  obtain ⟨key, hkey, rfl⟩ := describe_ok_iff.1 h
  obtain ⟨key', hkey', heq⟩ := describe_ok_iff.1 h'
  have hlist := congrArg String.toList heq
  simp only [String.toList_append, List.append_assoc] at hlist
  have hlist := List.append_cancel_left hlist
  obtain ⟨hkeys, _⟩ := Text.append_cons_inj_last (colon_notMem_findingText hm)
    (colon_notMem_findingText hm') hlist
  rw [hkey, hkey', String.toList_injective hkeys]

/-- the engines of this library have metrics without a colon -/
theorem Engines.colon_notMem_metric {x : String × Engine} (hx : x ∈ builtin) (fg bg : Hex)
    (c : Context) : ':' ∉ (x.2.evaluate fg bg c).metric.toList := by
  rcases List.mem_cons.1 hx with rfl | hx
  · show ':' ∉ (Wcag.evaluate fg bg c).metric.toList
    rw [Wcag.evaluate]
    split
    · decide
    · exact (by decide : ':' ∉ "wcag21-ratio".toList)
  · obtain rfl := List.mem_singleton.1 hx
    show ':' ∉ (Apca.evaluate fg bg c).metric.toList
    rw [Apca.evaluate]
    split
    · decide
    · exact (by decide : ':' ∉ "apca-lc".toList)

end Palette
