import Palette.Proofs.Text.Separated
import Palette.Stylesheet.Build

/-!
# Selectors by their texts

A page finds the blocks of an element by the texts of their selectors. Values stand in quotes there,
so values without quotes can be read off the text, and two selectors with one text are the same.

* `Property.isWord`, `Atom.isPlain`     plain words, and names that are such;
* `Selector.attributes`    the attributes that a selector names, with their values;
* `Selector.Plain.eq_of_text`    selectors of plain words are told apart by their texts.
-/

namespace Palette

/-! ## plain words -/

/-- letters, digits, hyphens and underscores -/
def Property.isWord (s : String) : Bool :=
  s.toList.all fun c => c.isAlphanum || c == '-' || c == '_'

theorem Property.quote_notMem {s : String} (h : isWord s = true) : '"' ∉ s.toList := by
  intro hm
  have hc := List.all_eq_true.1 h '"' hm
  exact absurd hc (by decide)

/-- a value, if there is one, is a plain word -/
def Property.Words (value : Option String) : Prop := ∀ v, value = some v → isWord v = true

theorem Property.Words.none : Words none := by
  intro v hv
  cases hv

theorem Property.Words.some {w : String} (h : isWord w = true) : Words (some w) := by
  intro v hv
  rwa [← Option.some.inj hv]

theorem Deficiency.isWord_name (m : Deficiency) : Property.isWord m.name = true := by
  cases m <;> decide

/-- a name that is a plain word -/
def Atom.isPlain : Atom → Bool
  | .text s => Property.isWord s
  | _ => false

theorem Atom.exists_of_isPlain {k : Atom} (h : k.isPlain = true) : ∃ s, k = .text s := by
  cases k with
  | text s => exact ⟨s, rfl⟩
  | _ => cases h

theorem Atom.isWord_word {k : Atom} (h : k.isPlain = true) :
    Property.isWord (Showing.word k) = true := by
  obtain ⟨s, rfl⟩ := exists_of_isPlain h
  exact h

namespace Selector

/-! ## attributes -/

/-- the attributes that a selector names -/
def attributes (s : Selector) : List (String × String) :=
  (s.vision.map fun v => ("vision", v)).toList ++ (s.theme.map fun v => ("theme", v)).toList ++
    (s.stack.map fun v => ("stack", v)).toList

theorem eq_of_attributes {s t : Selector} (h : s.attributes = t.attributes) : s = t := by
  have read (s : Selector) : s = ⟨s.attributes.lookup "vision", s.attributes.lookup "theme",
      s.attributes.lookup "stack"⟩ := by
    obtain ⟨vision, theme, stack⟩ := s
    cases vision <;> cases theme <;> cases stack <;> rfl
  rw [read s, h, ← read t]

/-- the characters of attributes, each after a blank -/
def row : List (String × String) → List Char
  | [] => []
  | a :: rest => ' ' :: ((having a.1 a.2).toList ++ row rest)

theorem toList_text (s : Selector) :
    ' ' :: s.text.toList = if s.attributes = [] then " :root".toList else row s.attributes := by
  obtain ⟨vision, theme, stack⟩ := s
  cases vision <;> cases theme <;> cases stack <;> simp [text, parts, attributes, row]

/-! ## reading a row -/

theorem toList_having (name value : String) (rest : List Char) :
    (having name value).toList ++ rest =
      ("[data-".toList ++ name.toList ++ ['=']) ++ '"' :: (value.toList ++ '"' :: ']' :: rest) := by
  simp [having, String.toList_append, toString]

/-- an attribute is read off the front of a row -/
theorem having_append_inj {a b : String × String} (ha : '"' ∉ a.1.toList ∧ '"' ∉ a.2.toList)
    (hb : '"' ∉ b.1.toList ∧ '"' ∉ b.2.toList) {c d : List Char}
    (h : (having a.1 a.2).toList ++ c = (having b.1 b.2).toList ++ d) : a = b ∧ c = d := by
  have front {n : String} (hn : '"' ∉ n.toList) : '"' ∉ "[data-".toList ++ n.toList ++ ['='] := by
    simp [hn]
  rw [toList_having, toList_having] at h
  obtain ⟨hname, h⟩ := Text.append_cons_inj (front ha.1) (front hb.1) h
  obtain ⟨hvalue, h⟩ := Text.append_cons_inj ha.2 hb.2 h
  have hname := List.append_cancel_left (List.append_cancel_right hname)
  exact ⟨Prod.ext (String.toList_injective hname) (String.toList_injective hvalue),
    List.cons.inj h |>.2⟩

theorem eq_of_row {l l' : List (String × String)}
    (hl : ∀ a ∈ l, '"' ∉ a.1.toList ∧ '"' ∉ a.2.toList)
    (hl' : ∀ a ∈ l', '"' ∉ a.1.toList ∧ '"' ∉ a.2.toList) (h : row l = row l') : l = l' := by
  induction l generalizing l' with
  | nil =>
    cases l' with
    | nil => rfl
    | cons b l' => cases h
  | cons a l ih =>
    cases l' with
    | nil => cases h
    | cons b l' =>
      rw [List.forall_mem_cons] at hl hl'
      obtain ⟨rfl, hrest⟩ := having_append_inj hl.1 hl'.1 (List.cons.inj h).2
      rw [ih hl.2 hl'.2 hrest]

/-- a selector whose values are plain words -/
structure Plain (s : Selector) : Prop where
  vision : Property.Words s.vision
  theme : Property.Words s.theme
  stack : Property.Words s.stack

theorem Plain.unquoted {s : Selector} (h : s.Plain) :
    ∀ a ∈ s.attributes, '"' ∉ a.1.toList ∧ '"' ∉ a.2.toList := by
  intro a ha
  simp only [attributes, List.mem_append, Option.mem_toList, Option.map_eq_some_iff] at ha
  obtain (⟨v, hv, rfl⟩ | ⟨v, hv, rfl⟩) | ⟨v, hv, rfl⟩ := ha
  · exact ⟨(by decide : '"' ∉ "vision".toList), Property.quote_notMem (h.vision v hv)⟩
  · exact ⟨(by decide : '"' ∉ "theme".toList), Property.quote_notMem (h.theme v hv)⟩
  · exact ⟨(by decide : '"' ∉ "stack".toList), Property.quote_notMem (h.stack v hv)⟩

/-- plain selectors are told apart by their texts -/
theorem Plain.eq_of_text {s t : Selector} (hs : s.Plain) (ht : t.Plain) (h : s.text = t.text) :
    s = t := by
  have hrow := congrArg (fun text : String => ' ' :: text.toList) h
  simp only [toList_text] at hrow
  have rooted {l : List (String × String)} (hl : l ≠ []) : " :root".toList ≠ row l := by
    cases l with
    | nil => exact absurd rfl hl
    | cons a l =>
      rw [row, toList_having]
      simp
  apply eq_of_attributes
  by_cases hnil : s.attributes = [] <;> by_cases hnil' : t.attributes = []
  · rw [hnil, hnil']
  · rw [if_pos hnil, if_neg hnil'] at hrow
    exact absurd hrow (rooted hnil')
  · rw [if_neg hnil, if_pos hnil'] at hrow
    exact absurd hrow.symm (rooted hnil)
  · rw [if_neg hnil, if_neg hnil'] at hrow
    exact eq_of_row hs.unquoted ht.unquoted hrow

end Selector
end Palette
