import Mathlib.Data.List.TakeWhile
import Palette.Proofs.Text.Hexadecimal

/-!
# Canonical texts of colors

A text writes a color if a mark with three or with six hexadecimal digits is left of it without the
blanks around it. The canonical text of the color has the same six digits, in lowercase, or the same
three, each of them twice.

* `Text.strip_eq_iff`        what is left without the blanks at the two ends;
* `Hexadecimal.digit_of_value?`   a digit in lowercase is the digit of its value;
* `Hex.Writes`, `Hex.doubled`     texts of colors, and the six digits that they stand for;
* `Hex.IsCanonical`          canonical texts;
* `Hex.ofText?_iff`          the color of a text has the digits of the text;
* `Hex.ofDocument_exact`     so just the texts of colors are read, and those with the same digits
                             alike.
-/

namespace Palette

/-! ## blanks -/

namespace Text
variable {p : Char → Bool} {cs core : List Char}

/-- what is dropped at the two ends are blanks -/
theorem exists_ends (p : Char → Bool) (cs : List Char) :
    ∃ front back, cs = front ++ stripBy p cs ++ back ∧ ∀ c ∈ front ++ back, p c = true := by
  refine ⟨cs.takeWhile p, ((cs.dropWhile p).reverse.takeWhile p).reverse, ?_, ?_⟩
  · rw [stripBy, List.append_assoc, ← List.reverse_append, List.takeWhile_append_dropWhile,
      List.reverse_reverse, List.takeWhile_append_dropWhile]
  · intro c hc
    rcases List.mem_append.1 hc with hc | hc
    · exact List.mem_takeWhile_imp hc
    · exact List.mem_takeWhile_imp (List.mem_reverse.1 hc)

theorem dropWhile_append_of_blank {front : List Char} (hf : ∀ c ∈ front, p c = true)
    (hcore : ∀ c ∈ core, p c = false) (hne : core ≠ []) (rest : List Char) :
    (front ++ core ++ rest).dropWhile p = core ++ rest := by
  obtain ⟨c, core, rfl⟩ := List.exists_cons_of_ne_nil hne
  have hc : ¬p c = true := by simp [hcore c List.mem_cons_self]
  rw [List.append_assoc, List.dropWhile_append_of_pos hf, List.cons_append,
    List.dropWhile_cons_of_neg hc]

theorem stripBy_append {front back : List Char} (hf : ∀ c ∈ front, p c = true)
    (hb : ∀ c ∈ back, p c = true) (hcore : ∀ c ∈ core, p c = false) (hne : core ≠ []) :
    stripBy p (front ++ core ++ back) = core := by
  have hback : ∀ c ∈ back.reverse, p c = true := fun c hc => hb c (List.mem_reverse.1 hc)
  have hmiddle : ∀ c ∈ core.reverse, p c = false := fun c hc => hcore c (List.mem_reverse.1 hc)
  have hrest := dropWhile_append_of_blank hback hmiddle (by simpa using hne) []
  rw [List.append_nil, List.append_nil] at hrest
  rw [stripBy, dropWhile_append_of_blank hf hcore hne, List.reverse_append, hrest,
    List.reverse_reverse]

/-- a text without blanks is left exactly if there are only blanks around it -/
theorem strip_eq_iff {s : String} (hcore : ∀ c ∈ core, isBlank c = false) (hne : core ≠ []) :
    strip s = core ↔ ∃ front back, s.toList = front ++ core ++ back ∧
      ∀ c ∈ front ++ back, isBlank c = true := by
  constructor
  · rintro rfl
    exact exists_ends _ _
  · rintro ⟨front, back, hs, hblank⟩
    rw [strip, hs]
    exact stripBy_append (fun c hc => hblank c (List.mem_append_left _ hc))
      (fun c hc => hblank c (List.mem_append_right _ hc)) hcore hne

end Text

/-! ## digits -/

namespace Hexadecimal

/-- the digits in lowercase -/
def lowerDigits : List Char := "0123456789abcdef".toList

/-- the digits in either case -/
def digits : List Char := "0123456789abcdefABCDEF".toList

theorem mem_digits_of_value? {c : Char} {v : Nat} (h : value? c = some v) : c ∈ digits := by
  have hrange : c.toNat ∈ List.range' 48 10 ++ List.range' 97 6 ++ List.range' 65 6 := by
    simp only [value?, Bool.and_eq_true, decide_eq_true_eq] at h
    simp only [List.mem_append, List.mem_range'_1]
    split at h
    · omega
    · split at h
      · omega
      · split at h
        · omega
        · cases h
  have hall : ∀ n ∈ List.range' 48 10 ++ List.range' 97 6 ++ List.range' 65 6,
      Char.ofNat n ∈ digits := by decide
  rw [← Char.ofNat_toNat c]
  exact hall _ hrange

/-- a digit in lowercase is the digit of its value -/
theorem digit_of_value? {c : Char} (h : c ∈ digits) :
    ∃ v, value? c = some v ∧ v < 16 ∧ digit v = c.toLower := by
  have hall : (digits.all fun c =>
      (value? c).any fun v => decide (v < 16 ∧ digit v = c.toLower)) = true := by decide
  obtain ⟨v, hv, hdigit⟩ := (Option.any_eq_true _ _).1 (List.all_eq_true.1 hall c h)
  exact ⟨v, hv, of_decide_eq_true hdigit⟩

theorem digit_mem (n : Nat) : digit n ∈ lowerDigits := by
  have hall : ∀ d < 16, digit d ∈ lowerDigits := by decide
  rw [← digit_mod]
  exact hall _ (Nat.mod_lt n (by decide))

theorem mem_of_mem_padded {w n : Nat} {c : Char} (h : c ∈ padded w n) : c ∈ lowerDigits := by
  induction w generalizing n with
  | zero => cases h
  | succ w ih =>
    rw [padded_succ] at h
    rcases List.mem_append.1 h with h | h
    · exact ih h
    · rw [List.mem_singleton.1 h]
      exact digit_mem n

/-- the values of digits -/
theorem mapM_value? {cs : List Char} {vs : List Nat} (h : cs.mapM value? = some vs) :
    (∀ c ∈ cs, c ∈ digits) ∧ (∀ v ∈ vs, v < 16) ∧ vs.map digit = cs.map Char.toLower := by
  induction cs generalizing vs with
  | nil =>
    obtain rfl : [] = vs := Option.some.inj h
    exact ⟨List.forall_mem_nil _, List.forall_mem_nil _, rfl⟩
  | cons c cs ih =>
    rw [List.mapM_cons] at h
    obtain ⟨v, hv, h⟩ := Option.bind_eq_some_iff.1 h
    obtain ⟨ws, hws, h⟩ := Option.bind_eq_some_iff.1 h
    obtain rfl : v :: ws = vs := Option.some.inj h
    have hc := mem_digits_of_value? hv
    obtain ⟨w, hw, hlt, hdigit⟩ := digit_of_value? hc
    obtain rfl : v = w := Option.some.inj (hv.symm.trans hw)
    obtain ⟨hcs, hlts, hdigits⟩ := ih hws
    refine ⟨List.forall_mem_cons.2 ⟨hc, hcs⟩, List.forall_mem_cons.2 ⟨hlt, hlts⟩, ?_⟩
    rw [List.map_cons, List.map_cons, hdigit, hdigits]

theorem exists_mapM_value? {cs : List Char} (h : ∀ c ∈ cs, c ∈ digits) :
    ∃ vs, cs.mapM value? = some vs := by
  induction cs with
  | nil => exact ⟨[], rfl⟩
  | cons c cs ih =>
    rw [List.forall_mem_cons] at h
    obtain ⟨v, hv, _⟩ := digit_of_value? h.1
    obtain ⟨vs, hvs⟩ := ih h.2
    exact ⟨v :: vs, by rw [List.mapM_cons, hv, hvs]; rfl⟩

end Hexadecimal

/-! ## texts -/

namespace Hex
open Hexadecimal

/-- three digits, each of them twice; other rows of digits as they are -/
def doubled {α : Type} (ds : List α) : List α :=
  if ds.length = 3 then ds.flatMap fun d => [d, d] else ds

theorem map_doubled {α β : Type} (f : α → β) (ds : List α) :
    (doubled ds).map f = doubled (ds.map f) := by
  rw [doubled, doubled, List.length_map]
  split
  · rw [List.map_flatMap, List.flatMap_map]
    rfl
  · rfl

/-- Is a text a mark with these digits, three or six of them, but for blanks around it? -/
def Writes (s : String) (ds : List Char) : Prop :=
  (∃ front back, s.toList = front ++ '#' :: ds ++ back ∧
    ∀ c ∈ front ++ back, Text.isBlank c = true) ∧
  (ds.length = 3 ∨ ds.length = 6) ∧ ∀ d ∈ ds, d ∈ digits

/-- Is a text a mark with six digits in lowercase? -/
def IsCanonical (s : String) : Prop :=
  ∃ ds, s.toList = '#' :: ds ∧ ds.length = 6 ∧ ∀ d ∈ ds, d ∈ lowerDigits

variable {s : String} {ds es : List Char} {h k : Hex}

theorem strip_eq_iff (hds : ∀ d ∈ ds, d ∈ digits) :
    Text.strip s = '#' :: ds ↔ ∃ front back, s.toList = front ++ '#' :: ds ++ back ∧
      ∀ c ∈ front ++ back, Text.isBlank c = true := by
  have hall : (('#' :: digits).all fun c => !Text.isBlank c) = true := by decide
  have hsolid (c : Char) (hc : c ∈ '#' :: digits) : Text.isBlank c = false :=
    Bool.not_eq_eq_eq_not.1 (List.all_eq_true.1 hall c hc)
  refine Text.strip_eq_iff (List.forall_mem_cons.2 ⟨?_, fun d hd => ?_⟩) (List.cons_ne_nil _ _)
  · exact hsolid _ List.mem_cons_self
  · exact hsolid d (List.mem_cons_of_mem _ (hds d hd))

theorem Writes.strip (hs : Writes s ds) : Text.strip s = '#' :: ds :=
  (strip_eq_iff hs.2.2).2 hs.1

theorem Writes.unique (hs : Writes s ds) (hs' : Writes s es) : ds = es :=
  (List.cons.inj (hs.strip.symm.trans hs'.strip)).2

theorem padded_byte {high low : Nat} (hh : high < 16) (hl : low < 16) :
    padded 2 (byte high low).toNat = [digit high, digit low] := by
  have hnat : (byte high low).toNat = 16 * high + low := by
    rw [byte, UInt8.toNat_ofNat', Nat.mod_eq_of_lt (by omega)]
  have hhigh : (16 * high + low) / 16 = high := by omega
  have hlow : (16 * high + low) % 16 = low := by omega
  rw [hnat]
  show [digit ((16 * high + low) / 16), digit (16 * high + low)] = _
  rw [hhigh, ← digit_mod (16 * high + low), hlow]

theorem chars_of_bytes {r r' g g' b b' : Nat} (hlt : ∀ v ∈ [r, r', g, g', b, b'], v < 16) :
    chars ⟨byte r r', byte g g', byte b b'⟩ = '#' :: [r, r', g, g', b, b'].map digit := by
  simp only [List.forall_mem_cons] at hlt
  obtain ⟨hr, hr', hg, hg', hb, hb', _⟩ := hlt
  rw [chars, padded_byte hr hr', padded_byte hg hg', padded_byte hb hb']
  rfl

theorem chars_of_ofDigits? {vs : List Nat} (hlt : ∀ v ∈ vs, v < 16) (hv : ofDigits? vs = some h) :
    (vs.length = 3 ∨ vs.length = 6) ∧ h.chars = '#' :: (doubled vs).map digit := by
  unfold ofDigits? at hv
  split at hv
  · next r g b =>
    obtain rfl := Option.some.inj hv
    refine ⟨.inl rfl, chars_of_bytes ?_⟩
    simp only [List.forall_mem_cons] at hlt ⊢
    obtain ⟨hr, hg, hb, hnil⟩ := hlt
    exact ⟨hr, hr, hg, hg, hb, hb, hnil⟩
  · obtain rfl := Option.some.inj hv
    exact ⟨.inr rfl, chars_of_bytes hlt⟩
  · cases hv

theorem exists_ofDigits? {vs : List Nat} (hlen : vs.length = 3 ∨ vs.length = 6) :
    ∃ h, ofDigits? vs = some h := by
  rcases hlen with hlen | hlen
  · match vs, hlen with
    | [r, g, b], _ => exact ⟨_, rfl⟩
  · match vs, hlen with
    | [r, r', g, g', b, b'], _ => exact ⟨_, rfl⟩

/-- what is read of a text has the digits of the text -/
theorem writes_of_ofText? (hs : ofText? s = some h) :
    ∃ ds, Writes s ds ∧ h.chars = '#' :: (doubled ds).map Char.toLower := by
  rw [ofText?, ofChars?.eq_def] at hs
  split at hs
  · next ds hstrip =>
    obtain ⟨vs, hvs, hv⟩ := Option.bind_eq_some_iff.1 hs
    obtain ⟨hds, hlt, hdigits⟩ := mapM_value? hvs
    obtain ⟨hlen, hchars⟩ := chars_of_ofDigits? hlt hv
    have hlength : vs.length = ds.length := by simpa using congrArg List.length hdigits
    rw [hlength] at hlen
    refine ⟨ds, ⟨(strip_eq_iff hds).1 hstrip, hlen, hds⟩, ?_⟩
    rw [hchars, map_doubled, hdigits, ← map_doubled]
  · cases hs

theorem chars_of_writes (hs : Writes s ds) (hread : ofText? s = some h) :
    h.chars = '#' :: (doubled ds).map Char.toLower := by
  obtain ⟨es, hs', hchars⟩ := writes_of_ofText? hread
  rw [hchars, hs.unique hs']

theorem exists_ofText? (hs : Writes s ds) : ∃ h, ofText? s = some h := by
  obtain ⟨vs, hvs⟩ := exists_mapM_value? hs.2.2
  obtain ⟨_, _, hdigits⟩ := mapM_value? hvs
  have hlength : vs.length = ds.length := by simpa using congrArg List.length hdigits
  obtain ⟨h, hh⟩ := exists_ofDigits? (hlength.symm ▸ hs.2.1)
  refine ⟨h, ?_⟩
  rw [ofText?, hs.strip]
  show (ds.mapM value?).bind ofDigits? = some h
  rw [hvs]
  exact hh

/-- A text is read as a color exactly if it writes one: its digits, each in lowercase and twice
where there are three, are those of the canonical text. -/
theorem ofText?_iff :
    ofText? s = some h ↔ ∃ ds, Writes s ds ∧ h.chars = '#' :: (doubled ds).map Char.toLower := by
  refine ⟨writes_of_ofText?, fun ⟨ds, hs, hchars⟩ => ?_⟩
  obtain ⟨k, hk⟩ := exists_ofText? hs
  rw [hk, chars_injective (hchars.trans (chars_of_writes hs hk).symm)]

theorem exists_ofText?_iff : (∃ h, ofText? s = some h) ↔ ∃ ds, Writes s ds := by
  constructor
  · rintro ⟨h, hh⟩
    exact (ofText?_iff.1 hh).imp fun _ hds => hds.1
  · rintro ⟨ds, hs⟩
    exact exists_ofText? hs

/-! ## canonical texts -/

theorem toList_text (h : Hex) : h.text.toList = h.chars := String.toList_ofList

theorem isCanonical_text (h : Hex) : IsCanonical h.text := by
  refine ⟨h.chars.tail, toList_text h, ?_, fun d hd => ?_⟩
  · rw [List.length_tail, length_chars]
  · rcases List.mem_append.1 hd with hd | hd
    · rcases List.mem_append.1 hd with hd | hd <;> exact mem_of_mem_padded hd
    · exact mem_of_mem_padded hd

/-- the color of a canonical text is written by it -/
theorem ofText?_text (h : Hex) : ofText? h.text = some h := by
  have hdigits : lowerDigits ⊆ digits := by decide
  have hlower : (lowerDigits.all fun c => c.toLower == c) = true := by decide
  obtain ⟨ds, hs, hlen, hds⟩ := isCanonical_text h
  have hne : ¬ds.length = 3 := by omega
  refine ofText?_iff.2 ⟨ds, ⟨⟨[], [], ?_, fun c hc => nomatch hc⟩, .inr hlen,
    fun d hd => hdigits (hds d hd)⟩, ?_⟩
  · rw [hs, List.nil_append, List.append_nil]
  · rw [doubled, if_neg hne, ← toList_text, hs,
      List.map_congr_left fun d hd => eq_of_beq (List.all_eq_true.1 hlower d (hds d hd)),
      List.map_id']

theorem ofDocument_of_some (hs : ofText? s = some h) : ofDocument (.text s) = .ok h := by
  rw [ofDocument, show (Document.text s).text?.bind ofText? = some h from hs]

theorem ofDocument_of_none (hs : ofText? s = none) :
    ofDocument (.text s) = .error (.notHex (.text s)) := by
  rw [ofDocument, show (Document.text s).text?.bind ofText? = none from hs]

theorem ofDocument_text : ofDocument (.text s) = .ok h ↔ ofText? s = some h := by
  refine ⟨fun hd => ?_, ofDocument_of_some⟩
  cases hs : ofText? s with
  | none => cases (ofDocument_of_none hs).symm.trans hd
  | some k => rw [Except.ok.inj ((ofDocument_of_some hs).symm.trans hd)]

/-- A text is read exactly if it writes a color, and refused as no color otherwise. What is read of
it has a canonical text, which is read as the same color; and of two texts the same is read exactly
if their digits are the same in lowercase, where three digits count twice each. -/
theorem ofDocument_exact (s : String) :
    ((∃ h, ofDocument (.text s) = .ok h) ↔ ∃ ds, Writes s ds) ∧
      ((¬∃ ds, Writes s ds) → ofDocument (.text s) = .error (.notHex (.text s))) ∧
      (∀ h, ofDocument (.text s) = .ok h →
        IsCanonical h.text ∧ ofDocument (.text h.text) = .ok h) ∧
      ∀ s' h h' ds ds', ofDocument (.text s) = .ok h → ofDocument (.text s') = .ok h' →
        Writes s ds → Writes s' ds' →
        (h.text = h'.text ↔ (doubled ds).map Char.toLower = (doubled ds').map Char.toLower) := by
  refine ⟨?_, fun hnone => ?_, fun h _ => ⟨isCanonical_text h, ?_⟩, ?_⟩
  · simp only [ofDocument_text]
    exact exists_ofText?_iff
  · cases hs : ofText? s with
    | none => exact ofDocument_of_none hs
    | some h => exact absurd (exists_ofText?_iff.1 ⟨h, hs⟩) hnone
  · exact ofDocument_text.2 (ofText?_text h)
  · intro s' h h' ds ds' hs hs' hds hds'
    have hchars := chars_of_writes hds (ofDocument_text.1 hs)
    have hchars' := chars_of_writes hds' (ofDocument_text.1 hs')
    constructor
    · intro heq
      rw [text_injective heq, hchars'] at hchars
      exact (List.cons.inj hchars).2.symm
    · intro heq
      rw [heq, ← hchars'] at hchars
      rw [chars_injective hchars]

/-- a no-break space and the end of a line are blanks, and wide digits are no digits -/
theorem ofDocument_exact_spaced :
    (∃ h, ofDocument (.text "\u00a0#aBc\n") = .ok h) ∧
      (∀ h h', ofDocument (.text "\u00a0#aBc\n") = .ok h → ofDocument (.text "#AABBCC") = .ok h' →
        h.text = h'.text) ∧
      ofDocument (.text "#１２３") = .error (.notHex (.text "#１２３")) := by
  have hdigits : ['a', 'B', 'c'] ⊆ digits ∧ ['A', 'A', 'B', 'B', 'C', 'C'] ⊆ digits := by decide
  have hshort : Writes "\u00a0#aBc\n" ['a', 'B', 'c'] :=
    ⟨⟨['\u00a0'], ['\n'], by decide, List.all_eq_true.1 (by decide)⟩, .inl rfl,
      fun _ hd => hdigits.1 hd⟩
  have hlong : Writes "#AABBCC" ['A', 'A', 'B', 'B', 'C', 'C'] :=
    ⟨⟨[], [], by decide, fun _ hc => (nomatch hc)⟩, .inr rfl, fun _ hd => hdigits.2 hd⟩
  obtain ⟨hread, _, _, halike⟩ := ofDocument_exact "\u00a0#aBc\n"
  obtain ⟨hwide, hrefused, _⟩ := ofDocument_exact "#１２３"
  refine ⟨hread.2 ⟨_, hshort⟩, fun h h' hs hs' => ?_, hrefused fun hds => ?_⟩
  · exact (halike _ h h' _ _ hs hs' hshort hlong).2 (by decide)
  · have hnone : ofText? "#１２３" = none := by decide
    obtain ⟨h, hh⟩ := hwide.2 hds
    cases (ofDocument_of_none hnone).symm.trans hh

end Hex
end Palette
