/-!
# Points

A text is a row of points. A point is a character, or one half of a pair of units of sixteen bits
whose other half is missing. No character is a half, so two characters write one: a mark, and the
stand-in of the half, a private character. The mark itself is written twice.

* `Point`            points, and `Point.code` their numbers;
* `Point.chars`      the characters that write a point;
* `Point.ofChars`    the points that characters write, and `Text.points` those of a text;
* `Text.letters`     a text in parts of one point each;
* `Text.ofBare`      the text of characters as they stand in a file;
* `Text.bare?`       the characters of a text as they stand in a file, if it has no halves;
* `Point.halves?`    the first halves of a row of points.

`flatMap_chars_ofChars` says that the points of characters write them again, so texts with the
same points are the same.
-/

namespace Palette

/-- a part of a text -/
inductive Point where
  /-- a character -/
  | char (c : Char)
  /-- a half: the first ones of pairs come before the second ones -/
  | half (index : Fin 2048)
  /-- a mark with neither a stand-in nor a second mark behind it; no text that was read has one -/
  | stray
  deriving DecidableEq, Repr

namespace Point

def firstHalf : Nat := 0xd800

/-- the number of the first stand-in -/
def firstStandIn : Nat := 0xfd800

/-- the mark, which stands before the stand-ins -/
def mark : Char := Char.ofNat 0xfd7ff

/-- the character behind the mark for a half -/
def standIn (index : Fin 2048) : Char := Char.ofNat (firstStandIn + index)

/-- the half for which a character stands behind the mark -/
def index? (c : Char) : Option (Fin 2048) :=
  if h : firstStandIn ≤ c.toNat ∧ c.toNat < firstStandIn + 2048 then
    some ⟨c.toNat - firstStandIn, by omega⟩
  else none

def chars : Point → List Char
  | .char c => if c = mark then [mark, mark] else [c]
  | .half i => [mark, standIn i]
  | .stray => [mark]

/-- the point that a character behind the mark writes with it -/
def marked? (c : Char) : Option Point :=
  if c = mark then some (.char mark) else (index? c).map .half

def ofChars : List Char → List Point
  | [] => []
  | [c] => [if c = mark then .stray else .char c]
  | c :: d :: cs =>
    if c = mark then
      match marked? d with
      | some p => p :: ofChars cs
      | none => .stray :: ofChars (d :: cs)
    else .char c :: ofChars (d :: cs)

def code : Point → Nat
  | .char c => c.toNat
  | .half i => firstHalf + i
  | .stray => mark.toNat

def char? : Point → Option Char
  | .char c => some c
  | .half _ => none
  | .stray => some mark

def isHalf : Point → Bool
  | .half _ => true
  | _ => false

/-- is the number the first half of a pair? -/
def isHigh (n : Nat) : Bool := 0xd800 ≤ n && n < 0xdc00

/-- is the number the second half of a pair? -/
def isLow (n : Nat) : Bool := 0xdc00 ≤ n && n < 0xe000

/-- the point with a number of sixteen bits -/
def ofUnit (n : Nat) : Point :=
  if h : firstHalf ≤ n ∧ n < firstHalf + 2048 then .half ⟨n - firstHalf, by omega⟩
  else .char (Char.ofNat n)

/-- the character of the two halves of a pair -/
def ofPair (high low : Nat) : Point :=
  .char (Char.ofNat (0x10000 + (high - 0xd800) * 0x400 + (low - 0xdc00)))

/-! ## halves side by side -/

end Point

/-- halves side by side: where they begin, the first of them, and how many they are -/
structure Halves where
  position : Nat
  first : Nat
  count : Nat
  deriving DecidableEq, Repr

namespace Point

/-- the first halves from one on that is not admitted -/
def halves? (admitted : Fin 2048 → Bool) : List Point → Option Halves
  | [] => none
  | .half i :: ps =>
    if admitted i then (halves? admitted ps).map fun r => { r with position := r.position + 1 }
    else some ⟨0, firstHalf + i, 1 + (ps.takeWhile isHalf).length⟩
  | _ :: ps => (halves? admitted ps).map fun r => { r with position := r.position + 1 }

end Point

/-! ## texts -/

namespace Text

def points (s : String) : List Point := Point.ofChars s.toList

def ofPoints (ps : List Point) : String := String.ofList (ps.flatMap Point.chars)

def letters (s : String) : List String := (points s).map fun p => String.ofList p.chars

/-- the text of characters as they stand in a file -/
def ofBare (s : String) : String := ofPoints (s.toList.map .char)

/-- the characters of a text as they stand in a file, or its first halves -/
def bare? (s : String) : Except Halves String :=
  match Point.halves? (fun _ => false) (points s) with
  | some r => .error r
  | none => .ok (String.ofList ((points s).filterMap Point.char?))

end Text

/-! ## points and characters -/

namespace Point

theorem toNat_standIn (i : Fin 2048) : (standIn i).toNat = firstStandIn + i := by
  have hv : (firstStandIn + i.val).isValidChar := by
    right
    constructor <;> simp only [firstStandIn] <;> omega
  rw [standIn, Char.ofNat, dif_pos hv]
  rfl

theorem index?_standIn (i : Fin 2048) : index? (standIn i) = some i := by
  have h := i.isLt
  unfold index?
  rw [dif_pos (by rw [toNat_standIn]; omega)]
  simp [toNat_standIn]

/-- only the stand-in of a half stands for it -/
theorem standIn_of_index? (c : Char) (i : Fin 2048) (h : index? c = some i) : standIn i = c := by
  unfold index? at h
  split at h
  · next hc =>
    obtain rfl := Option.some.inj h
    rw [standIn, Nat.add_sub_cancel' hc.1, Char.ofNat_toNat]
  · cases h

theorem chars_marked? (c : Char) (p : Point) (h : marked? c = some p) : p.chars = [mark, c] := by
  unfold marked? at h
  split at h
  · next hc =>
    obtain rfl := Option.some.inj h
    rw [chars, if_pos rfl, hc]
  · obtain ⟨i, hi, rfl⟩ := Option.map_eq_some_iff.1 h
    rw [chars, standIn_of_index? c i hi]

theorem flatMap_chars_ofChars (cs : List Char) : (ofChars cs).flatMap chars = cs := by
  fun_induction ofChars cs with
  | case1 => rfl
  | case2 c =>
    by_cases h : c = mark
    · simp [h, chars]
    · simp [h, chars]
  | case3 d cs p hd ih =>
    rw [List.flatMap_cons, ih, chars_marked? d p hd]
    rfl
  | case4 d cs hd ih =>
    rw [List.flatMap_cons, ih]
    rfl
  | case5 c cs d hc ih => simp [chars, hc, ih]

/-- texts with the same points are the same -/
theorem ofChars_injective {a b : List Char} (h : ofChars a = ofChars b) : a = b := by
  rw [← flatMap_chars_ofChars a, ← flatMap_chars_ofChars b, h]

end Point

example : Text.letters (Text.ofPoints [.char 'a', .half 0, .char Point.mark]) =
    ["a", Text.ofPoints [.half 0], Text.ofBare (String.ofList [Point.mark])] := by
  decide

end Palette
