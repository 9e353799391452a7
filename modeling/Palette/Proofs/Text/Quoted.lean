import Mathlib.Data.List.Basic
import Mathlib.Tactic.SplitIfs
import Palette.Document.Reader
import Palette.Proofs.Text.Hexadecimal
import Palette.Proofs.Text.Point
import Palette.Text.Quoted

/-!
# Quoted texts are told apart

What documents write between quotes they read again, point by point. Only a first half with a second
one right behind it is not read as it stood: the two are written as the character of the pair. No
text that was read has them side by side, and no text of characters has any.

* `plainPoint_joined`    the joined points are written as the points are;
* `quoted?_plainChar`, `quoted?_plainHalf`   how one point is read;
* `quoted?_plain`        how a whole text is read;
* `plain_append_iff`     a quoted text ends by itself, and tells the joined points;
* `settled_ofBare`, `settled_of_wasRead`   texts of characters and texts that were read are settled;
* `isBare`, `plain_of_bare`   characters that stand for themselves.
-/

namespace Palette

namespace Text

/-! ## how points are written -/

/-- only the quote, the backslash and control characters have escapes of their own -/
theorem plainChar_of_ne {c : Char} (hquote : c ≠ '"') (hslash : c ≠ '\\') (h : 32 ≤ c.toNat) :
    plainChar c = if c.toNat < 127 then [c]
      else if c.toNat < 0x10000 then escapeUnit c.toNat else escapePair c.toNat := by
  have hne {d : Char} (hd : d.toNat < 32) : ¬(c == d) = true := by
    intro he
    obtain rfl := eq_of_beq he
    omega
  have hnat {n : Nat} (hn : n < 32) : ¬(c.toNat == n) = true := by
    intro he
    have := eq_of_beq he
    omega
  have hbare : (decide (32 ≤ c.toNat) && decide (c.toNat < 127)) = decide (c.toNat < 127) := by
    rw [decide_eq_true h, Bool.true_and]
  rw [plainChar, if_neg (by simpa using hquote), if_neg (by simpa using hslash),
    if_neg (hne (by decide)), if_neg (hne (by decide)), if_neg (hne (by decide)),
    if_neg (hnat (by decide)), if_neg (hnat (by decide))]
  simp only [hbare, decide_eq_true_eq]

/-- characters beyond ASCII are escaped -/
theorem plainChar_of_le {c : Char} (h : 127 ≤ c.toNat) :
    plainChar c = if c.toNat < 0x10000 then escapeUnit c.toNat else escapePair c.toNat := by
  have hne {d : Char} (hd : d.toNat < 127) : c ≠ d := by
    rintro rfl
    omega
  rw [plainChar_of_ne (hne (by decide)) (hne (by decide)) (by omega), if_neg (by omega)]

/-- the character of a pair is written as its two halves -/
theorem plainPoint_ofPair {m n : Nat} (hm : Point.isHigh m = true) (hn : Point.isLow n = true) :
    plainPoint (Point.ofPair m n) = escapeUnit m ++ escapeUnit n := by
  have hcode := Point.toNat_ofPair hm hn
  rw [Point.ofPair, plainPoint, plainChar_of_le (by omega), if_neg (by omega), escapePair, hcode]
  rw [Point.isHigh_iff] at hm
  rw [Point.isLow_iff] at hn
  have hfirst : 0xd800 + (0x10000 + (m - 0xd800) * 0x400 + (n - 0xdc00) - 0x10000) / 0x400 = m := by
    omega
  have hsecond :
      0xdc00 + (0x10000 + (m - 0xd800) * 0x400 + (n - 0xdc00) - 0x10000) % 0x400 = n := by
    omega
  rw [hfirst, hsecond]

/-- the joined points are written as the points are -/
theorem plainPoint_joined (ps : List Point) :
    (Point.joined ps).flatMap plainPoint = ps.flatMap plainPoint := by
  fun_induction Point.joined ps with
  | case1 => rfl
  | case2 i j ps hpair ih =>
    obtain ⟨hi, hj⟩ := Bool.and_eq_true_iff.1 hpair
    rw [List.flatMap_cons, plainPoint_ofPair hi hj, ih, List.append_assoc]
    rfl
  | case3 i j ps hpair ih => rw [List.flatMap_cons, ih]; rfl
  | case4 ps ih => rw [List.flatMap_cons, ih]; rfl
  | case5 p ps hhalf hstray ih => rw [List.flatMap_cons, ih, List.flatMap_cons]

end Text

namespace Document.Reader
open Text

/-! ## how points are read -/

theorem unit?_padded {n : Nat} (h : n < 0x10000) (rest : List Char) :
    unit? (Hexadecimal.padded 4 n ++ rest) = some (n, rest) := by
  show unit? (_ :: _ :: _ :: _ :: rest) = _
  simp only [unit?, Hexadecimal.value?_digit, Option.bind_eq_bind, Option.bind_some]
  congr 2
  omega

theorem escape?_escapeUnit {n : Nat} (h : n < 0x10000) (rest : List Char) :
    escape? (escapeUnit n ++ rest) = some (n, rest) := unit?_padded h rest

/-- a unit is read by itself unless it is a first half and a second one is escaped behind it -/
theorem point_of_not_pair {n : Nat} {rest : List Char}
    (h : ∀ m after, escape? rest = some (m, after) → (Point.isHigh n && Point.isLow m) = false) :
    point n rest = (Point.ofUnit n, rest) := by
  rw [point]
  split
  · next m after hm =>
    rw [h m after hm]
    rfl
  · rfl

theorem quoted?_escapeUnit {n : Nat} (h : n < 0x10000) (fuel : Nat) (done : List Point)
    (rest : List Char) :
    quoted? (fuel + 1) done (escapeUnit n ++ rest) =
      quoted? fuel ((point n rest).1 :: done) (point n rest).2 := by
  show quoted? (fuel + 1) done ('\\' :: 'u' :: (Hexadecimal.padded 4 n ++ rest)) = _
  rw [quoted?, unit?_padded h]
  rfl

/-- a first half and a second one are read as the character of the pair -/
theorem point_of_pair {m n : Nat} (hm : Point.isHigh m = true) (hn : Point.isLow n = true)
    (rest : List Char) : point m (escapeUnit n ++ rest) = (Point.ofPair m n, rest) := by
  have hbound := Point.isLow_iff.1 hn
  rw [point, escape?_escapeUnit (by omega)]
  show (if Point.isHigh m && Point.isLow n then _ else _) = _
  rw [hm, hn]
  rfl

theorem quoted?_escapePair {c : Char} (h : 0x10000 ≤ c.toNat) (fuel : Nat) (done : List Point)
    (rest : List Char) :
    quoted? (fuel + 1) done (escapePair c.toNat ++ rest) = quoted? fuel (.char c :: done) rest := by
  have hvalid := Point.toNat_lt c
  have hhigh : Point.isHigh (0xd800 + (c.toNat - 0x10000) / 0x400) = true := by
    rw [Point.isHigh_iff]
    omega
  have hlow : Point.isLow (0xdc00 + (c.toNat - 0x10000) % 0x400) = true := by
    rw [Point.isLow_iff]
    omega
  have hcode : 0x10000 + (0xd800 + (c.toNat - 0x10000) / 0x400 - 0xd800) * 0x400 +
      (0xdc00 + (c.toNat - 0x10000) % 0x400 - 0xdc00) = c.toNat := by omega
  rw [escapePair, List.append_assoc, quoted?_escapeUnit (by omega), point_of_pair hhigh hlow,
    Point.ofPair, hcode, Char.ofNat_toNat]

/-- a character that stands for itself is read as itself -/
theorem quoted?_cons {c : Char} (hquote : c ≠ '"') (hslash : c ≠ '\\') (h : 32 ≤ c.toNat)
    (fuel : Nat) (done : List Point) (rest : List Char) :
    quoted? (fuel + 1) done (c :: rest) = quoted? fuel (.char c :: done) rest := by
  rw [quoted?]
  · rw [if_neg]
    simp only [Bool.or_eq_true, decide_eq_true_eq, beq_iff_eq, not_or]
    exact ⟨by omega, hslash⟩
  · exact hquote
  · intro _ hc
    exact absurd hc hslash
  · intro _ _ hc
    exact absurd hc hslash

/-- a character is read from what is written for it -/
theorem quoted?_plainChar (c : Char) (fuel : Nat) (done : List Point) (rest : List Char) :
    quoted? (fuel + 1) done (plainChar c ++ rest) = quoted? fuel (.char c :: done) rest := by
  have hnumber {n : Nat} (h : (c.toNat == n) = true) : c = Char.ofNat n := by
    rw [← eq_of_beq h, Char.ofNat_toNat]
  rw [plainChar]
  split_ifs with hquote hslash hline hreturn htab hback hfeed hbare hbasic
  · rw [eq_of_beq hquote]; rfl
  · rw [eq_of_beq hslash]; rfl
  · rw [eq_of_beq hline]; rfl
  · rw [eq_of_beq hreturn]; rfl
  · rw [eq_of_beq htab]; rfl
  · rw [hnumber hback]; rfl
  · rw [hnumber hfeed]; rfl
  · rw [Bool.and_eq_true, decide_eq_true_eq, decide_eq_true_eq] at hbare
    exact quoted?_cons (by simpa using hquote) (by simpa using hslash) hbare.1 fuel done rest
  · have hsingle : point c.toNat rest = (Point.ofUnit c.toNat, rest) :=
      point_of_not_pair fun m _ _ => by rw [Point.isHigh_toNat, Bool.false_and]
    rw [quoted?_escapeUnit hbasic, hsingle, Point.ofUnit_toNat]
  · exact quoted?_escapePair (by omega) fuel done rest

/-- no character is written with a second half in front -/
theorem escape?_plainChar {c : Char} {m : Nat} {rest after : List Char}
    (h : escape? (plainChar c ++ rest) = some (m, after)) : Point.isLow m = false := by
  have hvalid := Point.toNat_lt c
  rw [plainChar] at h
  split_ifs at h with hquote hslash _ _ _ _ _ hbare hbasic
  iterate 7 cases h
  · rw [List.singleton_append, escape?] at h
    · cases h
    · intro _ hc
      rw [(List.cons.inj hc).1] at hslash
      exact absurd rfl hslash
  · rw [escape?_escapeUnit hbasic] at h
    cases h
    exact Point.isLow_toNat c
  · rw [escapePair, List.append_assoc, escape?_escapeUnit (by omega)] at h
    cases h
    rw [Bool.eq_false_iff, Ne, Point.isLow_iff]
    omega

theorem lt_of_half (i : Fin 2048) : (Point.half i).code < 0x10000 := by
  rw [Point.code_half]
  omega

/-- a half is read from what is written for it, unless it is first and a second one follows -/
theorem quoted?_plainHalf {i : Fin 2048} {rest : List Char}
    (h : ∀ m after, escape? rest = some (m, after) →
      (Point.isHigh (Point.half i).code && Point.isLow m) = false)
    (fuel : Nat) (done : List Point) :
    quoted? (fuel + 1) done (plainPoint (.half i) ++ rest) =
      quoted? fuel (.half i :: done) rest := by
  rw [plainPoint, quoted?_escapeUnit (lt_of_half i), point_of_not_pair h, Point.ofUnit_code]

theorem escape?_plainHalf {j : Fin 2048} {ps : List Point} {m : Nat} {rest after : List Char}
    (h : escape? ((Point.half j :: ps).flatMap plainPoint ++ '"' :: rest) = some (m, after)) :
    m = (Point.half j).code := by
  rw [List.flatMap_cons, List.append_assoc, plainPoint, escape?_escapeUnit (lt_of_half j)] at h
  cases h
  rfl

/-- what is written has a second half in front only where the points have a half -/
theorem isLow_of_escape? {ps : List Point} {m : Nat} {rest after : List Char}
    (hps : ∀ j qs, ps ≠ .half j :: qs)
    (h : escape? (ps.flatMap plainPoint ++ '"' :: rest) = some (m, after)) :
    Point.isLow m = false := by
  cases ps with
  | nil => cases h
  | cons q ps =>
    rw [List.flatMap_cons, List.append_assoc] at h
    cases q with
    | char c => exact escape?_plainChar h
    | stray =>
      rw [plainPoint] at h
      exact escape?_plainChar h
    | half j => exact absurd rfl (hps j ps)

theorem reverse_cons_append (p : Point) (done ps : List Point) :
    (p :: done).reverse ++ ps = done.reverse ++ p :: ps := by
  rw [List.reverse_cons, List.append_assoc, List.singleton_append]

/-- what is written between quotes is read as the joined points -/
theorem quoted?_plain (ps : List Point) {fuel : Nat} (h : ps.length < fuel) (done : List Point)
    (rest : List Char) :
    quoted? fuel done (ps.flatMap plainPoint ++ '"' :: rest) =
      some (ofPoints (done.reverse ++ Point.joined ps), rest) := by
  -- a pair takes one unit of fuel for its two points, every other point takes one
  fun_induction Point.joined ps generalizing fuel done with
  | case1 =>
    obtain ⟨fuel, rfl⟩ := Nat.exists_eq_succ_of_ne_zero (Nat.ne_zero_of_lt h)
    rw [List.append_nil]
    rfl
  | case2 i j ps hpair ih =>
    obtain ⟨fuel, rfl⟩ := Nat.exists_eq_succ_of_ne_zero (Nat.ne_zero_of_lt h)
    obtain ⟨hi, hj⟩ := Bool.and_eq_true_iff.1 hpair
    have hps : ps.length < fuel := Nat.lt_of_succ_lt (Nat.lt_of_succ_lt_succ h)
    rw [List.flatMap_cons, List.flatMap_cons, List.append_assoc, List.append_assoc, plainPoint,
      quoted?_escapeUnit (lt_of_half i), plainPoint, point_of_pair hi hj, ih hps,
      reverse_cons_append]
  | case3 i j ps hpair ih =>
    obtain ⟨fuel, rfl⟩ := Nat.exists_eq_succ_of_ne_zero (Nat.ne_zero_of_lt h)
    have hsecond : ∀ m after,
        escape? ((Point.half j :: ps).flatMap plainPoint ++ '"' :: rest) = some (m, after) →
        (Point.isHigh (Point.half i).code && Point.isLow m) = false := by
      intro m after hm
      rw [escape?_plainHalf hm]
      exact Bool.eq_false_iff.2 hpair
    rw [List.flatMap_cons, List.append_assoc, quoted?_plainHalf hsecond,
      ih (Nat.lt_of_succ_lt_succ h), reverse_cons_append]
  | case4 ps ih =>
    obtain ⟨fuel, rfl⟩ := Nat.exists_eq_succ_of_ne_zero (Nat.ne_zero_of_lt h)
    rw [List.flatMap_cons, List.append_assoc, plainPoint, quoted?_plainChar,
      ih (Nat.lt_of_succ_lt_succ h), reverse_cons_append]
  | case5 p ps hhalf hstray ih =>
    obtain ⟨fuel, rfl⟩ := Nat.exists_eq_succ_of_ne_zero (Nat.ne_zero_of_lt h)
    have hstep : quoted? (fuel + 1) done (plainPoint p ++ (ps.flatMap plainPoint ++ '"' :: rest)) =
        quoted? fuel (p :: done) (ps.flatMap plainPoint ++ '"' :: rest) := by
      cases p with
      | char c => exact quoted?_plainChar c fuel done _
      | stray => exact absurd rfl hstray
      | half i =>
        have hapart : ∀ j qs, ps ≠ Point.half j :: qs := fun j qs hps => hhalf i j qs rfl hps
        refine quoted?_plainHalf (fun m after hm => ?_) fuel done
        rw [isLow_of_escape? hapart hm, Bool.and_false]
    rw [List.flatMap_cons, List.append_assoc, hstep, ih (Nat.lt_of_succ_lt_succ h),
      reverse_cons_append]

end Document.Reader

namespace Text
open Document.Reader

/-! ## texts that are told apart -/

theorem points_ofPoints {ps : List Point} (h : .stray ∉ ps) : points (ofPoints ps) = ps := by
  rw [points, ofPoints, String.toList_ofList, Point.ofChars_flatMap_chars h]

/-- a quoted text ends by itself, and tells the joined points of what it is written for -/
theorem plain_append_iff {a b r r' : List Char} :
    plain a ++ r = plain b ++ r' ↔
      Point.joined (Point.ofChars a) = Point.joined (Point.ofChars b) ∧ r = r' := by
  have hplain (cs rest : List Char) :
      plain cs ++ rest = '"' :: ((Point.ofChars cs).flatMap plainPoint ++ '"' :: rest) := by
    rw [plain, List.append_assoc, List.cons_append]
    rfl
  constructor
  · intro h
    rw [hplain, hplain, List.cons.injEq] at h
    -- one fuel for both, so that the same text is read in the same way
    let fuel := (Point.ofChars a).length + (Point.ofChars b).length + 1
    have ha : (Point.ofChars a).length < fuel := by omega
    have hb : (Point.ofChars b).length < fuel := by omega
    have hread := quoted?_plain _ ha [] r
    rw [h.2, quoted?_plain _ hb [] r'] at hread
    obtain ⟨htext, hrest⟩ := Prod.mk.inj (Option.some.inj hread)
    have hpoints := congrArg points htext
    rw [List.reverse_nil, List.nil_append, List.nil_append,
      points_ofPoints (Point.stray_not_mem_joined _),
      points_ofPoints (Point.stray_not_mem_joined _)] at hpoints
    exact ⟨hpoints.symm, hrest.symm⟩
  · rintro ⟨hpoints, rfl⟩
    rw [hplain, hplain, ← plainPoint_joined, hpoints, plainPoint_joined]

/-- is a text read as it stands where it is written? -/
def Settled (s : String) : Prop := Point.joined (points s) = points s

theorem points_ofBare (s : String) : points (ofBare s) = s.toList.map .char := by
  refine points_ofPoints fun h => ?_
  obtain ⟨_, _, hc⟩ := List.mem_map.1 h
  cases hc

theorem ofBare_injective {s t : String} (h : ofBare s = ofBare t) : s = t := by
  have hpoints := congrArg points h
  rw [points_ofBare, points_ofBare] at hpoints
  exact String.toList_injective (List.map_injective_iff.2 (fun _ _ => Point.char.inj) hpoints)

/-- a text of characters is settled -/
theorem settled_ofBare (s : String) : Settled (ofBare s) := by
  rw [Settled, points_ofBare]
  induction s.toList with
  | nil => rfl
  | cons c cs ih => rw [List.map_cons, Point.joined_char, ih]

/-- a text that was read between quotes -/
def WasRead (s : String) : Prop := ∃ fuel cs rest, quoted? fuel [] cs = some (s, rest)

/-- the points that are read from a text: settled, and a half in front was escaped in front -/
structure Reading (cs : List Char) (ps : List Point) : Prop where
  settled : Point.joined ps = ps
  escaped : ∀ j qs, ps = .half j :: qs → ∃ after, escape? cs = some ((Point.half j).code, after)

theorem Reading.char {cs cs' : List Char} {ps : List Point} (h : Reading cs ps) (c : Char) :
    Reading cs' (.char c :: ps) where
  settled := by rw [Point.joined_char, h.settled]
  escaped j qs hps := nomatch (List.cons.inj hps).1

theorem Reading.unit {cs rest : List Char} {n : Nat} {ps : List Point}
    (hunit : unit? cs = some (n, rest)) (h : Reading (point n rest).2 ps) :
    Reading ('\\' :: 'u' :: cs) ((point n rest).1 :: ps) := by
  by_cases hpair : ∀ m after, escape? rest = some (m, after) →
      (Point.isHigh n && Point.isLow m) = false
  · rw [point_of_not_pair hpair] at h ⊢
    cases hn : Point.ofUnit n with
    | char c => exact h.char c
    | stray => exact absurd hn (Point.ofUnit_ne_stray n)
    | half i =>
      obtain rfl := Point.code_of_ofUnit hn
      constructor
      · rw [Point.joined_half, h.settled]
        intro j qs hps
        obtain ⟨after, hafter⟩ := h.escaped j qs hps
        exact hpair _ after hafter
      · intro j qs hps
        obtain rfl : i = j := Point.half.inj (List.cons.inj hps).1
        exact ⟨rest, hunit⟩
  · push Not at hpair
    obtain ⟨m, after, hm, hpair⟩ := hpair
    have hpoint : point n rest = (Point.ofPair n m, after) := by
      rw [point, hm]
      exact if_pos (Bool.of_not_eq_false hpair)
    rw [hpoint]
    exact h.char _

/-- what is read is settled at every step -/
theorem reading_of_quoted? {fuel : Nat} {done : List Point} {cs rest : List Char} {s : String}
    (h : quoted? fuel done cs = some (s, rest)) :
    ∃ ps, s = ofPoints (done.reverse ++ ps) ∧ Reading cs ps := by
  fun_induction quoted? fuel done cs with
  | case1 => cases h
  | case2 => cases h
  | case3 fuel done rest =>
    cases h
    refine ⟨[], by rw [List.append_nil], rfl, ?_⟩
    intro j qs hps
    cases hps
  | case4 fuel done cs ih =>
    obtain ⟨⟨n, rest'⟩, hunit, h⟩ := Option.bind_eq_some_iff.1 h
    obtain ⟨ps, rfl, hps⟩ := ih _ _ h
    exact ⟨_ :: ps, congrArg ofPoints (reverse_cons_append _ done ps), hps.unit hunit⟩
  | case5 fuel done e cs he ih =>
    obtain ⟨c, hc, h⟩ := Option.bind_eq_some_iff.1 h
    obtain ⟨ps, rfl, hps⟩ := ih _ h
    exact ⟨_ :: ps, congrArg ofPoints (reverse_cons_append _ done ps), hps.char c⟩
  | case6 => cases h
  | case7 fuel done c cs _ _ _ _ ih =>
    obtain ⟨ps, rfl, hps⟩ := ih h
    exact ⟨_ :: ps, congrArg ofPoints (reverse_cons_append _ done ps), hps.char c⟩

theorem settled_of_wasRead {s : String} (h : WasRead s) : Settled s := by
  obtain ⟨fuel, cs, rest, h⟩ := h
  obtain ⟨ps, rfl, hps⟩ := reading_of_quoted? h
  have hstray : Point.stray ∉ ps := hps.settled ▸ Point.stray_not_mem_joined ps
  rw [Settled, List.reverse_nil, List.nil_append, points_ofPoints hstray]
  exact hps.settled

/-! ## characters that stand for themselves -/

/-- printable ASCII but the quote and the backslash -/
def isBare (c : Char) : Bool := 32 ≤ c.toNat && c.toNat < 127 && c != '"' && c != '\\'

theorem isBare_iff {c : Char} :
    isBare c = true ↔ 32 ≤ c.toNat ∧ c.toNat < 127 ∧ c ≠ '"' ∧ c ≠ '\\' := by
  rw [isBare, Bool.and_eq_true, Bool.and_eq_true, Bool.and_eq_true, decide_eq_true_eq,
    decide_eq_true_eq, bne_iff_ne, bne_iff_ne, and_assoc, and_assoc]

theorem plainChar_of_bare {c : Char} (h : isBare c = true) : plainChar c = [c] := by
  obtain ⟨hmin, hmax, hquote, hslash⟩ := isBare_iff.1 h
  rw [plainChar_of_ne hquote hslash hmin, if_pos hmax]

theorem ofChars_of_bare {cs : List Char} (h : ∀ c ∈ cs, isBare c = true) :
    Point.ofChars cs = cs.map .char := by
  induction cs with
  | nil => rfl
  | cons c cs ih =>
    obtain ⟨hc, hcs⟩ := List.forall_mem_cons.1 h
    have hmark : c ≠ Point.mark := by
      rintro rfl
      exact absurd hc (by decide)
    rw [Point.ofChars_cons_of_ne hmark, ih hcs]
    rfl

theorem plain_of_bare {cs : List Char} (h : ∀ c ∈ cs, isBare c = true) :
    plain cs = '"' :: cs ++ ['"'] := by
  have hflat : (cs.map Point.char).flatMap plainPoint = cs := by
    induction cs with
    | nil => rfl
    | cons c cs ih =>
      obtain ⟨hc, hcs⟩ := List.forall_mem_cons.1 h
      rw [List.map_cons, List.flatMap_cons, plainPoint, plainChar_of_bare hc, ih hcs]
      rfl
  rw [plain, ofChars_of_bare h, hflat]

theorem isBare_digit (n : Nat) : isBare (Hexadecimal.digit n) = true := by
  have h : ∀ d < 16, isBare (Hexadecimal.digit d) = true := by decide
  rw [← Hexadecimal.digit_mod]
  exact h _ (Nat.mod_lt n (by decide))

theorem isBare_padded (w n : Nat) : ∀ c ∈ Hexadecimal.padded w n, isBare c = true := by
  induction w generalizing n with
  | zero => exact fun _ h => nomatch h
  | succ w ih =>
    intro c hc
    rw [Hexadecimal.padded_succ, List.mem_append, List.mem_singleton] at hc
    obtain hc | rfl := hc
    · exact ih _ c hc
    · exact isBare_digit n

/-- a color stands between quotes as it is -/
theorem plain_hex (h : Hex) : plain h.chars = '"' :: h.chars ++ ['"'] := by
  refine plain_of_bare (List.forall_mem_cons.2 ⟨by decide, fun c hc => ?_⟩)
  rw [List.mem_append, List.mem_append] at hc
  obtain (hc | hc) | hc := hc
  all_goals exact isBare_padded _ _ c hc

end Text
end Palette
