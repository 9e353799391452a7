import Mathlib.Algebra.Group.Nat.Defs
import Palette.Proofs.Fingerprint.Primitives

/-!
# Fingerprints notice any one character

A round of the hash is one to one in the value and in the code, so texts that differ in one
character only never have the same hash, whatever stands before and behind it.

* `step_inj`, `foldl_step_inj`   a round and a run of rounds are one to one in the value;
* `djb2_ne`              so texts that differ in one code have different hashes;
* `render_injective`     hashes with the same numeral are the same;
* `maskedStep`, `rawStep`   a round with a mask, and one without;
* `differences`          in how many places two texts differ;
* `Alongside`            texts that differ exactly where parts of them differ;
* `alongside_payload`    the hashed texts of ramps differ exactly where the digits do;
* `ofRamps_notices`      one character changes the hash, and one digit the fingerprint.
-/

namespace Palette.Fingerprint

/-! ## rounds -/

/-- what undoes a multiplication by 33 -/
def unscale : UInt32 := 1041204193

theorem mul_unscale (v : UInt32) : v * 33 * unscale = v := by
  rw [UInt32.mul_assoc, show (33 : UInt32) * unscale = 1 from by decide, UInt32.mul_one]

theorem step_inj {v w : UInt32} {code : Nat} (h : step v code = step w code) : v = w := by
  have hscaled : v * 33 = w * 33 := (UInt32.xor_left_inj _).1 h
  rw [← mul_unscale v, hscaled, mul_unscale]

/-- what follows keeps values apart -/
theorem foldl_step_inj {codes : List Nat} {v w : UInt32}
    (h : codes.foldl step v = codes.foldl step w) : v = w := by
  induction codes generalizing v w with
  | nil => exact h
  | cons code codes ih => exact step_inj (ih h)

theorem ofNat_inj {m n : Nat} (hm : m < 2 ^ 32) (hn : n < 2 ^ 32)
    (h : UInt32.ofNat m = UInt32.ofNat n) : m = n := by
  have hnat := congrArg UInt32.toNat h
  rwa [UInt32.toNat_ofNat', UInt32.toNat_ofNat', Nat.mod_eq_of_lt hm, Nat.mod_eq_of_lt hn] at hnat

theorem djb2_ne {a b : Nat} (ha : a < 2 ^ 32) (hb : b < 2 ^ 32) (hne : a ≠ b) (p s : List Nat) :
    djb2 (p ++ a :: s) ≠ djb2 (p ++ b :: s) := by
  intro h
  rw [djb2_append, djb2_append, List.foldl_cons, List.foldl_cons] at h
  exact hne (ofNat_inj ha hb ((UInt32.xor_right_inj _).1 (foldl_step_inj h)))

theorem render_injective {v w : UInt32} (h : render v = render w) : v = w :=
  UInt32.toNat.inj (Hexadecimal.numeral_injective (String.ofList_injective h))

/-! ## masks -/

/-- a round with a mask of 32 bits -/
def maskedStep (value code : Nat) : Nat := (((value <<< 5) + value) ^^^ code) &&& 0xffffffff

/-- a round without a mask -/
def rawStep (value code : Nat) : Nat := (33 * value) ^^^ code

theorem maskedStep_eq (value code : Nat) : maskedStep value code = rawStep value code % 2 ^ 32 := by
  have hscale : value <<< 5 + value = 33 * value := by
    rw [Nat.shiftLeft_eq]
    omega
  rw [maskedStep, rawStep, hscale, ← Nat.and_two_pow_sub_one_eq_mod]

/-- a round depends on the low 32 bits of the value only -/
theorem maskedStep_mod (value code : Nat) :
    maskedStep (value % 2 ^ 32) code = rawStep value code % 2 ^ 32 := by
  rw [maskedStep_eq, rawStep, Nat.xor_mod_two_pow, Nat.mul_mod_mod, ← Nat.xor_mod_two_pow, rawStep]

theorem toNat_step (value : UInt32) (code : Nat) :
    (step value code).toNat = maskedStep value.toNat code := by
  rw [step, UInt32.toNat_xor, UInt32.toNat_mul, UInt32.toNat_ofNat', ← Nat.xor_mod_two_pow,
    Nat.mul_comm, maskedStep_eq]
  rfl

theorem toNat_djb2 (codes : List Nat) : (djb2 codes).toNat = codes.foldl maskedStep 5381 :=
  (List.foldl_hom UInt32.toNat fun value code => (toNat_step value code).symm).symm

/-- masks in every round are as good as one at the end -/
theorem foldl_maskedStep (codes : List Nat) :
    codes.foldl maskedStep 5381 = codes.foldl rawStep 5381 % 2 ^ 32 := by
  have hstart : 5381 % 2 ^ 32 = 5381 := Nat.mod_eq_of_lt (by decide)
  rw [← List.foldl_hom (· % 2 ^ 32) maskedStep_mod, hstart]

/-! ## differences -/

/-- in how many places two texts differ -/
def differences (t u : List Char) : Nat := (t.zip u).countP fun c => c.1 != c.2

theorem differences_self (t : List Char) : differences t t = 0 := by
  induction t with
  | nil => rfl
  | cons c t ih => rw [differences, List.zip_cons_cons, List.countP_cons_of_neg (by simp)]; exact ih

theorem differences_append {t u t' u' : List Char} (h : t.length = u.length) :
    differences (t ++ t') (u ++ u') = differences t u + differences t' u' := by
  rw [differences, List.zip_append h, List.countP_append]
  rfl

theorem eq_of_differences_eq_zero {t u : List Char} (hlen : t.length = u.length)
    (h : differences t u = 0) : t = u := by
  induction t generalizing u with
  | nil => exact (List.length_eq_zero_iff.1 hlen.symm).symm
  | cons c t ih =>
    cases u with
    | nil => cases hlen
    | cons d u =>
      rw [differences, List.zip_cons_cons, List.countP_cons, Nat.add_eq_zero_iff] at h
      have hhead : c = d := by simpa using h.2
      rw [hhead, ih (Nat.succ.inj hlen) h.1]

/-- texts that differ in one place are the same before and behind it -/
theorem exists_of_differences_eq_one {t u : List Char} (hlen : t.length = u.length)
    (h : differences t u = 1) :
    ∃ p a b s, a ≠ b ∧ t = p ++ a :: s ∧ u = p ++ b :: s := by
  induction t generalizing u with
  | nil => cases h
  | cons c t ih =>
    cases u with
    | nil => cases hlen
    | cons d u =>
      rw [differences, List.zip_cons_cons, List.countP_cons] at h
      by_cases hhead : c = d
      · subst hhead
        have htail : differences t u = 1 := by simpa [differences] using h
        obtain ⟨p, a, b, s, hne, rfl, rfl⟩ := ih (Nat.succ.inj hlen) htail
        exact ⟨c :: p, a, b, s, hne, rfl, rfl⟩
      · have htail : differences t u = 0 := by simpa [differences, hhead] using h
        rw [eq_of_differences_eq_zero (Nat.succ.inj hlen) htail]
        exact ⟨[], c, d, u, hhead, rfl, rfl⟩

/-- `t` and `u` are as long as one another, as are `d` and `e`, and differ as often as these do -/
structure Alongside (t u d e : List Char) : Prop where
  length : t.length = u.length
  shape : d.length = e.length
  count : differences t u = differences d e

namespace Alongside

theorem same (t : List Char) : Alongside t t [] [] := ⟨rfl, rfl, differences_self t⟩

theorem self {t u : List Char} (h : t.length = u.length) : Alongside t u t u := ⟨h, h, rfl⟩

theorem append {t u d e t' u' d' e' : List Char} (h : Alongside t u d e)
    (h' : Alongside t' u' d' e') : Alongside (t ++ t') (u ++ u') (d ++ d') (e ++ e') where
  length := by rw [List.length_append, List.length_append, h.length, h'.length]
  shape := by rw [List.length_append, List.length_append, h.shape, h'.shape]
  count := by
    rw [differences_append h.length, differences_append h.shape, h.count, h'.count]

/-- the same text in front changes nothing -/
theorem behind {t u d e : List Char} (p : List Char) (h : Alongside t u d e) :
    Alongside (p ++ t) (p ++ u) d e := (same p).append h

/-- the same text at the end changes nothing -/
theorem before {t u d e : List Char} (h : Alongside t u d e) (s : List Char) :
    Alongside (t ++ s) (u ++ s) d e := by
  have hends := h.append (same s)
  rwa [List.append_nil, List.append_nil] at hends

variable {α β : Type} {f d : α → List Char} {shape : α → β}

/-- rows with commas between their pieces -/
theorem commas (h : ∀ a b, shape a = shape b → Alongside (f a) (f b) (d a) (d b)) {as bs : List α}
    (hrows : as.map shape = bs.map shape) :
    Alongside (commas (as.map f)) (commas (bs.map f)) (as.flatMap d) (bs.flatMap d) := by
  have hmore {as bs : List α} (hrows : as.map shape = bs.map shape) :
      Alongside (as.flatMap (',' :: f ·)) (bs.flatMap (',' :: f ·)) (as.flatMap d)
        (bs.flatMap d) := by
    induction as generalizing bs with
    | nil =>
      rw [List.map_eq_nil_iff.1 hrows.symm]
      exact same []
    | cons a as ih =>
      cases bs with
      | nil => cases hrows
      | cons b bs =>
        obtain ⟨hfirst, hrest⟩ := List.cons.inj hrows
        exact ((h a b hfirst).behind [',']).append (ih hrest)
  cases as with
  | nil =>
    rw [List.map_eq_nil_iff.1 hrows.symm]
    exact same []
  | cons a as =>
    cases bs with
    | nil => cases hrows
    | cons b bs =>
      obtain ⟨hfirst, hrest⟩ := List.cons.inj hrows
      rw [List.map_cons, List.map_cons, commas_cons, commas_cons, List.flatMap_map,
        List.flatMap_map]
      exact (h a b hfirst).append (hmore hrest)

end Alongside

/-! ## digits of ramps -/

/-- all digits of the colors of ramps, in order -/
def digits (ramps : Entries Atom Ramp) : List Char :=
  (rows ramps).flatMap fun r => r.2.flatMap Hex.chars

/-- the names of ramps and how many colors each has -/
def shape (ramps : Entries Atom Ramp) : List (String × Nat) :=
  (rows ramps).map fun r => (r.1, r.2.length)

theorem alongside_color (h k : Hex) :
    Alongside (Text.plain h.chars) (Text.plain k.chars) h.chars k.chars := by
  have hlength : h.chars.length = k.chars.length := by rw [Hex.length_chars, Hex.length_chars]
  rw [Text.plain_hex, Text.plain_hex]
  exact ((Alongside.self hlength).behind ['"']).before ['"']

theorem alongside_entry (r r' : String × List Hex) (h : (r.1, r.2.length) = (r'.1, r'.2.length)) :
    Alongside (entryChars r) (entryChars r') (r.2.flatMap Hex.chars) (r'.2.flatMap Hex.chars) := by
  obtain ⟨hname, hlength⟩ := Prod.mk.inj h
  have hrows : r.2.map (fun _ => ()) = r'.2.map fun _ => () := by
    rw [List.map_const', List.map_const', hlength]
  have hcolors := Alongside.commas (fun h k _ => alongside_color h k) hrows
  rw [entryChars, entryChars, hname]
  exact ((hcolors.before [']']).behind [':', '[']).behind _

theorem alongside_payload {a b : Entries Atom Ramp} (h : shape a = shape b) :
    Alongside (payload a) (payload b) (digits a) (digits b) := by
  have hrows := Alongside.commas alongside_entry h
  have hinner := (hrows.before ['\x7d', '\x7d']).behind [':', '\x7b']
  exact (hinner.behind (Text.plain "primitives".toList)).behind ['\x7b']

theorem ofRamps_ne {a b : Entries Atom Ramp} (hshape : shape a = shape b)
    (hone : differences (digits a) (digits b) = 1) : ofRamps a ≠ ofRamps b := by
  -- the hashed texts differ in one place, as the digits do
  have h := alongside_payload hshape
  obtain ⟨p, c, d, s, hne, ha, hb⟩ := exists_of_differences_eq_one h.length (h.count.trans hone)
  have hlt (c : Char) : c.toNat < 2 ^ 32 := by
    have := Point.toNat_lt c
    omega
  have hcode : c.toNat ≠ d.toNat := by
    intro heq
    exact hne (by rw [← Char.ofNat_toNat c, heq, Char.ofNat_toNat])
  intro heq
  rw [ofRamps_eq, ofRamps_eq, ha, hb, List.map_append, List.map_append, List.map_cons,
    List.map_cons] at heq
  exact djb2_ne (hlt c) (hlt d) hcode _ _ (render_injective heq)

/-- A fingerprint notices any one character: texts that differ in one code only have different
hashes, whatever stands before and behind it. To mask in every round is to mask once at the end.
So ramps with the same names and lengths whose colors differ in one digit have different
fingerprints. -/
theorem ofRamps_notices :
    (∀ p s : List Nat, ∀ a < 2 ^ 32, ∀ b < 2 ^ 32, a ≠ b →
      render (djb2 (p ++ a :: s)) ≠ render (djb2 (p ++ b :: s))) ∧
    (∀ codes : List Nat, (djb2 codes).toNat = codes.foldl maskedStep 5381 ∧
      codes.foldl maskedStep 5381 = codes.foldl rawStep 5381 % 2 ^ 32) ∧
    ∀ a b : Entries Atom Ramp, shape a = shape b → differences (digits a) (digits b) = 1 →
      ofRamps a ≠ ofRamps b := by
  refine ⟨fun p s a ha b hb hne h => ?_, fun codes => ?_, fun a b => ofRamps_ne⟩
  · exact djb2_ne ha hb hne p s (render_injective h)
  · exact ⟨toNat_djb2 codes, foldl_maskedStep codes⟩

/-- one letter of three, and the last digit of a ramp of two colors -/
theorem ofRamps_notices_last :
    render (djb2 [97, 98, 99]) ≠ render (djb2 [97, 120, 99]) ∧
    ofRamps [(.text "é", ⟨.text "é", [⟨1, 2, 3⟩, ⟨4, 5, 6⟩]⟩)] ≠
      ofRamps [(.text "é", ⟨.text "é", [⟨1, 2, 3⟩, ⟨4, 5, 7⟩]⟩)] :=
  ⟨ofRamps_notices.1 [97] [99] 98 (by decide) 120 (by decide) (by decide),
    ofRamps_notices.2.2 _ _ rfl (by decide)⟩

end Palette.Fingerprint
