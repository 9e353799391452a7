import Mathlib.Data.Prod.Basic
import Palette.Fingerprint
import Palette.Proofs.Text.Quoted

/-!
# The hashed text determines the ramps

The names and the colors of ramps can be read off the text that is hashed for them: each piece of it
ends where it says so itself, and no bracket begins one.

* `rows`, `payload`      what is hashed of ramps, and the text that is hashed;
* `Told`                 pieces that end by themselves and tell something;
* `Told.rows_iff`        so do rows of such pieces with commas between them;
* `told_color`, `told_entry`   colors tell themselves, entries their name and colors;
* `chars_eq_iff`         the text tells the joined points of the names, and the colors;
* `chars_eq_iff_of_settled`   it tells settled names themselves;
* `payload_determines`   the ramps are determined by the text.
-/

namespace Palette.Fingerprint

/-- what is hashed of ramps: their names and colors, in order -/
def rows (ramps : Entries Atom Ramp) : List (String × List Hex) :=
  ramps.map fun e => (e.1.name, e.2.colors)

/-- the text that is hashed for ramps -/
def payload (ramps : Entries Atom Ramp) : List Char := chars (rows ramps)

theorem ofRamps_eq (ramps : Entries Atom Ramp) :
    ofRamps ramps = render (djb2 ((payload ramps).map Char.toNat)) := rfl

/-! ## pieces with commas between them -/

theorem commas_cons (x : List Char) (xs : List (List Char)) :
    commas (x :: xs) = x ++ xs.flatMap (',' :: ·) := by
  induction xs generalizing x with
  | nil => rw [commas, List.flatMap_nil, List.append_nil]
  | cons y ys ih => rw [commas, ih, List.flatMap_cons, List.cons_append]

/-- pieces that begin with a quote, end by themselves, and tell `g` of what they are written for -/
structure Told {α β : Type} (f : α → List Char) (g : α → β) : Prop where
  quote : ∀ a, ∃ cs, f a = '"' :: cs
  append_iff : ∀ {a b r r'}, f a ++ r = f b ++ r' ↔ g a = g b ∧ r = r'

namespace Told
variable {α β : Type} {f : α → List Char} {g : α → β}

/-- pieces with a comma before each, up to a closing bracket -/
theorem more_iff (h : Told f g) {close : Char} (hcomma : close ≠ ',') {as bs : List α}
    {r r' : List Char} :
    as.flatMap (',' :: f ·) ++ close :: r = bs.flatMap (',' :: f ·) ++ close :: r' ↔
      as.map g = bs.map g ∧ r = r' := by
  induction as generalizing bs with
  | nil =>
    cases bs with
    | nil => simp
    | cons b bs => exact iff_of_false (fun he => hcomma (List.cons.inj he).1) (by simp)
  | cons a as ih =>
    cases bs with
    | nil => exact iff_of_false (fun he => hcomma (List.cons.inj he).1.symm) (by simp)
    | cons b bs =>
      rw [List.flatMap_cons, List.flatMap_cons, List.append_assoc, List.append_assoc,
        List.cons_append, List.cons_append, List.cons.injEq, h.append_iff, ih, List.map_cons,
        List.map_cons, List.cons.injEq, eq_self, true_and, and_assoc]

/-- pieces with commas between them, up to a closing bracket -/
theorem rows_iff (h : Told f g) {close : Char} (hcomma : close ≠ ',') (hquote : close ≠ '"')
    {as bs : List α} {r r' : List Char} :
    commas (as.map f) ++ close :: r = commas (bs.map f) ++ close :: r' ↔
      as.map g = bs.map g ∧ r = r' := by
  cases as with
  | nil =>
    cases bs with
    | nil => simp
    | cons b bs =>
      obtain ⟨cs, hb⟩ := h.quote b
      rw [List.map_cons, commas_cons, hb]
      exact iff_of_false (fun he => hquote (List.cons.inj he).1) (by simp)
  | cons a as =>
    cases bs with
    | nil =>
      obtain ⟨cs, ha⟩ := h.quote a
      rw [List.map_cons, commas_cons, ha]
      exact iff_of_false (fun he => hquote (List.cons.inj he).1.symm) (by simp)
    | cons b bs =>
      rw [List.map_cons, List.map_cons, commas_cons, commas_cons, List.flatMap_map,
        List.flatMap_map, List.append_assoc, List.append_assoc, h.append_iff, h.more_iff hcomma,
        List.map_cons, List.map_cons, List.cons.injEq, and_assoc]

end Told

/-! ## what the text tells -/

theorem told_color : Told (fun h : Hex => Text.plain h.chars) id where
  quote h := ⟨_, rfl⟩
  append_iff {h k r r'} := by
    constructor
    · intro heq
      rw [Text.plain_hex, Text.plain_hex] at heq
      obtain ⟨hpiece, hrest⟩ := List.append_inj heq
        (by simp only [List.length_append, List.length_cons, Hex.length_chars])
      obtain ⟨hcolor, -⟩ := List.append_inj (List.cons.inj hpiece).2
        (by rw [Hex.length_chars, Hex.length_chars])
      exact ⟨Hex.chars_injective hcolor, hrest⟩
    · rintro ⟨hcolor, rfl⟩
      rw [show h = k from hcolor]

/-- what the text tells of an entry: the joined points of its name, and its colors -/
def key (e : String × List Hex) : List Point × List Hex := (Point.joined (Text.points e.1), e.2)

theorem told_entry : Told entryChars key where
  quote e := ⟨_, rfl⟩
  append_iff {e e' r r'} := by
    obtain ⟨name, colors⟩ := e
    obtain ⟨name', colors'⟩ := e'
    have hchars (name : String) (colors : List Hex) (r : List Char) :
        entryChars (name, colors) ++ r = Text.plain name.toList ++
          ':' :: '[' :: (commas (colors.map fun h => Text.plain h.chars) ++ ']' :: r) := by
      simp only [entryChars, List.append_assoc, List.cons_append, List.nil_append]
    rw [hchars, hchars, Text.plain_append_iff, List.cons.injEq, List.cons.injEq,
      told_color.rows_iff (by decide) (by decide), List.map_id, List.map_id]
    simp only [key, Text.points, Prod.mk.injEq, true_and, and_assoc]

/-- the text tells the joined points of the names, and the colors, in order -/
theorem chars_eq_iff {a b : List (String × List Hex)} :
    chars a = chars b ↔ a.map key = b.map key := by
  rw [chars, chars, List.cons.injEq, List.append_cancel_left_eq, List.cons.injEq, List.cons.injEq,
    told_entry.rows_iff (by decide) (by decide)]
  simp only [true_and, and_true]

theorem eq_of_key {e e' : String × List Hex} (he : Text.Settled e.1) (he' : Text.Settled e'.1)
    (h : key e = key e') : e = e' := by
  obtain ⟨hname, hcolors⟩ := Prod.mk.inj h
  rw [he, he'] at hname
  exact Prod.ext (String.toList_injective (Point.ofChars_injective hname)) hcolors

/-- the text tells settled names themselves -/
theorem chars_eq_iff_of_settled {a b : List (String × List Hex)}
    (ha : ∀ e ∈ a, Text.Settled e.1) (hb : ∀ e ∈ b, Text.Settled e.1) :
    chars a = chars b ↔ a = b := by
  rw [chars_eq_iff]
  constructor
  · intro h
    induction a generalizing b with
    | nil => exact (List.map_eq_nil_iff.1 h.symm).symm
    | cons e a ih =>
      cases b with
      | nil => cases h
      | cons e' b =>
        obtain ⟨he, ha⟩ := List.forall_mem_cons.1 ha
        obtain ⟨he', hb⟩ := List.forall_mem_cons.1 hb
        obtain ⟨hkey, hrest⟩ := List.cons.inj h
        rw [eq_of_key he he' hkey, ih ha hb hrest]
  · rintro rfl
    rfl

/-! ## ramps -/

/-- ramps under names that are characters -/
def under (ramps : Entries String Ramp) : Entries Atom Ramp :=
  ramps.map fun e => (.text (Text.ofBare e.1), e.2)

theorem rows_under (ramps : Entries String Ramp) :
    rows (under ramps) = (ramps.map fun e => (e.1, e.2.colors)).map (Prod.map Text.ofBare id) := by
  rw [rows, under, List.map_map, List.map_map]
  rfl

theorem settled_rows {ramps : Entries Atom Ramp} (h : ∀ e ∈ ramps, Text.Settled e.1.name) :
    ∀ r ∈ rows ramps, Text.Settled r.1 := by
  intro r hr
  obtain ⟨e, he, rfl⟩ := List.mem_map.1 hr
  exact h e he

theorem payload_under_iff (a b : Entries String Ramp) :
    payload (under a) = payload (under b) ↔
      a.map (fun e => (e.1, e.2.colors)) = b.map (fun e => (e.1, e.2.colors)) := by
  have hsettled (ramps : Entries String Ramp) : ∀ r ∈ rows (under ramps), Text.Settled r.1 := by
    refine settled_rows fun e he => ?_
    obtain ⟨_, _, rfl⟩ := List.mem_map.1 he
    exact Text.settled_ofBare _
  have hinjective : Function.Injective (Prod.map Text.ofBare (id : List Hex → List Hex)) :=
    Function.Injective.prodMap (fun _ _ => Text.ofBare_injective) Function.injective_id
  rw [payload, payload, chars_eq_iff_of_settled (hsettled a) (hsettled b), rows_under, rows_under,
    (List.map_injective_iff.2 hinjective).eq_iff]

/-- The hashed text determines the ramps: it is the same for two maps of ramps exactly when they
have the same names with the same colors in the same order. So it is for all names of characters,
and for all names that were read, where a half may stand for itself; names whatsoever are determined
but for halves side by side, which are the character of the pair. -/
theorem payload_determines :
    (∀ a b : Entries String Ramp, payload (under a) = payload (under b) ↔
      a.map (fun e => (e.1, e.2.colors)) = b.map (fun e => (e.1, e.2.colors))) ∧
    (∀ a b : Entries Atom Ramp, (∀ e ∈ a, Text.WasRead e.1.name) →
      (∀ e ∈ b, Text.WasRead e.1.name) → (payload a = payload b ↔ rows a = rows b)) ∧
    ∀ a b : Entries Atom Ramp, payload a = payload b ↔ (rows a).map key = (rows b).map key := by
  refine ⟨payload_under_iff, fun a b ha hb => ?_, fun a b => chars_eq_iff⟩
  exact chars_eq_iff_of_settled
    (settled_rows fun e he => Text.settled_of_wasRead (ha e he))
    (settled_rows fun e he => Text.settled_of_wasRead (hb e he))

/-- a ramp under the name of a half has another text than one under the name of its escape -/
theorem payload_determines_half :
    payload [(.text (Text.ofPoints [.half 0]), ⟨.text "", [Hex.black]⟩)] ≠
      payload [(.text "\\ud800", ⟨.text "", [Hex.black]⟩)] := by
  have hhalf : Text.WasRead (Text.ofPoints [.half 0]) :=
    ⟨2, "\\ud800\"".toList, [], by decide⟩
  have hescape : Text.WasRead "\\ud800" := ⟨7, "\\\\ud800\"".toList, [], by decide⟩
  intro h
  have hrows := (payload_determines.2.1 _ _
    (fun e he => by obtain rfl := List.mem_singleton.1 he; exact hhalf)
    (fun e he => by obtain rfl := List.mem_singleton.1 he; exact hescape)).1 h
  exact absurd hrows (by decide)

end Palette.Fingerprint
