import Palette.Document.Access
import Palette.Document.Reader
import Palette.Proofs.Entries
import Palette.Proofs.Outcome

/-!
# Documents whose maps hold each key once

A value of a document is a tree of lists and rows of members. In a map that was read from a text,
or put together by writes, no key comes twice, and the same holds of the maps inside it. Maps that
were read from a text have texts for keys.

* `isKeyed`            the values in which every map holds each key once;
* `isTextual`          the values in which every key is a text;
* `isKeyed_list`, `isKeyed_map`, `isTextual_list`, `isTextual_map`   the same by parts;
* `isKeyed_of_lookup`, `isKeyed_of_need`, `isTextual_of_lookup`   the members of such a value are
  such values;
* `Reader.Composed`, `Reader.gives`   what holds of all values that a text holds;
* `isKeyed_read`, `isTextual_read`    texts hold no others.
-/

namespace Palette

namespace Atom

/-- a text equals no key but itself -/
theorem eq_of_text_beq {s : String} {a : Atom} (h : (Atom.text s == a) = true) : a = .text s := by
  rw [Atom.beq_iff] at h
  cases a with
  | text t =>
    obtain rfl := Key.text.inj h
    rfl
  | float x =>
    rw [key, key] at h
    split at h <;> cases h
  | _ => cases h

theorem contains_text {l : List Atom} {s : String} :
    l.contains (.text s) = true ↔ .text s ∈ l := by
  rw [List.contains_iff_exists_mem_beq]
  constructor
  · rintro ⟨a, ha, hs⟩
    exact eq_of_text_beq hs ▸ ha
  · exact fun h => ⟨_, h, BEq.rfl⟩

theorem exists_of_isText {a : Atom} (h : a.isText = true) : ∃ s, a = .text s := by
  cases a with
  | text s => exact ⟨s, rfl⟩
  | _ => cases h

end Atom

namespace Document
open Outcome

theorem exists_of_isText {d : Document} (h : d.isText = true) : ∃ s, d = .text s := by
  cases d with
  | text s => exact ⟨s, rfl⟩
  | _ => cases h

mutual

/-- does every map in the value hold each key once? -/
def isKeyed : Document → Bool
  | .list items => areKeyed items
  | .map members => membersKeyed members
  | _ => true

/-- the same for all items of a list -/
def areKeyed : List Document → Bool
  | [] => true
  | d :: ds => isKeyed d && areKeyed ds

/-- the same for the members of a map, whose keys have to be distinct -/
def membersKeyed : List (Atom × Document) → Bool
  | [] => true
  | (k, d) :: ms => !(Entries.keys ms).any (k == ·) && isKeyed d && membersKeyed ms

end

mutual

/-- is every key in the value a text? -/
def isTextual : Document → Bool
  | .list items => areTextual items
  | .map members => membersTextual members
  | _ => true

/-- the same for all items of a list -/
def areTextual : List Document → Bool
  | [] => true
  | d :: ds => isTextual d && areTextual ds

/-- the same for the members of a map with their keys -/
def membersTextual : List (Atom × Document) → Bool
  | [] => true
  | (k, d) :: ms => k.isText && isTextual d && membersTextual ms

end

theorem isKeyed_list (items : List Document) :
    (Document.list items).isKeyed = true ↔ ∀ d ∈ items, d.isKeyed = true := by
  show areKeyed items = true ↔ _
  induction items with
  | nil => exact ⟨fun _ d hd => absurd hd List.not_mem_nil, fun _ => rfl⟩
  | cons d ds ih => rw [areKeyed, Bool.and_eq_true, ih, List.forall_mem_cons]

theorem isKeyed_map (members : Entries Atom Document) :
    (Document.map members).isKeyed = true ↔
      members.Distinct ∧ ∀ e ∈ members, e.2.isKeyed = true := by
  show membersKeyed members = true ↔ _
  induction members with
  | nil => exact ⟨fun _ => ⟨.nil, fun e he => absurd he List.not_mem_nil⟩, fun _ => rfl⟩
  | cons e ms ih =>
    obtain ⟨k, d⟩ := e
    have hk : (!(Entries.keys ms).any (k == ·)) = true ↔
        ∀ k' ∈ Entries.keys ms, (k == k') = false := by simp
    rw [membersKeyed, Bool.and_eq_true, Bool.and_eq_true, hk, ih, Entries.distinct_cons,
      List.forall_mem_cons]
    constructor
    · rintro ⟨⟨h, hd⟩, hms, hs⟩
      exact ⟨⟨h, hms⟩, hd, hs⟩
    · rintro ⟨⟨h, hms⟩, hd, hs⟩
      exact ⟨⟨h, hd⟩, hms, hs⟩

theorem isTextual_list (items : List Document) :
    (Document.list items).isTextual = true ↔ ∀ d ∈ items, d.isTextual = true := by
  show areTextual items = true ↔ _
  induction items with
  | nil => exact ⟨fun _ d hd => absurd hd List.not_mem_nil, fun _ => rfl⟩
  | cons d ds ih => rw [areTextual, Bool.and_eq_true, ih, List.forall_mem_cons]

theorem isTextual_map (members : Entries Atom Document) :
    (Document.map members).isTextual = true ↔
      ∀ e ∈ members, e.1.isText = true ∧ e.2.isTextual = true := by
  show membersTextual members = true ↔ _
  induction members with
  | nil => exact ⟨fun _ e he => absurd he List.not_mem_nil, fun _ => rfl⟩
  | cons e ms ih =>
    rw [membersTextual, Bool.and_eq_true, Bool.and_eq_true, ih, List.forall_mem_cons]

/-! ## the parts that readers give -/

theorem isKeyed_of_lookup {members : Entries Atom Document}
    (h : (Document.map members).isKeyed = true) {k : Atom} {d : Document}
    (hd : members.lookup k = some d) : d.isKeyed = true := by
  obtain ⟨k', hm, _⟩ := Entries.exists_of_lookup hd
  exact ((isKeyed_map members).1 h).2 (k', d) hm

theorem isTextual_of_lookup {members : Entries Atom Document}
    (h : (Document.map members).isTextual = true) {k : Atom} {d : Document}
    (hd : members.lookup k = some d) : d.isTextual = true := by
  obtain ⟨k', hm, _⟩ := Entries.exists_of_lookup hd
  exact ((isTextual_map members).1 h (k', d) hm).2

theorem isKeyed_of_need {d v : Document} (h : d.isKeyed = true) {name : String}
    (hv : d.need name = .ok v) : v.isKeyed = true := by
  cases d with
  | map members =>
    rw [need] at hv
    cases hl : members.lookup (.text name) with
    | none => rw [hl] at hv; cases hv
    | some w =>
      rw [hl] at hv
      obtain rfl := Except.ok.inj hv
      exact isKeyed_of_lookup h hl
  | _ => cases hv

/-! ## texts -/

theorem isKeyed_ofList {ms : List (Atom × Document)} (h : ∀ e ∈ ms, e.2.isKeyed = true) :
    (Document.map (Entries.ofList ms)).isKeyed = true := by
  rw [isKeyed_map]
  refine ⟨Entries.distinct_ofList ms, fun e he => ?_⟩
  obtain ⟨e', he', _, hv⟩ := Entries.exists_of_mem_ofList he
  rw [← hv]
  exact h e' he'

theorem isTextual_ofList {ms : List (Atom × Document)}
    (h : ∀ e ∈ ms, e.1.isText = true ∧ e.2.isTextual = true) :
    (Document.map (Entries.ofList ms)).isTextual = true := by
  rw [isTextual_map]
  intro e he
  obtain ⟨e', he', hk, hv⟩ := Entries.exists_of_mem_ofList he
  obtain ⟨htext, hd⟩ := h e' he'
  obtain ⟨s, hs⟩ := Atom.exists_of_isText htext
  rw [hs] at hk
  rw [Atom.eq_of_text_beq hk, ← hv]
  exact ⟨rfl, hd⟩

namespace Reader
variable {P : Document → Prop}

/-- a property of values that holds of what has no parts, of lists of values that have it, and of
maps from texts to such values -/
structure Composed (P : Document → Prop) : Prop where
  key : ∀ {d a}, d.atom? = some a → P d
  list : ∀ {ds}, (∀ d ∈ ds, P d) → P (.list ds)
  map : ∀ {ms}, (∀ e ∈ ms, e.1.isText = true ∧ P e.2) → P (.map (Entries.ofList ms))

theorem of_constant {d v : Document} (hd : P d) {word cs rest : List Char}
    (h : constant d word cs = .ok (v, rest)) : P v := by
  rw [constant] at h
  cases hw : word? word cs with
  | none => rw [hw] at h; cases h
  | some r =>
    rw [hw] at h
    obtain ⟨rfl, rfl⟩ := Prod.mk.inj (Except.ok.inj h)
    exact hd

section
variable (hp : Composed P)
include hp

theorem of_numeral {negative : Bool} {cs rest : List Char} {v : Document}
    (h : numeral negative cs = .ok (v, rest)) : P v := by
  obtain ⟨⟨ds, r⟩, _, h⟩ := bind_ok.1 h
  dsimp only at h
  split at h
  · split at h
    · cases h
    · obtain ⟨rfl, rfl⟩ := Prod.mk.inj (Except.ok.inj h)
      exact hp.key rfl
  · obtain ⟨rfl, rfl⟩ := Prod.mk.inj (Except.ok.inj h)
    exact hp.key rfl

theorem of_simple {cs rest : List Char} {v : Document} (h : simple cs = .ok (v, rest)) : P v := by
  unfold simple at h
  split at h
  case h_7 => exact of_numeral hp h
  case h_8 => exact of_numeral hp h
  all_goals exact of_constant (hp.key rfl) h

end

/-- what the readers give with so much fuel -/
structure Gives (P : Document → Prop) (fuel : Nat) : Prop where
  value : ∀ {room cs d rest}, value room fuel cs = .ok (d, rest) → P d
  items : ∀ {room cs ds rest}, items room fuel cs = .ok (ds, rest) → ∀ d ∈ ds, P d
  members : ∀ {room cs ms rest}, members room fuel cs = .ok (ms, rest) →
    ∀ e ∈ ms, e.1.isText = true ∧ P e.2

theorem gives (hp : Composed P) (fuel : Nat) : Gives P fuel := by
  induction fuel with
  | zero =>
    constructor
    · intro room cs d rest h
      rw [value] at h
      cases h
    · intro room cs ds rest h
      rw [items] at h
      cases h
    · intro room cs ms rest h
      rw [members] at h
      cases h
  | succ fuel ih =>
    constructor
    -- a map is put together by writes, which keep its keys distinct
    · intro room cs d rest h
      rw [value.eq_def] at h
      dsimp only at h
      split at h
      · obtain ⟨_, _, h⟩ := bind_ok.1 h
        obtain ⟨rfl, rfl⟩ := Prod.mk.inj (pure_ok.1 h)
        exact hp.key rfl
      · obtain ⟨_, _, h⟩ := bind_ok.1 h
        split at h
        · obtain ⟨rfl, rfl⟩ := Prod.mk.inj (pure_ok.1 h)
          exact hp.list fun d hd => absurd hd List.not_mem_nil
        · obtain ⟨⟨ds, _⟩, hi, h⟩ := bind_ok.1 h
          obtain ⟨rfl, rfl⟩ := Prod.mk.inj (pure_ok.1 h)
          exact hp.list (ih.items hi)
      · obtain ⟨_, _, h⟩ := bind_ok.1 h
        split at h
        · obtain ⟨rfl, rfl⟩ := Prod.mk.inj (pure_ok.1 h)
          exact hp.map fun e he => absurd he List.not_mem_nil
        · obtain ⟨⟨ms, _⟩, hm, h⟩ := bind_ok.1 h
          obtain ⟨rfl, rfl⟩ := Prod.mk.inj (pure_ok.1 h)
          exact hp.map (ih.members hm)
      · exact of_simple hp h
    · intro room cs ds rest h
      rw [items.eq_def] at h
      obtain ⟨⟨d, _⟩, hd, h⟩ := bind_ok.1 h
      dsimp only at h
      split at h
      · obtain ⟨⟨ds', _⟩, hds, h⟩ := bind_ok.1 h
        obtain ⟨rfl, rfl⟩ := Prod.mk.inj (pure_ok.1 h)
        rw [List.forall_mem_cons]
        exact ⟨ih.value hd, ih.items hds⟩
      · obtain ⟨rfl, rfl⟩ := Prod.mk.inj (pure_ok.1 h)
        rw [List.forall_mem_singleton]
        exact ih.value hd
      · cases h
    · intro room cs ms rest h
      rw [members.eq_def] at h
      dsimp only at h
      split at h
      · obtain ⟨⟨k, _⟩, _, h⟩ := bind_ok.1 h
        dsimp only at h
        split at h
        · obtain ⟨⟨d, _⟩, hd, h⟩ := bind_ok.1 h
          dsimp only at h
          split at h
          · obtain ⟨⟨ms', _⟩, hms, h⟩ := bind_ok.1 h
            obtain ⟨rfl, rfl⟩ := Prod.mk.inj (pure_ok.1 h)
            rw [List.forall_mem_cons]
            exact ⟨⟨rfl, ih.value hd⟩, ih.members hms⟩
          · obtain ⟨rfl, rfl⟩ := Prod.mk.inj (pure_ok.1 h)
            rw [List.forall_mem_singleton]
            exact ⟨rfl, ih.value hd⟩
          · cases h
        · cases h
      · cases h

theorem Composed.of_read (hp : Composed P) {s : String} {d : Document} (h : read s = .ok d) :
    P d := by
  obtain ⟨⟨v, rest⟩, hv, h⟩ := bind_ok.1 h
  dsimp only at h
  split at h
  · obtain rfl := pure_ok.1 h
    exact (gives hp _).value hv
  · cases h

end Reader

/-- in a value that a text holds, every map holds each key once -/
theorem isKeyed_read {s : String} {d : Document} (h : read s = .ok d) : d.isKeyed = true :=
  Reader.Composed.of_read (P := fun d => d.isKeyed = true)
    { key := fun {d _} hd => by cases d <;> first | rfl | cases hd
      list := fun h => (isKeyed_list _).2 h
      map := fun h => isKeyed_ofList fun e he => (h e he).2 } h

/-- in a value that a text holds, every key is a text -/
theorem isTextual_read {s : String} {d : Document} (h : read s = .ok d) : d.isTextual = true :=
  Reader.Composed.of_read (P := fun d => d.isTextual = true)
    { key := fun {d _} hd => by cases d <;> first | rfl | cases hd
      list := fun h => (isTextual_list _).2 h
      map := isTextual_ofList } h

end Document
end Palette
