import Palette.OrderedMap

/-!
# Entries with distinct keys

A map holds each key once. Rows of pairs that do are read and written without loss:

* `rel_of_find?`        what a search in an ordered row finds comes first of all that it could;
* `Distinct`            each key is there once;
* `lookup_flatMap_of_mem`   a key that is in one row only is looked up there;
* `lookup_of_mem`       every entry of such a row is found, and `exists_of_lookup` only entries are;
* `lookup_perm`         whatever its order;
* `lookup_putAll`       a key reads as what was written to it last;
* `putAll_of_distinct`, `ofList_of_distinct`   writing distinct keys appends them in order;
* `distinct_ofList`     a row of writes, whatever its keys, gives distinct ones;
* `keys_ofList`         they are those that were written, in order of first writing;
* `lookup_filter`, `filter_putAll`   reading and writing where only some keys are kept.

Keys are compared by `==`, which need not be equality, so the lemmas ask for `EquivBEq` alone.
-/

namespace Palette.Entries

section
variable {κ ν : Type}

theorem mem_keys {m : Entries κ ν} {k : κ} : k ∈ m.keys ↔ ∃ v, (k, v) ∈ m := by
  simp [keys]

theorem mem_keys_of_mem {m : Entries κ ν} {e : κ × ν} (h : e ∈ m) : e.1 ∈ m.keys :=
  List.mem_map_of_mem h

theorem keys_append (a b : Entries κ ν) : keys (a ++ b) = keys a ++ keys b := List.map_append

theorem length_keys (m : Entries κ ν) : m.keys.length = m.length := List.length_map _

/-- in a row in some order, what is found comes first of all that could be -/
theorem rel_of_find? {α : Type} {R : α → α → Prop} {l : List α} (hl : l.Pairwise R)
    {p : α → Bool} {a b : α} (h : l.find? p = some a) (hb : b ∈ l) (hp : p b = true) :
    b = a ∨ R a b := by
  obtain ⟨_, front, back, rfl, hfront⟩ := List.find?_eq_some_iff_append.1 h
  rcases List.mem_append.1 hb with hb | hb
  · have hn := hfront b hb
    rw [hp] at hn
    cases hn
  · rcases List.mem_cons.1 hb with rfl | hb
    · exact .inl rfl
    · have htail := (List.pairwise_append.1 hl).2.1
      exact .inr ((List.pairwise_cons.1 htail).1 b hb)

end

variable {κ ν : Type} [BEq κ]

/-- is each key there once? -/
def Distinct (m : Entries κ ν) : Prop := m.keys.Pairwise fun a b => (a == b) = false

instance (m : Entries κ ν) : Decidable m.Distinct :=
  inferInstanceAs (Decidable (m.keys.Pairwise fun a b => (a == b) = false))

theorem distinct_nil : Distinct ([] : Entries κ ν) := .nil

theorem distinct_cons (e : κ × ν) (m : Entries κ ν) :
    Distinct (e :: m) ↔ (∀ k ∈ m.keys, (e.1 == k) = false) ∧ m.Distinct := List.pairwise_cons

theorem distinct_congr {μ : Type} {m : Entries κ ν} {m' : Entries κ μ} (h : m.keys = m'.keys) :
    m.Distinct ↔ m'.Distinct := by
  rw [Distinct, Distinct, h]

theorem distinct_filter {m : Entries κ ν} (d : m.Distinct) (p : κ × ν → Bool) :
    Distinct (m.filter p) :=
  d.sublist (List.Sublist.map _ List.filter_sublist)

theorem distinct_append (a b : Entries κ ν) :
    Distinct (a ++ b) ↔
      a.Distinct ∧ b.Distinct ∧ ∀ x ∈ a.keys, ∀ y ∈ b.keys, (x == y) = false := by
  rw [Distinct, keys_append, List.pairwise_append]
  rfl

/-! ## reading -/

/-- what is found was there, under an equal key -/
theorem exists_of_lookup {m : Entries κ ν} {k : κ} {v : ν} (h : m.lookup k = some v) :
    ∃ k', (k', v) ∈ m ∧ (k == k') = true := by
  induction m with
  | nil => exact absurd h (by simp)
  | cons e m ih =>
    obtain ⟨a, b⟩ := e
    rw [List.lookup_cons] at h
    cases hk : k == a with
    | true =>
      rw [hk] at h
      obtain rfl := Option.some.inj h
      exact ⟨a, List.mem_cons_self, hk⟩
    | false =>
      rw [hk] at h
      obtain ⟨k', hm, hk'⟩ := ih h
      exact ⟨k', List.mem_cons_of_mem _ hm, hk'⟩

theorem lookup_eq_none {m : Entries κ ν} {k : κ} (h : ∀ k' ∈ m.keys, (k == k') = false) :
    m.lookup k = none := by
  rw [List.lookup_eq_none_iff]
  intro e he
  rw [bne, h e.1 (mem_keys_of_mem he)]
  rfl

theorem isSome_lookup (m : Entries κ ν) (k : κ) :
    (m.lookup k).isSome = m.keys.any (k == ·) := by
  induction m with
  | nil => rfl
  | cons e m ih =>
    obtain ⟨a, b⟩ := e
    rw [List.lookup_cons, keys, List.map_cons, List.any_cons]
    cases k == a with
    | true => rfl
    | false => exact ih

theorem lookup_map {μ : Type} (f : ν → μ) (m : Entries κ ν) (k : κ) :
    List.lookup k (m.map fun e => (e.1, f e.2)) = (m.lookup k).map f := by
  induction m with
  | nil => rfl
  | cons e m ih =>
    obtain ⟨a, b⟩ := e
    rw [List.map_cons, List.lookup_cons, List.lookup_cons]
    cases k == a with
    | true => rfl
    | false => exact ih

/-- where other rows do not have a key, it is looked up in one row -/
theorem lookup_flatMap_of_mem {α : Type} {l : List α} {f : α → Entries κ ν} {a : α} (ha : a ∈ l)
    {k : κ} (h : ∀ b ∈ l, b ≠ a → ∀ k' ∈ (f b).keys, (k == k') = false) :
    List.lookup k (l.flatMap f) = (f a).lookup k := by
  induction l with
  | nil => exact absurd ha List.not_mem_nil
  | cons b l ih =>
    have hl := fun c hc => h c (List.mem_cons_of_mem b hc)
    rw [List.flatMap_cons, List.lookup_append]
    by_cases hm : a ∈ l
    · rw [ih hm hl]
      by_cases hb : b = a
      · rw [hb]
        cases (f a).lookup k <;> rfl
      · rw [lookup_eq_none (h b List.mem_cons_self hb), Option.none_or]
    · obtain rfl : a = b := (List.mem_cons.1 ha).resolve_right hm
      have hnone : List.lookup k (l.flatMap f) = none := by
        refine lookup_eq_none fun k' hk' => ?_
        obtain ⟨v, hv⟩ := mem_keys.1 hk'
        obtain ⟨c, hc, hv⟩ := List.mem_flatMap.1 hv
        exact hl c hc (fun hca => hm (hca ▸ hc)) k' (mem_keys.2 ⟨v, hv⟩)
      rw [hnone, Option.or_none]

section
variable [EquivBEq κ]

theorem lookup_congr (m : Entries κ ν) {a b : κ} (h : (a == b) = true) :
    m.lookup a = m.lookup b := by
  induction m with
  | nil => rfl
  | cons e m ih =>
    obtain ⟨k, v⟩ := e
    rw [List.lookup_cons, List.lookup_cons, BEq.congr_left h, ih]

theorem lookup_of_mem {m : Entries κ ν} (d : m.Distinct) {k : κ} {v : ν} (h : (k, v) ∈ m) :
    m.lookup k = some v := by
  induction m with
  | nil => exact absurd h (by simp)
  | cons e m ih =>
    obtain ⟨a, b⟩ := e
    rw [distinct_cons] at d
    rw [List.lookup_cons]
    rcases List.mem_cons.1 h with he | hm
    · obtain ⟨rfl, rfl⟩ := Prod.mk.inj he
      rw [BEq.rfl]
    · have hne : (k == a) = false := by
        rw [BEq.comm]
        exact d.1 k (mem_keys_of_mem hm)
      rw [hne]
      exact ih d.2 hm

/-- a key that is kept whatever it is written as is found where it was -/
theorem lookup_filter {m : Entries κ ν} (d : m.Distinct) {q : κ → ν → Bool}
    (hq : ∀ a b v, (a == b) = true → q a v = q b v) (k : κ) :
    List.lookup k (m.filter fun e => q e.1 e.2) = (m.lookup k).filter (q k) := by
  induction m with
  | nil => rfl
  | cons e m ih =>
    obtain ⟨a, v⟩ := e
    rw [distinct_cons] at d
    rw [List.lookup_cons]
    cases hk : k == a with
    | true =>
      have hrest : List.lookup k (m.filter fun e => q e.1 e.2) = none := by
        refine lookup_eq_none fun k' hk' => ?_
        obtain ⟨v', hv'⟩ := mem_keys.1 hk'
        rw [BEq.congr_left hk]
        exact d.1 k' (mem_keys_of_mem (List.mem_filter.1 hv').1)
      rw [List.filter_cons, Option.filter_some, hq k a v hk]
      split
      · rw [List.lookup_cons, hk]
      · exact hrest
    | false =>
      rw [List.filter_cons]
      split
      · rw [List.lookup_cons, hk]
        exact ih d.2
      · exact ih d.2

/-- where each key is there once, a look-up does not see the order -/
theorem lookup_perm {m m' : Entries κ ν} (d : m.Distinct) (h : m.Perm m') (k : κ) :
    m.lookup k = m'.lookup k := by
  have d' : m'.Distinct := ((h.map Prod.fst).pairwise_iff fun hab => BEq.symm_false hab).1 d
  cases hl : m.lookup k with
  | some v =>
    obtain ⟨k', hm, hk⟩ := exists_of_lookup hl
    rw [lookup_congr m' hk, lookup_of_mem d' (h.mem_iff.1 hm)]
  | none =>
    cases hl' : m'.lookup k with
    | none => rfl
    | some v =>
      obtain ⟨k', hm, hk⟩ := exists_of_lookup hl'
      rw [lookup_congr m hk, lookup_of_mem d (h.mem_iff.2 hm)] at hl
      cases hl

/-- one key is under one entry -/
theorem filter_beq {m : Entries κ ν} (d : m.Distinct) {e : κ × ν} (h : e ∈ m) :
    m.filter (fun e' => e'.1 == e.1) = [e] := by
  induction m with
  | nil => exact absurd h List.not_mem_nil
  | cons a m ih =>
    rw [distinct_cons] at d
    rcases List.mem_cons.1 h with rfl | hm
    · have hrest : m.filter (fun e' => e'.1 == e.1) = [] := by
        refine List.filter_eq_nil_iff.2 fun e' he' => ?_
        rw [BEq.comm, d.1 e'.1 (mem_keys_of_mem he')]
        exact Bool.false_ne_true
      rw [List.filter_cons, BEq.rfl, if_pos rfl, hrest]
    · rw [List.filter_cons, d.1 e.1 (mem_keys_of_mem hm), if_neg Bool.false_ne_true, ih d.2 hm]

/-! ## writing -/

/-- a key reads as what was written to it last -/
theorem lookup_putAll (k : κ) (ws : List (κ × ν)) (m : Entries κ ν) :
    (putAll m ws).lookup k = (ws.reverse.lookup k).or (m.lookup k) := by
  induction ws generalizing m with
  | nil => rfl
  | cons w ws ih =>
    rw [putAll_cons, ih, lookup_put, List.reverse_cons, List.lookup_append, Option.or_assoc,
      BEq.comm]
    congr 1
    obtain ⟨a, b⟩ := w
    rw [List.lookup_cons]
    cases k == a <;> rfl

/-- a value is one that was there or one that was written, under an equal key -/
theorem exists_of_mem_put {m : Entries κ ν} {k : κ} {v : ν} {e : κ × ν} (h : e ∈ put k v m) :
    ∃ e' ∈ m ++ [(k, v)], (e'.1 == e.1) = true ∧ e'.2 = e.2 := by
  induction m with
  | nil => exact ⟨e, h, BEq.rfl, rfl⟩
  | cons a m ih =>
    obtain ⟨a, b⟩ := a
    rw [put] at h
    split at h
    · next hk =>
      rcases List.mem_cons.1 h with rfl | hm
      · exact ⟨(k, v), by simp, hk, rfl⟩
      · exact ⟨e, by simp [hm], BEq.rfl, rfl⟩
    · rcases List.mem_cons.1 h with rfl | hm
      · exact ⟨(a, b), by simp, BEq.rfl, rfl⟩
      · obtain ⟨e', he', h'⟩ := ih hm
        exact ⟨e', List.mem_cons_of_mem _ he', h'⟩

theorem exists_of_mem_putAll {m : Entries κ ν} {ws : List (κ × ν)} {e : κ × ν}
    (h : e ∈ putAll m ws) : ∃ e' ∈ m ++ ws, (e'.1 == e.1) = true ∧ e'.2 = e.2 := by
  induction ws generalizing m with
  | nil => exact ⟨e, List.mem_append_left _ h, BEq.rfl, rfl⟩
  | cons w ws ih =>
    obtain ⟨a, ha, hk, hv⟩ := ih h
    rcases List.mem_append.1 ha with ha | ha
    · obtain ⟨b, hb, hk', hv'⟩ := exists_of_mem_put ha
      refine ⟨b, ?_, BEq.trans hk' hk, hv'.trans hv⟩
      rcases List.mem_append.1 hb with hb | hb
      · exact List.mem_append_left _ hb
      · obtain rfl := List.mem_singleton.1 hb
        simp
    · exact ⟨a, by simp [ha], hk, hv⟩

theorem exists_of_mem_ofList {ws : List (κ × ν)} {e : κ × ν} (h : e ∈ ofList ws) :
    ∃ e' ∈ ws, (e'.1 == e.1) = true ∧ e'.2 = e.2 := exists_of_mem_putAll h

theorem distinct_put {m : Entries κ ν} (d : m.Distinct) (k : κ) (v : ν) : (put k v m).Distinct := by
  rw [Distinct, keys_put]
  cases h : m.keys.any (k == ·) with
  | true => exact d
  | false =>
    rw [List.any_eq_false] at h
    rw [if_neg (by simp), List.pairwise_append]
    refine ⟨d, List.pairwise_singleton _ _, fun a ha b hb => ?_⟩
    obtain rfl := List.mem_singleton.1 hb
    rw [BEq.comm]
    simpa using h a ha

theorem distinct_putAll {m : Entries κ ν} (d : m.Distinct) (ws : List (κ × ν)) :
    (putAll m ws).Distinct := by
  induction ws generalizing m with
  | nil => exact d
  | cons w ws ih => exact ih (distinct_put d w.1 w.2)

theorem distinct_ofList (ws : List (κ × ν)) : (ofList ws).Distinct :=
  distinct_putAll distinct_nil ws

omit [EquivBEq κ] in
/-- the keys after a row of writes: those that were there, then the new ones as they first came -/
theorem keys_putAll (m : Entries κ ν) (ws : List (κ × ν)) :
    (putAll m ws).keys =
      m.keys ++ ((keys ws).filter fun k => !m.keys.any (k == ·)).eraseDups := by
  induction ws generalizing m with
  | nil => exact (List.append_nil _).symm
  | cons w ws ih =>
    have hcons : keys (w :: ws) = w.1 :: keys ws := rfl
    rw [putAll_cons, ih, keys_put, hcons]
    cases h : m.keys.any (w.1 == ·) with
    | true => rw [if_pos rfl, List.filter_cons_of_neg (by rw [h]; exact Bool.false_ne_true)]
    | false =>
      have hrest : ((keys ws).filter fun k => !(m.keys ++ [w.1]).any (k == ·)) =
          ((keys ws).filter fun k => !m.keys.any (k == ·)).filter fun k => !(k == w.1) := by
        rw [List.filter_filter]
        refine List.filter_congr fun k _ => ?_
        rw [List.any_append, List.any_cons, List.any_nil, Bool.or_false, Bool.not_or, Bool.and_comm]
      rw [if_neg Bool.false_ne_true, List.filter_cons_of_pos (by rw [h]; rfl), List.eraseDups_cons,
        hrest, List.append_assoc]
      rfl

omit [EquivBEq κ] in
/-- the keys of a row of writes, each at its first occurrence -/
theorem keys_ofList (ws : List (κ × ν)) : (ofList ws).keys = (keys ws).eraseDups := by
  have hall : ((keys ws).filter fun k => !(keys ([] : Entries κ ν)).any (k == ·)) = keys ws :=
    List.filter_eq_self.2 fun _ _ => rfl
  rw [ofList, keys_putAll, hall]
  rfl

/-- new distinct keys are appended in order -/
theorem putAll_of_distinct (m ws : Entries κ ν) (d : Distinct (m ++ ws)) :
    putAll m ws = m ++ ws := by
  induction ws generalizing m with
  | nil => rw [List.append_nil]; rfl
  | cons w ws ih =>
    have hput : put w.1 w.2 m = m ++ [w] := by
      refine put_of_absent w.1 w.2 m ?_
      rw [List.any_eq_false]
      intro a ha
      have hne := ((distinct_append m (w :: ws)).1 d).2.2 a ha w.1 List.mem_cons_self
      rw [BEq.comm, hne]
      exact Bool.false_ne_true
    have happ : m ++ w :: ws = (m ++ [w]) ++ ws := by simp
    rw [putAll_cons, hput, ih _ (happ ▸ d), happ]

theorem ofList_of_distinct {m : Entries κ ν} (d : m.Distinct) : ofList m = m :=
  putAll_of_distinct [] m d

end

/-! ## keeping some keys

Writing goes on within the keys that are kept, if equal keys are kept alike. -/

section
variable {q : κ → Bool} (hq : ∀ a b, (a == b) = true → q a = q b)
include hq

theorem eraseDups_filter (l : List κ) : (l.filter q).eraseDups = l.eraseDups.filter q := by
  -- what follows an element is shorter than the rest, but no part of it
  induction hn : l.length using Nat.strongRecOn generalizing l with
  | ind n ih =>
    cases l with
    | nil => rfl
    | cons a l =>
      have hlt : (l.filter fun b => !(b == a)).length < n :=
        Nat.lt_of_le_of_lt (List.length_filter_le _ _) (by rw [← hn]; exact Nat.lt_succ_self _)
      have hrest := ih _ hlt (l.filter fun b => !(b == a)) rfl
      rw [List.eraseDups_cons]
      cases ha : q a with
      | true =>
        rw [List.filter_cons_of_pos ha, List.filter_cons_of_pos ha, List.eraseDups_cons, ← hrest,
          List.filter_filter, List.filter_filter]
        simp only [Bool.and_comm]
      | false =>
        have hne : ¬q a = true := ne_true_of_eq_false ha
        have hdropped : (l.filter fun b => !(b == a)).filter q = l.filter q := by
          rw [List.filter_filter]
          refine List.filter_congr fun b _ => ?_
          cases hb : b == a with
          | true => rw [hq b a hb, ha, Bool.false_and]
          | false => rw [Bool.not_false, Bool.and_true]
        rw [List.filter_cons_of_neg hne, List.filter_cons_of_neg hne, ← hrest, hdropped]

theorem filter_put (k : κ) (v : ν) (m : Entries κ ν) :
    (put k v m).filter (fun e => q e.1) =
      if q k then put k v (m.filter fun e => q e.1) else m.filter fun e => q e.1 := by
  induction m with
  | nil => cases h : q k <;> simp [put, h]
  | cons e m ih =>
    obtain ⟨a, b⟩ := e
    cases hk : k == a with
    | true => cases ha : q a <;> simp [put, hk, hq k a hk, ha]
    | false =>
      cases ha : q a with
      | true =>
        simp only [put, hk, Bool.false_eq_true, ↓reduceIte, List.filter_cons, ha, ih]
        split <;> rfl
      | false => simp [put, hk, ha, ih]

theorem filter_putAll (ws : List (κ × ν)) (m : Entries κ ν) :
    (putAll m ws).filter (fun e => q e.1) =
      putAll (m.filter fun e => q e.1) (ws.filter fun e => q e.1) := by
  induction ws generalizing m with
  | nil => rfl
  | cons w ws ih =>
    rw [putAll_cons, ih, filter_put hq, List.filter_cons]
    cases q w.1 <;> rfl

theorem filter_ofList (ws : List (κ × ν)) :
    (ofList ws).filter (fun e => q e.1) = ofList (ws.filter fun e => q e.1) :=
  filter_putAll hq ws []

end

end Palette.Entries

namespace Palette.OrderedMap
variable {κ ν : Type} [BEq κ] [Hashable κ]

theorem distinct_toList [EquivBEq κ] [LawfulHashable κ] (m : OrderedMap κ ν) :
    m.toList.Distinct := by
  rw [Entries.Distinct, keys_toList]
  exact m.distinct

theorem get?_of_mem [EquivBEq κ] [LawfulHashable κ] (m : OrderedMap κ ν) {k : κ} {v : ν}
    (h : (k, v) ∈ m.toList) : m.get? k = some v := by
  rw [← lookup_toList]
  exact Entries.lookup_of_mem m.distinct_toList h

theorem get?_filter [EquivBEq κ] [LawfulHashable κ] (m : OrderedMap κ ν) {q : κ → ν → Bool}
    (hq : ∀ a b v, (a == b) = true → q a v = q b v) (k : κ) :
    (m.filter q).get? k = (m.get? k).filter (q k) := by
  rw [← lookup_toList, filter, toList_ofList,
    Entries.ofList_of_distinct (Entries.distinct_filter m.distinct_toList _),
    Entries.lookup_filter m.distinct_toList hq, lookup_toList]

end Palette.OrderedMap
