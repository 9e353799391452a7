import Palette.Entries
import Std.Data.HashMap

/-!
# Indexed entries

Entries with an index, for maps of many keys: the keys in order of first writing, and a hash table
of the values. The table holds exactly the keys of the row, and the row holds each key once.

* `get?`, `contains`   reading;
* `insert`, `insertAll`   writing;
* `toList`             the entries in order.

`get?_insert` says what a write does to reading. The index changes nothing: reading reads the
entries (`lookup_toList`) and writing writes to them (`toList_insert`, `toList_insertAll`).
-/

namespace Palette

/-- entries with an index -/
structure OrderedMap (κ ν : Type) [BEq κ] [Hashable κ] where
  keys : Array κ
  table : Std.HashMap κ ν
  distinct : keys.toList.Pairwise fun a b => (a == b) = false
  indexed : ∀ k, table.contains k = keys.toList.any (k == ·)

namespace OrderedMap
variable {κ ν : Type} [BEq κ] [Hashable κ]

def empty : OrderedMap κ ν := ⟨#[], ∅, .nil, fun _ => by simp⟩

instance : Inhabited (OrderedMap κ ν) := ⟨empty⟩

def get? (m : OrderedMap κ ν) (k : κ) : Option ν := m.table[k]?

def contains (m : OrderedMap κ ν) (k : κ) : Bool := m.table.contains k

def toList (m : OrderedMap κ ν) : Entries κ ν :=
  m.keys.toList.filterMap fun k => (m.get? k).map fun v => (k, v)

def size (m : OrderedMap κ ν) : Nat := m.keys.size

section
variable [EquivBEq κ] [LawfulHashable κ]

/-- the map with `v` at `k`, at the end if the key is new -/
def insert (m : OrderedMap κ ν) (k : κ) (v : ν) : OrderedMap κ ν where
  keys := if m.table.contains k then m.keys else m.keys.push k
  table := m.table.insert k v
  distinct := by
    split
    · exact m.distinct
    · next h =>
      rw [m.indexed, Bool.not_eq_true, List.any_eq_false] at h
      rw [Array.toList_push, List.pairwise_append]
      refine ⟨m.distinct, List.pairwise_singleton _ _, fun a ha b hb => ?_⟩
      obtain rfl := List.mem_singleton.1 hb
      rw [BEq.comm]
      simpa using h a ha
  indexed k' := by
    rw [Std.HashMap.contains_insert, m.indexed]
    split
    · next h =>
      rw [m.indexed] at h
      by_cases hk : (k == k') = true
      · simpa [hk, BEq.congr_left hk] using h
      · simp [hk]
    · rw [Array.toList_push, List.any_append, List.any_cons, List.any_nil, Bool.or_false, BEq.comm,
        Bool.or_comm]

def insertAll (m : OrderedMap κ ν) (writes : List (κ × ν)) : OrderedMap κ ν :=
  writes.foldl (fun m w => m.insert w.1 w.2) m

def ofList (writes : List (κ × ν)) : OrderedMap κ ν := empty.insertAll writes

def filter (m : OrderedMap κ ν) (p : κ → ν → Bool) : OrderedMap κ ν :=
  ofList (m.toList.filter fun e => p e.1 e.2)

end

theorem get?_empty (k : κ) : (empty : OrderedMap κ ν).get? k = none := by
  simp [get?, empty]

theorem toList_empty : (empty : OrderedMap κ ν).toList = [] := rfl

/-! ## the entries -/

section
variable [EquivBEq κ] [LawfulHashable κ]

theorem isSome_get? (m : OrderedMap κ ν) (k : κ) : (m.get? k).isSome = m.contains k := by
  simp [get?, contains]

/-- a key reads as what was written to it last -/
theorem get?_insert (m : OrderedMap κ ν) (k k' : κ) (v : ν) :
    (m.insert k v).get? k' = if k == k' then some v else m.get? k' := by
  simp [get?, insert, Std.HashMap.getElem?_insert]

theorem get?_congr (m : OrderedMap κ ν) {k k' : κ} (h : (k == k') = true) :
    m.get? k = m.get? k' := Std.HashMap.getElem?_congr h

theorem isSome_get?_of_mem (m : OrderedMap κ ν) {k : κ} (h : k ∈ m.keys.toList) :
    (m.get? k).isSome = true := by
  rw [isSome_get?, contains, m.indexed]
  exact List.any_eq_true.2 ⟨k, h, BEq.rfl⟩

omit [Hashable κ] [EquivBEq κ] [LawfulHashable κ] [BEq κ] in
private theorem keys_pairs (f : κ → Option ν) (l : List κ) (h : ∀ k ∈ l, (f k).isSome = true) :
    Entries.keys (l.filterMap fun k => (f k).map fun v => (k, v)) = l := by
  induction l with
  | nil => rfl
  | cons a l ih =>
    obtain ⟨v, hv⟩ := Option.isSome_iff_exists.1 (h a List.mem_cons_self)
    simp only [List.filterMap_cons, hv, Option.map_some, Entries.keys, List.map_cons]
    exact congrArg (a :: ·) (ih fun k hk => h k (List.mem_cons_of_mem _ hk))

theorem keys_toList (m : OrderedMap κ ν) : m.toList.keys = m.keys.toList :=
  keys_pairs m.get? m.keys.toList fun _ h => m.isSome_get?_of_mem h

theorem length_toList (m : OrderedMap κ ν) : m.toList.length = m.size := by
  have h := congrArg List.length m.keys_toList
  simpa [Entries.keys, size] using h

omit [Hashable κ] [EquivBEq κ] [LawfulHashable κ] in
private theorem lookup_pairs (f : κ → Option ν) (hf : ∀ a b, (a == b) = true → f a = f b)
    (l : List κ) (k : κ) :
    (l.filterMap fun k => (f k).map fun v => (k, v)).lookup k
      = if l.any (k == ·) then f k else none := by
  induction l with
  | nil => rfl
  | cons a l ih =>
    by_cases h : (k == a) = true
    · cases hv : f a with
      | some v => simp [hv, List.lookup_cons, h, hf k a h]
      | none => simp [hv, ih, hf k a h]
    · cases hv : f a with
      | some v => simp [hv, List.lookup_cons, h, ih]
      | none => simp [hv, h, ih]

theorem lookup_toList (m : OrderedMap κ ν) (k : κ) : m.toList.lookup k = m.get? k := by
  rw [toList, lookup_pairs m.get? (fun a b h => m.get?_congr h), ← m.indexed]
  split
  · rfl
  · next h =>
    cases hv : m.get? k with
    | none => rfl
    | some v =>
      have hs := m.isSome_get? k
      rw [hv] at hs
      exact absurd hs.symm h

omit [BEq κ] [Hashable κ] [EquivBEq κ] [LawfulHashable κ] in
private theorem filterMap_eq_of_mem {β : Type} {f g : κ → Option β} {l : List κ}
    (h : ∀ k ∈ l, f k = g k) : l.filterMap f = l.filterMap g := by
  induction l with
  | nil => rfl
  | cons a l ih =>
    rw [List.filterMap_cons, List.filterMap_cons, h a List.mem_cons_self,
      ih fun k hk => h k (List.mem_cons_of_mem _ hk)]

theorem toList_insert (m : OrderedMap κ ν) (k : κ) (v : ν) :
    (m.insert k v).toList = m.toList.put k v := by
  have hany : m.toList.keys.any (k == ·) = m.table.contains k := by rw [keys_toList, m.indexed]
  by_cases h : m.table.contains k = true
  · rw [Entries.put_of_present k v _ (by rw [keys_toList]; exact m.distinct) (hany.trans h)]
    simp only [toList, insert, h, ↓reduceIte, List.map_filterMap]
    refine filterMap_eq_of_mem fun a ha => ?_
    obtain ⟨w, hw⟩ := Option.isSome_iff_exists.1 (m.isSome_get?_of_mem ha)
    have hg := m.get?_insert k a v
    simp only [insert, h, ↓reduceIte] at hg
    rw [hg, hw]
    by_cases hk : (k == a) = true <;> simp [hk]
  · rw [Bool.not_eq_true] at h
    rw [Entries.put_of_absent k v _ (hany.trans h)]
    have hnone : ∀ a ∈ m.keys.toList, (k == a) = false := by
      rw [m.indexed, List.any_eq_false] at h
      simpa using h
    simp only [toList, insert, h, Bool.false_eq_true, ↓reduceIte, Array.toList_push,
      List.filterMap_append]
    have hg := fun a => m.get?_insert k a v
    simp only [insert, h, Bool.false_eq_true, ↓reduceIte] at hg
    congr 1
    · refine filterMap_eq_of_mem fun a ha => ?_
      simp [hg, hnone a ha]
    · simp [hg]

theorem toList_insertAll (m : OrderedMap κ ν) (ws : List (κ × ν)) :
    (m.insertAll ws).toList = m.toList.putAll ws := by
  induction ws generalizing m with
  | nil => rfl
  | cons w ws ih =>
    rw [Entries.putAll_cons, ← toList_insert]
    exact ih _

theorem toList_ofList (ws : List (κ × ν)) :
    (ofList ws : OrderedMap κ ν).toList = Entries.ofList ws := toList_insertAll _ ws

theorem insertAll_cons (m : OrderedMap κ ν) (w : κ × ν) (ws : List (κ × ν)) :
    m.insertAll (w :: ws) = (m.insert w.1 w.2).insertAll ws := rfl

end

end OrderedMap
end Palette
