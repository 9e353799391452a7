/-!
# Entries

Maps that keep their entries in the order in which the keys first came: lists of pairs. Writing
to a key that is there replaces its value and leaves it where it is.

* `put`     the write;
* `putAll`  a row of writes, and `ofList` the same on the empty map;
* `keys`    the keys in order;
* `lookup_put`, `keys_put`   what a write does to the values and to the keys;
* `put_of_absent`, `put_of_present`   where the write goes.

Reading is `List.lookup`.
-/

namespace Palette

/-- a map as the list of its entries in order of first writing -/
abbrev Entries (κ ν : Type) := List (κ × ν)

namespace Entries
variable {κ ν : Type} [BEq κ]

/-- the map with `v` at `k`: in place of the old value, or at the end -/
def put (k : κ) (v : ν) : Entries κ ν → Entries κ ν
  | [] => [(k, v)]
  | (k', v') :: rest => if k == k' then (k', v) :: rest else (k', v') :: put k v rest

/-- the map after a row of writes -/
def putAll (m : Entries κ ν) (writes : List (κ × ν)) : Entries κ ν :=
  writes.foldl (fun m w => put w.1 w.2 m) m

/-- the map that a row of writes gives -/
def ofList (writes : List (κ × ν)) : Entries κ ν := putAll [] writes

omit [BEq κ] in
def keys (m : Entries κ ν) : List κ := m.map (·.1)

def erase (k : κ) (m : Entries κ ν) : Entries κ ν := m.filter fun e => !(k == e.1)

theorem put_nil (k : κ) (v : ν) : put k v [] = [(k, v)] := rfl

theorem putAll_cons (m : Entries κ ν) (w : κ × ν) (ws : List (κ × ν)) :
    putAll m (w :: ws) = putAll (put w.1 w.2 m) ws := rfl

theorem putAll_append (m : Entries κ ν) (a b : List (κ × ν)) :
    putAll m (a ++ b) = putAll (putAll m a) b := by
  simp [putAll, List.foldl_append]

/-- a key reads as what was written to it last -/
theorem lookup_put [EquivBEq κ] (k k' : κ) (v : ν) (m : Entries κ ν) :
    (put k v m).lookup k' = if k == k' then some v else m.lookup k' := by
  induction m with
  | nil =>
    simp only [put, List.lookup_cons, List.lookup_nil]
    rw [BEq.comm]
    cases k == k' <;> rfl
  | cons e m ih =>
    obtain ⟨a, b⟩ := e
    by_cases h : (k == a) = true
    · have hk : (k' == a) = (k == k') := by rw [BEq.congr_left h, BEq.comm]
      simp only [put, h, ↓reduceIte, List.lookup_cons, hk]
      cases k == k' <;> rfl
    · simp only [put, h, Bool.false_eq_true, ↓reduceIte, List.lookup_cons, ih]
      cases ha : (k' == a) with
      | false => rfl
      | true =>
        by_cases hk : (k == k') = true
        · exact absurd (BEq.trans hk ha) h
        · simp [hk]

/-- a write adds its key at the end, unless the key is there -/
theorem keys_put (k : κ) (v : ν) (m : Entries κ ν) :
    (put k v m).keys = if m.keys.any (k == ·) then m.keys else m.keys ++ [k] := by
  induction m with
  | nil => rfl
  | cons e m ih =>
    obtain ⟨a, b⟩ := e
    by_cases h : (k == a) = true
    · simp [put, keys, h]
    · simp only [keys] at ih
      simp only [put, h, Bool.false_eq_true, ↓reduceIte, keys, List.map_cons, ih, List.any_cons,
        Bool.false_or]
      split <;> simp [*]

/-- a new key goes to the end -/
theorem put_of_absent (k : κ) (v : ν) (m : Entries κ ν) (h : m.keys.any (k == ·) = false) :
    put k v m = m ++ [(k, v)] := by
  induction m with
  | nil => rfl
  | cons e m ih =>
    simp only [keys, List.map_cons, List.any_cons, Bool.or_eq_false_iff] at h ih
    simp [put, h.1, ih h.2]

/-- an old key keeps its place, where each key is there once -/
theorem put_of_present [EquivBEq κ] (k : κ) (v : ν) (m : Entries κ ν)
    (d : m.keys.Pairwise fun a b => (a == b) = false) (h : m.keys.any (k == ·) = true) :
    put k v m = m.map fun e => if k == e.1 then (e.1, v) else e := by
  induction m with
  | nil => simp [keys] at h
  | cons e m ih =>
    simp only [keys, List.map_cons, List.pairwise_cons, List.any_cons] at d h ih
    by_cases hk : (k == e.1) = true
    · have hm : ∀ x ∈ m, (if k == x.1 then (x.1, v) else x) = x := fun x hx => by
        have hd := d.1 x.1 (List.mem_map_of_mem hx)
        rw [← BEq.congr_left hk] at hd
        simp [hd]
      simp [put, hk, List.map_congr_left hm]
    · simp only [hk, Bool.false_or] at h
      simp [put, hk, ih d.2 h]

end Entries
end Palette
