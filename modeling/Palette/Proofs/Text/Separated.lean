import Mathlib.Data.List.Basic

/-!
# Texts between separators

Where parts of a text are put side by side with a separator, they are read again if they do not have
it.

* `append_cons_inj`        what stands before the first separator;
* `append_cons_inj_last`   what stands behind the last one;
* `eq_of_intercalate`      words that do not have the first character of what stands between them.
-/

namespace Palette.Text
variable {x : Char} {a b c d : List Char}

/-- what stands before the first separator -/
theorem append_cons_inj (ha : x ∉ a) (hb : x ∉ b) (h : a ++ x :: c = b ++ x :: d) :
    a = b ∧ c = d := by
  induction a generalizing b with
  | nil =>
    cases b with
    | nil => exact ⟨rfl, (List.cons.inj h).2⟩
    | cons y b => exact absurd ((List.cons.inj h).1 ▸ List.mem_cons_self) hb
  | cons y a ih =>
    cases b with
    | nil => exact absurd ((List.cons.inj h).1 ▸ List.mem_cons_self) ha
    | cons z b =>
      obtain ⟨rfl, htail⟩ := List.cons.inj h
      obtain ⟨rfl, hrest⟩ :=
        ih (List.not_mem_of_not_mem_cons ha) (List.not_mem_of_not_mem_cons hb) htail
      exact ⟨rfl, hrest⟩

/-- what stands behind the last separator -/
theorem append_cons_inj_last (hc : x ∉ c) (hd : x ∉ d) (h : a ++ x :: c = b ++ x :: d) :
    a = b ∧ c = d := by
  have hreverse (u v : List Char) : (u ++ x :: v).reverse = v.reverse ++ x :: u.reverse := by
    rw [List.reverse_append, List.reverse_cons, List.append_assoc, List.singleton_append]
  have h := congrArg List.reverse h
  rw [hreverse, hreverse] at h
  obtain ⟨hcd, hab⟩ := append_cons_inj (mt List.mem_reverse.1 hc) (mt List.mem_reverse.1 hd) h
  exact ⟨List.reverse_injective hab, List.reverse_injective hcd⟩

theorem toList_intercalate_cons (s t u : String) (l : List String) :
    (s.intercalate (t :: u :: l)).toList =
      t.toList ++ (s.toList ++ (s.intercalate (u :: l)).toList) := by
  rw [String.intercalate_cons_cons, String.toList_append, String.toList_append, List.append_assoc]

/-- as many words with the same separators between them are the same -/
theorem eq_of_intercalate {s : String} {rest : List Char} (hs : s.toList = x :: rest)
    {l l' : List String} (hlength : l.length = l'.length) (hl : ∀ w ∈ l, x ∉ w.toList)
    (hl' : ∀ w ∈ l', x ∉ w.toList) (h : s.intercalate l = s.intercalate l') : l = l' := by
  induction l generalizing l' with
  | nil => exact (List.length_eq_zero_iff.1 hlength.symm).symm
  | cons w l ih =>
    obtain _ | ⟨w', l'⟩ := l'
    · cases hlength
    have hlength := Nat.succ.inj hlength
    rw [List.forall_mem_cons] at hl hl'
    cases l with
    | nil =>
      obtain rfl := List.length_eq_zero_iff.1 hlength.symm
      rw [String.intercalate_singleton, String.intercalate_singleton] at h
      rw [h]
    | cons v l =>
      obtain _ | ⟨v', l'⟩ := l'
      · cases hlength
      have h := congrArg String.toList h
      rw [toList_intercalate_cons, toList_intercalate_cons, hs, List.cons_append,
        List.cons_append] at h
      obtain ⟨hw, hrest⟩ := append_cons_inj hl.1 hl'.1 h
      have htail := String.toList_injective (List.append_cancel_left hrest)
      rw [String.toList_injective hw, ih hlength hl.2 hl'.2 htail]

end Palette.Text
