import Palette.Archive.Resolve
import Palette.Proofs.Registry.Tracks

/-!
# Visions do not see one another

A question about one vision is answered from the variants of that vision and of the one without
deficiency. The keys that a context tries are searched in order, and the search reads nothing but
the variants at these keys.

* `Archive.search`            the search, with the fault of a name that cannot be a key;
* `Archive.search_append`     a search goes on where it found nothing;
* `Archive.search_visions`    a vision without variants is searched like the one without deficiency;
* `Archive.of_mem_candidates` what the keys have that a context tries;
* `Archive.restricted`        an archive without the variants of other visions;
* `Archive.resolve_restricted`   it gives the same answers;
* `Archive.visions_independent`  and so does the vision without deficiency, where a token has no
                              variant of another one.
-/

namespace Palette.Archive

/-- the color at the first key that has one, unless a name that cannot be a key comes before -/
def search (a : Archive) : List (Option VariantKey) → Except Fault (Option Document)
  | [] => .ok none
  | none :: _ => .error .wrongKind
  | some k :: ks =>
    match a.variants.get? k with
    | some v => .ok (some v.hex)
    | none => search a ks

section
variable {a b : Archive}

theorem search_eq (keys : List (Option VariantKey)) :
    (if a.meetsNoKey keys then .error .wrongKind else .ok (a.firstOf? keys)) = a.search keys := by
  induction keys with
  | nil => rfl
  | cons o keys ih =>
    cases o with
    | none => rfl
    | some k =>
      rw [search]
      cases hv : a.variants.get? k with
      | none =>
        rw [← ih]
        simp [meetsNoKey, firstOf?, hv]
      | some v => simp [meetsNoKey, firstOf?, hv]

theorem resolve_eq_search (token : Atom) (c : Lookup) :
    a.resolve token c =
      (a.search (a.candidates token c)).map fun found => found.getD (a.defaultOf token) := by
  rw [resolve, answer, ← search_eq]
  split
  · rfl
  · rfl

/-- a search that finds nothing in the first keys goes on with the others -/
theorem search_append (ks ls : List (Option VariantKey)) :
    a.search (ks ++ ls) = (a.search ks).bind fun found =>
      match found with
      | some d => .ok (some d)
      | none => a.search ls := by
  induction ks with
  | nil => rfl
  | cons o ks ih =>
    cases o with
    | none => rfl
    | some k =>
      rw [List.cons_append, search, search]
      cases a.variants.get? k with
      | none => exact ih
      | some v => rfl

theorem search_flatMap_congr {α : Type} {l : List α} {f g : α → List (Option VariantKey)}
    (h : ∀ x ∈ l, a.search (f x) = a.search (g x)) :
    a.search (l.flatMap f) = a.search (l.flatMap g) := by
  induction l with
  | nil => rfl
  | cons x l ih =>
    rw [List.flatMap_cons, List.flatMap_cons, search_append, search_append,
      h x List.mem_cons_self, ih fun y hy => h y (List.mem_cons_of_mem x hy)]

/-- a search reads the variants at its keys alone -/
theorem search_congr {keys : List (Option VariantKey)}
    (h : ∀ k, some k ∈ keys → a.variants.get? k = b.variants.get? k) :
    a.search keys = b.search keys := by
  induction keys with
  | nil => rfl
  | cons o keys ih =>
    cases o with
    | none => rfl
    | some k =>
      have hkeys := fun k' hk' => h k' (List.mem_cons_of_mem _ hk')
      rw [search, search, h k List.mem_cons_self, ih hkeys]

/-! ## visions -/

/-- at one stack or fallback theme, a vision without variants is searched like the one without
deficiency -/
theorem search_visions {v : Atom} {key : Atom → Option VariantKey}
    (hsome : ∀ k, key v = some k → a.variants.get? k = none)
    (hnone : key v = none → key plain = none) :
    a.search ((visions v).map key) = a.search ((visions plain).map key) := by
  show a.search ((visions v).map key) = a.search [key plain]
  rw [visions]
  split
  · rfl
  · cases hk : key v with
    | none =>
      rw [List.map_cons, hk, hnone hk]
      rfl
    | some k =>
      rw [List.map_cons, hk, search, hsome k hk]
      rfl

theorem of_mem_visions {v vision : Atom} (h : v ∈ visions vision) : v = vision ∨ v = plain := by
  rw [visions] at h
  split at h
  · exact .inr (List.mem_singleton.1 h)
  · simpa using h

/-- a key that is tried has the font size of the context, its theme or a fallback theme, and its
vision or none -/
theorem of_mem_candidates {token : Atom} {c : Lookup} {k : VariantKey}
    (hk : some k ∈ a.candidates token c) :
    k.fontSize = c.fontSize ∧
      (k.theme = c.theme ∨ (a.fallbacks.lookup c.theme).isSome = true) ∧
      (k.vision = c.vision ∨ k.vision = plain) := by
  rcases List.mem_append.1 hk with hk | hk
  · obtain ⟨k', hk', heq⟩ := List.mem_map.1 hk
    obtain rfl := Option.some.inj heq
    obtain ⟨s, _, hm⟩ := List.mem_flatMap.1 hk'
    obtain ⟨v, hv, rfl⟩ := List.mem_map.1 hm
    exact ⟨rfl, .inl rfl, of_mem_visions hv⟩
  · obtain ⟨theme, ht, hm⟩ := List.mem_flatMap.1 hk
    obtain ⟨v, hv, hm⟩ := List.mem_map.1 hm
    obtain ⟨t, _, rfl⟩ := Option.map_eq_some_iff.1 hm
    refine ⟨rfl, .inr ?_, of_mem_visions hv⟩
    cases hl : a.fallbacks.lookup c.theme with
    | none =>
      rw [hl] at ht
      exact absurd ht List.not_mem_nil
    | some ts => rfl

/-- an archive without the variants of other visions than one and the one without deficiency -/
def restricted (a : Archive) (vision : Atom) : Archive :=
  { a with variants := a.variants.filter fun k _ => k.vision == vision || k.vision == plain }

theorem get?_restricted {vision : Atom} {k : VariantKey}
    (hk : k.vision = vision ∨ k.vision = plain) :
    (a.restricted vision).variants.get? k = a.variants.get? k := by
  have hkept : (k.vision == vision || k.vision == plain) = true := by
    rcases hk with h | h
    · rw [h, BEq.rfl, Bool.true_or]
    · rw [h, BEq.rfl, Bool.or_true]
  show (a.variants.filter _).get? k = _
  rw [OrderedMap.get?_filter, hkept]
  · cases a.variants.get? k <;> rfl
  · intro k k' _ h
    have hv := (VariantKey.beq_iff_parts.1 h).2.2.2.2
    rw [BEq.congr_left hv, BEq.congr_left hv]

theorem resolve_restricted (token : Atom) (c : Lookup) :
    (a.restricted c.vision).resolve token c = a.resolve token c := by
  have hsearch : (a.restricted c.vision).search (a.candidates token c) =
      a.search (a.candidates token c) :=
    search_congr fun k hk => get?_restricted (of_mem_candidates hk).2.2
  rw [resolve_eq_search, resolve_eq_search, ← hsearch]
  rfl

/-! ## a vision without variants of a token -/

section
variable {token : Atom} {c : Lookup}
  (h : ∀ e ∈ a.variants.toList, e.1.token == token → (e.1.vision == c.vision) = false)
include h

theorem get?_eq_none_of_vision {k : VariantKey} (ht : k.token = token)
    (hv : k.vision = c.vision) : a.variants.get? k = none := by
  rw [← OrderedMap.lookup_toList]
  refine Entries.lookup_eq_none fun k' hk' => ?_
  obtain ⟨v, hm⟩ := Entries.mem_keys.1 hk'
  rw [← Bool.not_eq_true, BEq.comm, VariantKey.beq_iff_parts, ht, hv]
  rintro ⟨htoken, _, _, _, hvision⟩
  exact absurd hvision (Bool.eq_false_iff.1 (h _ hm htoken))

/-- the keys of the vision are passed over, and those of the one without deficiency are met in the
order in which they are met without the others -/
theorem search_candidates_plain :
    a.search (a.candidates token c) = a.search (a.candidates token { c with vision := plain }) := by
  rw [candidates, candidates, stackKeys, stackKeys, List.map_flatMap, List.map_flatMap,
    search_append, search_append]
  congr 1
  · refine search_flatMap_congr fun s _ => ?_
    rw [List.map_map, List.map_map]
    refine search_visions (fun k hk => ?_) (fun hk => nomatch hk)
    obtain rfl := Option.some.inj hk
    exact get?_eq_none_of_vision h rfl rfl
  · funext found
    cases found with
    | some d => rfl
    | none =>
      refine search_flatMap_congr fun theme _ => ?_
      refine search_visions (fun k hk => ?_) (fun hk => ?_)
      · obtain ⟨t, _, rfl⟩ := Option.map_eq_some_iff.1 hk
        exact get?_eq_none_of_vision h rfl rfl
      · rw [Option.map_eq_none_iff] at hk ⊢
        exact hk

end

/-- visions do not leak into one another: the answer is the same without the variants of other
visions, and it is the one without deficiency if the token has no variant of the vision -/
theorem visions_independent (a : Archive) (token : Atom) (c : Lookup) :
    (a.restricted c.vision).resolve token c = a.resolve token c ∧
      ((∀ e ∈ a.variants.toList, e.1.token == token → (e.1.vision == c.vision) = false) →
        a.resolve token c = a.resolve token { c with vision := plain }) := by
  refine ⟨resolve_restricted token c, fun h => ?_⟩
  rw [resolve_eq_search, resolve_eq_search, search_candidates_plain h]

end
end Palette.Archive

namespace Palette.Sample

def painted (hex : String) : StoredVariant where
  ramp := .text "gray"
  step := .int 0
  hex := .text hex
  evaluation :=
    { passed := true, metric := "red", value := 0.0, required := none, polarity := none }

def wornVariants : Entries VariantKey StoredVariant := [
  (⟨.text "a", .text "12px", .text "day", .text "root", .text "protanopia"⟩, painted "red"),
  (⟨.text "a", .text "12px", .text "night", .text "root", .text "default"⟩, painted "blue"),
  (⟨.text "b", .text "12px", .text "day", .text "card", .text "tritanopia"⟩, painted "green")]

/-- an archive with three visions and holes, whose fallback themes name one another, themselves and
no theme at all -/
def worn : Archive where
  ramps := []
  themes := []
  fallbacks := [(.text "day", [.text "day", .text "dusk", .text "night"]),
    (.text "night", [.text "day"])]
  layers := []
  variants := .ofList wornVariants
  defaults := [(.text "a", .text "black")]
  info :=
    { generatedAt := .null, totalVariants := .int 3, tokenCount := .int 2, engine := .null
      level := .null, inputHash := .null }
  warnings := []

end Palette.Sample

namespace Palette.Archive

/-- one token has no variant of the vision, and loses one of another vision -/
theorem visions_independent_worn :
    let c := Lookup.ofNames "12px" "day" "overlay" "tritanopia"
    (Sample.worn.restricted c.vision).resolve (.text "a") c = Sample.worn.resolve (.text "a") c ∧
      Sample.worn.resolve (.text "a") c =
        Sample.worn.resolve (.text "a") { c with vision := plain } := by
  intro c
  obtain ⟨hrestricted, hplain⟩ := visions_independent Sample.worn (.text "a") c
  refine ⟨hrestricted, hplain ?_⟩
  have hworn : Sample.worn.variants.toList = Entries.ofList Sample.wornVariants :=
    OrderedMap.toList_ofList _
  rw [hworn]
  decide

end Palette.Archive
