import Palette.Proofs.Registry.Reported
import Palette.Proofs.Registry.Truth
import Palette.Proofs.Stylesheet.Shown

/-!
# Which variables collide

A stylesheet makes variables of names of four kinds: colors, the surface, themes and steps of ramps.
Two of a kind have two variables, but for colors, whose capitals are written out as words of their
own: what is written with a capital may be written with a hyphen, too. Variables of two kinds may be
the same, but for the surface and a step.

* `Property.Respells`        a name is another one with a capital of it written out;
* `Property.words_eq_iff`    so two names come to have the same words, and in no other way;
* `Property.ofStep_inj`      the variable of a step tells its ramp and its number;
* `Property.rootNames`, `Property.Apart`   the variables of a root, and when they are told apart;
* `Property.nodup_rootNames_iff`   they are distinct exactly then;
* `Spec.apart_of_build`      the root of the stylesheet of a registry.
-/

namespace Palette

namespace Property
variable {b c : Char} {n m t : List Char}

/-! ## names of colors -/

/-- Is a name another one with a capital before its first hyphen written out, as a hyphen with the
small letter? What follows the capital is written as words. -/
inductive Respells : List Char → List Char → Prop
  | here {c : Char} {t : List Char} : c.isUpper = true →
      Respells ('-' :: c.toLower :: words t) (c :: t)
  | there {b : Char} {n m : List Char} : b ≠ '-' → Respells n m → Respells (b :: n) (b :: m)

theorem words_hyphen (t : List Char) : words ('-' :: t) = '-' :: t := rfl

theorem words_cons (hb : b ≠ '-') : words (b :: t) = hyphenated b ++ words t := by
  have hne : (b != '-') = true := bne_iff_ne.2 hb
  rw [words, words, List.takeWhile_cons, List.dropWhile_cons, if_pos hne, if_pos hne,
    List.flatMap_cons, List.append_assoc]

theorem ne_hyphen_of_isUpper (hc : c.isUpper = true) : c ≠ '-' := by
  rintro rfl
  exact absurd hc (by decide)

theorem words_capital (hc : c.isUpper = true) : words (c :: t) = '-' :: c.toLower :: words t := by
  rw [words_cons (ne_hyphen_of_isUpper hc), hyphenated, if_pos hc]
  rfl

theorem words_small (hb : b ≠ '-') (hu : ¬b.isUpper = true) : words (b :: t) = b :: words t := by
  rw [words_cons hb, hyphenated, if_neg hu]
  rfl

theorem words_ne_nil : words (b :: t) ≠ [] := by
  by_cases hb : b = '-'
  · rw [hb, words_hyphen]
    exact List.cons_ne_nil _ _
  · rw [words_cons hb, hyphenated]
    split <;> exact List.cons_ne_nil _ _

theorem val_toLower (hc : c.isUpper = true) : c.toLower.val = c.val + ('a'.val - 'A'.val) := by
  have hrange : c.val ≥ 'A'.val ∧ c.val ≤ 'Z'.val := of_decide_eq_true hc
  exact congrArg Char.val (dif_pos hrange)

theorem toLower_inj (hb : b.isUpper = true) (hc : c.isUpper = true)
    (h : b.toLower = c.toLower) : b = c := by
  have hval := congrArg Char.val h
  rw [val_toLower hb, val_toLower hc] at hval
  exact Char.ext ((UInt32.add_left_inj _).1 hval)

theorem Respells.ne (h : Respells n m) : n ≠ m := by
  induction h with
  | here hc =>
    intro h
    exact ne_hyphen_of_isUpper hc (List.cons.inj h).1.symm
  | there _ _ ih => exact fun h => ih (List.cons.inj h).2

theorem Respells.hyphen_mem (h : Respells n m) : '-' ∈ n := by
  induction h with
  | here _ => exact List.mem_cons_self
  | there _ _ ih => exact List.mem_cons_of_mem _ ih

/-- what is respelled has a capital -/
theorem Respells.any_isUpper (h : Respells n m) : m.any Char.isUpper = true := by
  induction h with
  | here hc => rw [List.any_cons, hc, Bool.true_or]
  | there _ _ ih => rw [List.any_cons, ih, Bool.or_true]

/-- a respelled name begins with the hyphen that is written, or is respelled behind its first
character -/
theorem Respells.of_cons (h : Respells (b :: n) m) :
    (b = '-' ∧ ∃ c t, c.isUpper = true ∧ n = c.toLower :: words t ∧ m = c :: t) ∨
      b ≠ '-' ∧ ∃ m', m = b :: m' ∧ Respells n m' := by
  cases h with
  | here hc => exact .inl ⟨rfl, _, _, hc, rfl, rfl⟩
  | there hb h => exact .inr ⟨hb, _, rfl, h⟩

theorem Respells.words_eq (h : Respells n m) : words n = words m := by
  induction h with
  | here hc => rw [words_hyphen, words_capital hc]
  | there hb _ ih => rw [words_cons hb, words_cons hb, ih]

/-- a name that begins with a hyphen has the words of a name that begins with a capital -/
theorem respells_of_hyphen (hb : b ≠ '-') (h : words ('-' :: n) = words (b :: m)) :
    Respells ('-' :: n) (b :: m) := by
  rw [words_hyphen] at h
  by_cases hu : b.isUpper = true
  · rw [words_capital hu] at h
    rw [h]
    exact .here hu
  · rw [words_small hb hu] at h
    exact absurd (List.cons.inj h).1.symm hb

/-- two names that begin with other characters than hyphens begin with the same one -/
theorem eq_of_words_cons (hb : b ≠ '-') (hc : c ≠ '-') (h : words (b :: n) = words (c :: m)) :
    b = c ∧ words n = words m := by
  by_cases hu : b.isUpper = true
  · by_cases hv : c.isUpper = true
    · rw [words_capital hu, words_capital hv] at h
      obtain ⟨hlower, hrest⟩ := List.cons.inj (List.cons.inj h).2
      exact ⟨toLower_inj hu hv hlower, hrest⟩
    · rw [words_capital hu, words_small hc hv] at h
      exact absurd (List.cons.inj h).1.symm hc
  · by_cases hv : c.isUpper = true
    · rw [words_small hb hu, words_capital hv] at h
      exact absurd (List.cons.inj h).1 hb
    · rw [words_small hb hu, words_small hc hv] at h
      exact List.cons.inj h

/-- two names have the same words only if one writes out a capital of the other -/
theorem words_eq_iff : words n = words m ↔ n = m ∨ Respells n m ∨ Respells m n := by
  constructor
  · intro h
    induction n generalizing m with
    | nil =>
      cases m with
      | nil => exact .inl rfl
      | cons c m => exact absurd h.symm words_ne_nil
    | cons b n ih =>
      cases m with
      | nil => exact absurd h words_ne_nil
      | cons c m =>
        by_cases hb : b = '-'
        · subst hb
          by_cases hc : c = '-'
          · subst hc
            exact .inl h
          · exact .inr (.inl (respells_of_hyphen hc h))
        · by_cases hc : c = '-'
          · subst hc
            exact .inr (.inr (respells_of_hyphen hb h.symm))
          -- up to the capital that is written out, the names are the same
          · obtain ⟨rfl, hrest⟩ := eq_of_words_cons hb hc h
            rcases ih hrest with rfl | h | h
            · exact .inl rfl
            · exact .inr (.inl (.there hb h))
            · exact .inr (.inr (.there hb h))
  · rintro (rfl | h | h)
    · rfl
    · exact h.words_eq
    · exact h.words_eq.symm

theorem ofToken_eq_iff {n m : String} :
    ofToken n = ofToken m ↔
      n = m ∨ Respells n.toList m.toList ∨ Respells m.toList n.toList := by
  have hname : n = m ↔ n.toList = m.toList := String.toList_inj.symm
  rw [hname, ← words_eq_iff, ofToken, ofToken]
  constructor
  · intro h
    have h := congrArg String.toList h
    rw [String.toList_append, String.toList_append] at h
    simpa using List.append_cancel_left h
  · exact fun h => by rw [h]

/-- what is written in small letters after a hyphen may be written with a capital instead -/
theorem respells_surface {l : List Char} :
    Respells "bg-surface".toList l ↔ l = "bgSurface".toList := by
  have hhyphen : "bg-surface".toList =
      'b' :: 'g' :: '-' :: 'S'.toLower :: words "urface".toList := by
    decide
  have hcapital : "bgSurface".toList = 'b' :: 'g' :: 'S' :: "urface".toList := by decide
  rw [hhyphen, hcapital]
  constructor
  · intro h
    obtain ⟨hb, _⟩ | ⟨_, _, rfl, h₁⟩ := h.of_cons
    · exact absurd hb (by decide)
    obtain ⟨hg, _⟩ | ⟨_, _, rfl, h₂⟩ := h₁.of_cons
    · exact absurd hg (by decide)
    obtain ⟨_, c, t, hc, hrest, rfl⟩ | ⟨hne, _⟩ := h₂.of_cons
    · obtain ⟨hlower, ht⟩ := List.cons.inj hrest
      obtain rfl := toLower_inj (by decide) hc hlower
      -- no hyphen and no capital is left to be written in another way
      rcases words_eq_iff.1 ht with rfl | h | h
      · rfl
      · exact absurd h.hyphen_mem (by decide)
      · exact absurd h.any_isUpper (by decide)
    · exact absurd rfl hne
  · rintro rfl
    exact .there (by decide) (.there (by decide) (.here (by decide)))

/-- only these two names have the variable of the surface -/
theorem ofToken_eq_surface_iff {n : String} :
    ofToken n = surface ↔ n = "bg-surface" ∨ n = "bgSurface" := by
  have hsurface : surface = ofToken "bg-surface" := by decide
  have hplain : ¬Respells n.toList "bg-surface".toList := fun h =>
    absurd h.any_isUpper (by decide)
  rw [hsurface, ofToken_eq_iff, respells_surface, String.toList_inj, or_iff_right hplain]

/-! ## themes and steps -/

theorem ofTheme_injective : Function.Injective ofTheme := by
  intro x y h
  have h := congrArg String.toList h
  rw [ofTheme, ofTheme, String.toList_append, String.toList_append] at h
  exact String.toList_injective (List.append_cancel_left h)

theorem toList_ofStep (ramp step : String) :
    (ofStep ramp step).toList = ("--".toList ++ ramp.toList) ++ '-' :: step.toList := by
  rw [ofStep, String.toList_append, String.toList_append, String.toList_append, List.append_assoc]
  rfl

/-- a step without hyphens is what stands after the last hyphen -/
theorem ofStep_inj {ramp ramp' step step' : String} (hs : '-' ∉ step.toList)
    (hs' : '-' ∉ step'.toList) (h : ofStep ramp step = ofStep ramp' step') :
    ramp = ramp' ∧ step = step' := by
  have h := congrArg String.toList h
  rw [toList_ofStep, toList_ofStep] at h
  obtain ⟨hramp, hstep⟩ := Text.append_cons_inj_last hs hs' h
  exact ⟨String.toList_injective (List.append_cancel_left hramp), String.toList_injective hstep⟩

theorem isDigit_of_mem_index {i : Nat} (h : c ∈ (toString i).toList) : c.isDigit = true := by
  rw [Nat.toString_eq_repr, Nat.repr, String.toList_ofList] at h
  exact Nat.isDigit_of_mem_toDigits (by decide) (by decide) h

theorem hyphen_notMem_index (i : Nat) : '-' ∉ (toString i).toList := by
  intro h
  exact absurd (isDigit_of_mem_index h) (by decide)

theorem index_injective {i j : Nat} (h : toString i = toString j) : i = j := by
  have hread := congrArg (fun s => Nat.ofDigitChars 10 s.toList 0) h
  simpa [Nat.toString_eq_repr, Nat.repr, Nat.ofDigitChars_toDigits] using hread

/-- the surface is no step -/
theorem surface_ne_ofStep (ramp : String) (i : Nat) : surface ≠ ofStep ramp (toString i) := by
  have hsurface : surface = ofStep "bg" "surface" := rfl
  intro h
  rw [hsurface] at h
  obtain ⟨_, hstep⟩ := ofStep_inj (by decide) (hyphen_notMem_index i) h
  have hs : 's' ∈ (toString i).toList := hstep ▸ (by decide)
  exact absurd (isDigit_of_mem_index hs) (by decide)

/-! ## the variables of a root -/

/-- the variables that a root declares: those of the colors, that of the surface, if there is one,
those of the themes, and those of the steps of ramps, given the lengths of the ramps -/
def rootNames (names : List String) (surfaced : Bool) (themes : List String)
    (ramps : List (String × Nat)) : List String :=
  names.map ofToken ++ ((if surfaced then [surface] else []) ++ (themes.map ofTheme ++
    ramps.flatMap fun c => (List.range c.2).map fun i => ofStep c.1 (toString i)))

/-- Are the variables of a root told apart? No color respells another one. Where there is a surface,
no color and no theme is named like it. No color has the variable of a theme, and neither a color
nor a theme has that of a step. -/
structure Apart (names : List String) (surfaced : Bool) (themes : List String)
    (ramps : List (String × Nat)) : Prop where
  token : ∀ n ∈ names, ∀ m ∈ names, ¬Respells n.toList m.toList
  surface : surfaced = true → "bg-surface" ∉ names ∧ "bgSurface" ∉ names ∧ "surface" ∉ themes
  theme : ∀ n ∈ names, ∀ x ∈ themes, ofToken n ≠ ofTheme x
  step : ∀ n ∈ names, ∀ c ∈ ramps, ∀ i < c.2, ofToken n ≠ ofStep c.1 (toString i)
  base : ∀ x ∈ themes, ∀ c ∈ ramps, ∀ i < c.2, ofTheme x ≠ ofStep c.1 (toString i)

section
variable {names themes : List String} {surfaced : Bool} {ramps : List (String × Nat)}

theorem nodup_tokens_iff (hn : names.Nodup) :
    (names.map ofToken).Nodup ↔ ∀ n ∈ names, ∀ m ∈ names, ¬Respells n.toList m.toList := by
  constructor
  · intro h n hnm m hm hr
    have hsame : n = m := List.inj_on_of_nodup_map h hnm hm (ofToken_eq_iff.2 (.inr (.inl hr)))
    exact hr.ne (congrArg String.toList hsame)
  · intro h
    refine List.Nodup.map_on (fun n hnm m hm hsame => ?_) hn
    rcases ofToken_eq_iff.1 hsame with hsame | hr | hr
    · exact hsame
    · exact absurd hr (h n hnm m hm)
    · exact absurd hr (h m hm n hnm)

/-- no two steps have the same variable -/
theorem nodup_steps (hr : (ramps.map Prod.fst).Nodup) :
    (ramps.flatMap fun c => (List.range c.2).map fun i => ofStep c.1 (toString i)).Nodup := by
  rw [List.nodup_flatMap]
  constructor
  · intro c _
    refine List.nodup_range.map fun i j hij => ?_
    exact index_injective (ofStep_inj (hyphen_notMem_index i) (hyphen_notMem_index j) hij).2
  · refine (List.pairwise_map.1 hr).imp fun hne y hy hy' => ?_
    obtain ⟨i, _, rfl⟩ := List.mem_map.1 hy
    obtain ⟨j, _, hij⟩ := List.mem_map.1 hy'
    exact hne (ofStep_inj (hyphen_notMem_index j) (hyphen_notMem_index i) hij).1.symm

/-- the variables of a root are distinct exactly if they are told apart -/
theorem nodup_rootNames_iff (hn : names.Nodup) (ht : themes.Nodup)
    (hr : (ramps.map Prod.fst).Nodup) :
    (rootNames names surfaced themes ramps).Nodup ↔ Apart names surfaced themes ramps := by
  have mem_steps {y : String} : (y ∈ ramps.flatMap fun c =>
      (List.range c.2).map fun i => ofStep c.1 (toString i)) ↔
        ∃ c ∈ ramps, ∃ i < c.2, ofStep c.1 (toString i) = y := by
    simp only [List.mem_flatMap, List.mem_map, List.mem_range]
  have mem_surface {y : String} : (y ∈ if surfaced then [surface] else []) ↔
      surfaced = true ∧ y = surface := by
    cases surfaced <;> simp
  have hsurface : (if surfaced then [surface] else []).Nodup := by
    cases surfaced with
    | true => exact List.nodup_singleton _
    | false => exact List.nodup_nil
  simp only [rootNames, List.nodup_append, nodup_tokens_iff hn, ht.map ofTheme_injective,
    nodup_steps hr, hsurface, List.mem_append, List.mem_map, mem_surface, mem_steps, true_and]
  constructor
  · rintro ⟨htoken, ⟨hbase, hsurfaced⟩, hcross⟩
    have apart {n : String} (hm : n ∈ names) (hs : surfaced = true) : ofToken n ≠ surface :=
      hcross _ ⟨n, hm, rfl⟩ _ (.inl ⟨hs, rfl⟩)
    exact {
      token := htoken
      surface := fun hs =>
        ⟨fun hm => apart hm hs (ofToken_eq_surface_iff.2 (.inl rfl)),
          fun hm => apart hm hs (ofToken_eq_surface_iff.2 (.inr rfl)),
          fun hm => hsurfaced _ ⟨hs, rfl⟩ _ (.inl ⟨_, hm, rfl⟩) rfl⟩
      theme := fun n hm x hx => hcross _ ⟨n, hm, rfl⟩ _ (.inr (.inl ⟨x, hx, rfl⟩))
      step := fun n hm c hc i hi => hcross _ ⟨n, hm, rfl⟩ _ (.inr (.inr ⟨c, hc, i, hi, rfl⟩))
      base := fun x hx c hc i hi => hbase _ ⟨x, hx, rfl⟩ _ ⟨c, hc, i, hi, rfl⟩ }
  · intro h
    refine ⟨h.token, ⟨?_, ?_⟩, ?_⟩
    · rintro _ ⟨x, hx, rfl⟩ _ ⟨c, hc, i, hi, rfl⟩
      exact h.base x hx c hc i hi
    · rintro _ ⟨hs, rfl⟩ _ (⟨x, hx, rfl⟩ | ⟨c, _, i, _, rfl⟩)
      · intro hsame
        obtain rfl : "surface" = x := ofTheme_injective hsame
        exact (h.surface hs).2.2 hx
      · exact surface_ne_ofStep c.1 i
    · rintro _ ⟨n, hm, rfl⟩ _ (⟨hs, rfl⟩ | ⟨x, hx, rfl⟩ | ⟨c, hc, i, hi, rfl⟩)
      · intro hsame
        rcases ofToken_eq_surface_iff.1 hsame with rfl | rfl
        · exact (h.surface hs).1 hm
        · exact (h.surface hs).2.1 hm
      · exact h.theme n hm x hx
      · exact h.step n hm c hc i hi

end
end Property

/-! ## the root of a registry -/

namespace Registry

/-- is there a default theme, so that the root has a surface? -/
def hasDefault (r : Registry) : Option String → Bool
  | none => !r.themes.isEmpty
  | some y => r.themes.keys.contains (.text y)

def tokenNames (r : Registry) : List String := r.archive.names.map Showing.word

def themeNames (r : Registry) : List String := r.themes.keys.map Showing.word

/-- the ramps by their names, with the numbers of their steps -/
def rampSizes (r : Registry) : List (String × Nat) :=
  r.ramps.map fun c => (Showing.word c.1, c.2.length)

variable {r : Registry}

theorem isSome_default (r : Registry) (size : Atom) (theme : Option String) :
    (r.archive.themes.lookup (Showing.of r.archive size (theme.map .text)).defaultTheme).isSome =
      r.hasDefault theme := by
  have hkeys : r.archive.themes.keys = r.themes.keys := Archive.keys_mapped _ _
  rw [Entries.isSome_lookup, hkeys]
  cases theme with
  | some y => exact List.contains_eq_any_beq.symm
  | none =>
    show r.themes.keys.any (r.archive.themes.keys.head?.getD (.text "") == ·) = !r.themes.isEmpty
    rw [hkeys]
    cases r.themes with
    | nil => rfl
    | cons t ts =>
      show (t.1 == t.1 || _) = true
      rw [BEq.rfl, Bool.true_or]

theorem map_index_steps (name : String) (c : Ramp) :
    (c.stored.steps.map fun s => Property.ofStep name s.index.shown) =
      (List.range c.length).map fun i => Property.ofStep name (toString i) := by
  refine List.ext_getElem (by simp [Ramp.stored, Ramp.steps, Ramp.length]) fun i hi hi' => ?_
  simp only [Ramp.stored, Ramp.steps, List.getElem_map, List.getElem_mapIdx, List.getElem_range]
  rfl

/-- the variables that the root of a registry declares -/
theorem names_root (hn : ∀ n ∈ r.archive.names, n.isText = true) (size : Atom)
    (theme : Option String) :
    (Showing.of r.archive size (theme.map .text)).rootBlock.declarations.map Declaration.name =
      Property.rootNames r.tokenNames (r.hasDefault theme) r.themeNames r.rampSizes := by
  have htokens : (Showing.of r.archive size (theme.map .text)).names = r.tokenNames := by
    rw [Showing.names_of, tokenNames, ← List.filterMap_eq_map]
    refine List.filterMap_congr fun n hm => ?_
    obtain ⟨s, rfl⟩ := Atom.exists_of_isText (hn n hm)
    rfl
  have hsurface : ((r.archive.themes.lookup
      (Showing.of r.archive size (theme.map .text)).defaultTheme).map
        fun _ => Property.surface).toList =
      if r.hasDefault theme then [Property.surface] else [] := by
    rw [← isSome_default r size theme]
    cases r.archive.themes.lookup
      (Showing.of r.archive size (theme.map .text)).defaultTheme <;> rfl
  have hthemes : r.archive.themes.map (fun t => Property.ofTheme (Showing.word t.1)) =
      r.themeNames.map Property.ofTheme := by
    show (Archive.mapped Theme.stored r.themes).map _ = _
    rw [Archive.mapped, themeNames, Entries.keys, List.map_map, List.map_map, List.map_map]
    rfl
  have hsteps : (r.archive.ramps.flatMap fun c =>
        c.2.steps.map fun s => Property.ofStep (Showing.word c.1) s.index.shown) =
      r.rampSizes.flatMap fun c =>
        (List.range c.2).map fun i => Property.ofStep c.1 (toString i) := by
    show (Archive.mapped Ramp.stored r.ramps).flatMap _ = _
    rw [Archive.mapped, rampSizes, List.flatMap_map, List.flatMap_map]
    exact List.flatMap_congr fun c _ => map_index_steps (Showing.word c.1) c.2
  rw [Showing.names_rootBlock, Property.rootNames, htokens, ← hsurface, ← hthemes, ← hsteps]
  rfl

/-- names that are texts are told apart by what they show -/
theorem nodup_words {l : List Atom} (hl : l.Pairwise fun a b => (a == b) = false)
    (ht : ∀ a ∈ l, a.isText = true) : (l.map Showing.word).Nodup := by
  rw [List.Nodup, List.pairwise_map]
  refine hl.imp_of_mem fun ha hb hab hsame => ?_
  obtain ⟨s, rfl⟩ := Atom.exists_of_isText (ht _ ha)
  obtain ⟨s', rfl⟩ := Atom.exists_of_isText (ht _ hb)
  obtain rfl : s = s' := hsame
  rw [BEq.rfl] at hab
  cases hab

section
variable {p : Spec} {e : Engine} {time : String} (hu : p.Unambiguous) (hp : p.Coherent)
  (ht : p.Textual) (hb : p.build e time = .ok r)
include hu hp ht hb

theorem isText_names : ∀ n ∈ r.archive.names, n.isText = true := by
  intro n hn
  rw [names_archive hb hu hp] at hn
  obtain ⟨_, hn⟩ := Entries.mem_keys.1 hn
  obtain ⟨y, hy, hbeq, _⟩ := Entries.exists_of_mem_ofList hn
  obtain ⟨x, hx, rfl⟩ := List.mem_map.1 hy
  obtain ⟨t, htm, c, hc, _, _, y, ⟨_, _, _, rfl⟩, rfl⟩ := Spec.exists_belongs hu hp hx
  obtain ⟨s, hs⟩ := Atom.exists_of_isText
    (Spec.isText_of_mem_names (ht.semantic t htm) c.token hc.token)
  have hbeq : (c.token == n) = true := hbeq
  rw [hs] at hbeq
  rw [Atom.eq_of_text_beq hbeq]
  rfl

end
end Registry

namespace Spec

/-- The variable of a color is that of another one only if one name respells the other. The root of
the stylesheet of a registry declares the variables of the colors, of the surface, of the themes and
of the steps; they are distinct exactly if they are told apart. -/
theorem apart_of_build {d : Document} (hd : d.isKeyed = true) (ht : d.isTextual = true) {p : Spec}
    (hc : compile d = .ok p) {e : Engine} {generatedAt : String} {r : Registry}
    (hb : p.build e generatedAt = .ok r) (size : String) (theme : Option String) :
    (∀ n m : String, Property.ofToken n = Property.ofToken m ↔
      n = m ∨ Property.Respells n.toList m.toList ∨ Property.Respells m.toList n.toList) ∧
    ∃ blocks, Stylesheet.ofArchive r.archive (.text size) (theme.map .text) = .ok blocks ∧
      (∀ b ∈ blocks, b.selector = Selector.root → b.declarations.map Declaration.name =
        Property.rootNames r.tokenNames (r.hasDefault theme) r.themeNames r.rampSizes) ∧
      ((∀ b ∈ blocks, b.selector = Selector.root →
          (b.declarations.map Declaration.name).Nodup) ↔
        Property.Apart r.tokenNames (r.hasDefault theme) r.themeNames r.rampSizes) := by
  have hu := (names_of_compile hd hc).1
  have hp := coherent_of_compile hd hc
  have htext := textual_of_compile ht hc
  have hnames := Registry.isText_names hu hp htext hb
  have hblocks := Stylesheet.ofArchive_of_texts
    (Registry.textual_archive hb (isText_of_fallback hc)) hnames (.text size) (theme.map .text)
  have hroot := Registry.names_root hnames (.text size) theme
  have htokens : r.tokenNames.Nodup :=
    Registry.nodup_words (Entries.distinct_ofList _) hnames
  have ⟨hthemes, hramps⟩ : r.themeNames.Nodup ∧ (r.rampSizes.map Prod.fst).Nodup := by
    obtain ⟨_, failures, _, _, rfl⟩ := build_ok.1 hb
    refine ⟨Registry.nodup_words hp.distinct_themes htext.themes, ?_⟩
    have h := Registry.nodup_words hp.distinct_ramps (isText_of_ramps ht hc)
    rw [Entries.keys, List.map_map] at h
    rwa [Registry.rampSizes, List.map_map]
  refine ⟨fun n m => Property.ofToken_eq_iff, _, hblocks, ?_, ?_⟩
  · exact (Stylesheet.forall_root hblocks).2 hroot
  · rw [Stylesheet.forall_root hblocks, hroot,
      Property.nodup_rootNames_iff htokens hthemes hramps]

/-- one color, two themes and a ramp of three steps, whose variables are told apart -/
theorem apart_of_build_lined :
    (Sample.single "line").isKeyed = true ∧ (Sample.single "line").isTextual = true ∧
      compile (Sample.single "line") = .ok Sample.lined ∧
      Sample.lined.build Wcag.engine "now" = .ok Sample.linedRegistry ∧
      Property.Apart ["line"] true ["day", "night"] [("gray", 3)] ∧
      ∃ blocks, Stylesheet.ofArchive Sample.linedRegistry.archive (.text "16px")
          (some (.text "night")) = .ok blocks ∧
        ∀ b ∈ blocks, b.selector = Selector.root → b.declarations.map Declaration.name =
          ["--line", "--bg-surface", "--bg-day", "--bg-night", "--gray-0", "--gray-1",
            "--gray-2"] := by
  have ht : (Sample.single "line").isTextual = true := by decide
  obtain ⟨_, blocks, hblocks, hroot, hiff⟩ := apart_of_build Sample.isKeyed_lined ht
    Sample.compile_lined Sample.build_lined "16px" (some "night")
  have htokens : Sample.linedRegistry.tokenNames = ["line"] := by
    rw [Registry.tokenNames, Sample.names_lined]
    rfl
  have hdefault : Sample.linedRegistry.hasDefault (some "night") = true := by decide
  have hthemes : Sample.linedRegistry.themeNames = ["day", "night"] := by decide
  have hramps : Sample.linedRegistry.rampSizes = [("gray", 3)] := by decide
  rw [htokens, hdefault, hthemes, hramps] at hroot hiff
  have hnames : Property.rootNames ["line"] true ["day", "night"] [("gray", 3)] =
      ["--line", "--bg-surface", "--bg-day", "--bg-night", "--gray-0", "--gray-1",
        "--gray-2"] := by
    decide
  rw [hnames] at hroot
  have hnodup : ∀ b ∈ blocks, b.selector = Selector.root →
      (b.declarations.map Declaration.name).Nodup := by
    intro b hb hs
    rw [hroot b hb hs]
    decide
  exact ⟨Sample.isKeyed_lined, ht, Sample.compile_lined, Sample.build_lined, hiff.1 hnodup,
    blocks, hblocks, hroot⟩

end Spec

namespace Sample

/-- two colors whose names are written in two ways -/
def twice : Document := .record [
  ("primitives", .record [
    ("gray", .list [.text "#000000", .text "#777777", .text "#ffffff"])]),
  ("themes", .record [("day", .record [("ramp", .text "gray"), ("step", .int 2)])]),
  ("nonText", .record [
    ("fgPrimary", .record [("ramp", .text "gray"), ("defaultStep", .int 0),
      ("decorative", .bool true)]),
    ("fg-primary", .record [("ramp", .text "gray"), ("defaultStep", .int 1),
      ("decorative", .bool true)])]),
  ("config", .record [("stacks", .record [("root", .int 0)]),
    ("cvd", .record [("enabled", .bool false)])])]

def twiceSpec : Spec := (Spec.compile twice).toOption.get (by decide)

theorem compile_twice : Spec.compile twice = .ok twiceSpec := Outcome.eq_ok_get _

def twiceRegistry : Registry := (twiceSpec.build Wcag.engine "now").toOption.get (by decide)

theorem build_twice : twiceSpec.build Wcag.engine "now" = .ok twiceRegistry := Outcome.eq_ok_get _

theorem isKeyed_twice : twice.isKeyed = true := by decide

theorem names_twice : twiceRegistry.archive.names = [.text "fgPrimary", .text "fg-primary"] := by
  rw [Spec.names_of_build isKeyed_twice compile_twice build_twice]
  rfl

end Sample

/-- both colors have the same variable, and the root declares it two times -/
theorem Spec.not_apart_twice :
    Sample.twice.isKeyed = true ∧ Sample.twice.isTextual = true ∧
      compile Sample.twice = .ok Sample.twiceSpec ∧
      Sample.twiceSpec.build Wcag.engine "now" = .ok Sample.twiceRegistry ∧
      (∃ n ∈ Sample.twiceRegistry.archive.names, ∃ m ∈ Sample.twiceRegistry.archive.names,
        n ≠ m ∧ Property.ofToken (Showing.word n) = Property.ofToken (Showing.word m)) ∧
      ∃ blocks, Stylesheet.ofArchive Sample.twiceRegistry.archive (.text "16px") none =
          .ok blocks ∧
        ¬∀ b ∈ blocks, b.selector = Selector.root →
          (b.declarations.map Declaration.name).Nodup := by
  have hblocks := Stylesheet.ofArchive_of_texts
    (Registry.textual_archive Sample.build_twice (isText_of_fallback Sample.compile_twice))
    (by rw [Sample.names_twice]; decide) (.text "16px") none
  refine ⟨Sample.isKeyed_twice, by decide, Sample.compile_twice, Sample.build_twice,
    ⟨.text "fgPrimary", ?_, .text "fg-primary", ?_, ?_, by decide⟩, _, hblocks, ?_⟩
  · rw [Sample.names_twice]
    exact List.mem_cons_self
  · rw [Sample.names_twice]
    exact List.mem_cons_of_mem _ List.mem_cons_self
  · exact fun h => absurd (Atom.text.inj h) (by decide)
  · rw [Stylesheet.forall_root hblocks, Showing.names_rootBlock, Showing.names_of,
      Sample.names_twice]
    decide +kernel

end Palette
