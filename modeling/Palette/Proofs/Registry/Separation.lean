import Palette.Proofs.Number.Arithmetic
import Palette.Proofs.Registry.Compliance
import Palette.Proofs.Registry.Moved
import Palette.Proofs.Registry.Space
import Palette.Proofs.Spec.Textual

/-!
# How near a correction brings two colors

A replacement is scored against the looks that the other colors have without correction. From these
it is at least as far as the nearest one was from the color that it replaces. So a color that is
moved does not come nearer to one that is not than two colors of their context were. Two colors that
are both moved may come to look the same.

* `Gauge.exists_separation`, `Gauge.separation_le`   a separation is the least distance;
* `Gauge.Prudent`             a measure by which what is nearer is not better by the margin;
* `Gauge.separation_le_of_replacement?`   such a measure keeps separations;
* `Spec.exists_moved`         the search that has moved a color;
* `Spec.separated_of_compile` a color that is moved and one that is not keep apart.
-/

set_option linter.unusedSectionVars false

namespace Palette

/-! ## separations -/

namespace Gauge
variable {α κ : Type} [LT κ] [DecidableLT κ] [LE κ]

theorem least_mem (first : κ) (rest : List κ) : least first rest ∈ first :: rest := by
  induction rest generalizing first with
  | nil => exact List.mem_cons_self
  | cons x rest ih =>
    show least (if x < first then x else first) rest ∈ _
    split
    · exact List.mem_cons_of_mem _ (ih x)
    · rcases List.mem_cons.1 (ih first) with h | h
      · rw [h]
        exact List.mem_cons_self
      · exact List.mem_cons_of_mem _ (List.mem_cons_of_mem _ h)

variable [StrictScale κ]

theorem least_le {first : κ} {rest : List κ} (h : ∀ x ∈ first :: rest, x ≤ x) :
    ∀ x ∈ first :: rest, least first rest ≤ x := by
  induction rest generalizing first with
  | nil =>
    intro x hx
    obtain rfl := List.mem_singleton.1 hx
    exact h x hx
  | cons y rest ih =>
    obtain ⟨hfirst, hrest⟩ := List.forall_mem_cons.1 h
    obtain ⟨hy, hrest⟩ := List.forall_mem_cons.1 hrest
    -- the better of the first two is at most both
    have hstep : ∀ x ∈ [first, y], (if y < first then y else first) ≤ x := by
      rw [List.forall_mem_cons, List.forall_mem_singleton]
      split
      · next hlt => exact ⟨StrictScale.le_of_lt hlt, hy⟩
      · next hlt => exact ⟨hfirst, StrictScale.le_of_not_lt hy hfirst hlt⟩
    have hself : (if y < first then y else first) ≤ if y < first then y else first := by
      split
      · exact hy
      · exact hfirst
    obtain ⟨hf, hy'⟩ := List.forall_mem_cons.1 hstep
    have hle := ih (List.forall_mem_cons.2 ⟨hself, hrest⟩)
    show ∀ x ∈ first :: y :: rest, least (if y < first then y else first) rest ≤ x
    obtain ⟨hhead, htail⟩ := List.forall_mem_cons.1 hle
    refine List.forall_mem_cons.2 ⟨Scale.trans hhead hf, List.forall_mem_cons.2 ⟨?_, htail⟩⟩
    exact Scale.trans hhead (List.forall_mem_singleton.1 hy')

variable [DecidableLE κ] {g : Gauge α κ} {others : List α}

theorem exists_separation (ho : others ≠ []) (look : α) :
    ∃ o ∈ others, g.separation others look = g.distance look o := by
  cases others with
  | nil => exact absurd rfl ho
  | cons o os =>
    have hmem := least_mem (g.distance look o) (os.map (g.distance look))
    rw [← List.map_cons] at hmem
    obtain ⟨x, hx, heq⟩ := List.mem_map.1 hmem
    exact ⟨x, hx, heq.symm⟩

theorem separation_le (hd : ∀ a b, g.distance a b ≤ g.distance a b) (look : α) {o : α}
    (ho : o ∈ others) : g.separation others look ≤ g.distance look o := by
  cases others with
  | nil => exact absurd ho List.not_mem_nil
  | cons a os =>
    have h : ∀ x ∈ (a :: os).map (g.distance look), x ≤ x := by
      intro x hx
      obtain ⟨b, _, rfl⟩ := List.mem_map.1 hx
      exact hd look b
    exact least_le h _ (List.mem_map_of_mem ho)

variable [Sub κ] [Mul κ]

/-- what is nearer to the other colors is not better by the margin, however little it drifts -/
def Prudent (g : Gauge α κ) (zero : κ) : Prop :=
  ∀ near far drift, zero ≤ near → near < far → zero ≤ drift →
    g.separationWeight * near - g.driftWeight * drift - g.separationWeight * far < g.margin

/-- a replacement keeps the distance from the other colors -/
theorem separation_le_of_replacement? [DecidableEq α] {zero : κ} (hg : g.Prudent zero)
    (hd : ∀ a b, zero ≤ g.distance a b) (ho : others ≠ []) {candidates : List α} {color b : α}
    (h : g.replacement? candidates color others = some b) :
    g.separation others (g.look color) ≤ g.separation others (g.look b) := by
  obtain ⟨_, _, hmargin⟩ := of_replacement? h
  have hzero (look : α) : zero ≤ g.separation others look := by
    obtain ⟨o, _, heq⟩ := exists_separation (g := g) ho look
    rw [heq]
    exact hd look o
  refine StrictScale.le_of_not_lt (hzero _) (hzero _) fun hlt => hmargin ?_
  exact hg _ _ _ (hzero _) hlt (hd _ _)

end Gauge

/-! ## colors of a site -/

/-- the color of a name at a site under a vision, among some variants -/
def colorAt (l : Entries VariantKey Variant) (s : Site) (vision n : Atom) : Option Hex :=
  (l.lookup (VariantKey.atSite n vision s)).map (·.hex)

/-- the color under a deficiency: its own there, or else the one without deficiency -/
def shownAt (l : Entries VariantKey Variant) (s : Site) (m : Deficiency) (n : Atom) : Option Hex :=
  (colorAt l s (.text m.name) n).or (colorAt l s VariantKey.plainVision n)

namespace Spec
variable {p : Spec} {e : Engine}

theorem prudent_gaugeBy (look : Deficiency → Hex → Hex) (distance : Hex → Hex → Float)
    (m : Deficiency) : (p.gaugeBy look distance m).Prudent 0.0 := by
  have hseparation : (0.0 : Float) < 0.7 ∧ (0.7 : Float) ≤ 1.0 := by decide
  have hdrift : (0.0 : Float) < 0.3 ∧ (0.3 : Float) ≤ 1.0 := by decide
  have hmargin : (0.0 : Float) < 0.5 := by decide
  intro near far drift
  exact Floating.score_lt hseparation.1 hseparation.2 hdrift.1 hdrift.2 hmargin

/-- colors look and differ in a build as they do -/
theorem entries_eq : p.entries e = p.entriesBy e Hex.simulate Hex.distance := rfl

section
variable {κ : Type} [LT κ] [DecidableLT κ] [LE κ] [DecidableLE κ] [Sub κ] [Mul κ]
variable {gauge : Deficiency → Gauge Hex κ} (hu : p.Unambiguous) (hp : p.Coherent)
include hu hp

variable (e) (gauge) in
/-- a color has a variant without deficiency at each site, before corrections and after them -/
theorem exists_plain {t : Atom × Semantic} (ht : t ∈ p.semantics) {s : Site} (hs : s ∈ p.sites) :
    ∃ h, (p.requestIn e gauge (Record.variants (p.records e))).color?
        (VariantKey.atSite t.1 VariantKey.plainVision s) = some h ∧
      colorAt (p.entriesIn e gauge) s VariantKey.plainVision t.1 = some h := by
  have hr : t.2.basePass.recordAt p e s ∈ p.records e :=
    mem_records_of_pass ht List.mem_cons_self hs
  have hl := Entries.lookup_of_mem (distinct_written hu hp) (List.mem_map_of_mem hr)
  rw [← hu.named t ht]
  refine ⟨t.2.ramp.color (t.2.basePass.stepAt p e s).index, ?_, ?_⟩
  · rw [requestIn_records hu hp]
    exact congrArg (Option.map _) hl
  · rw [colorAt, entriesIn, List.lookup_append]
    exact congrArg (fun v => (Option.or v _).map _) hl

/-- where no color has an entry for a deficiency, no record is under it -/
theorem lookup_written_eq_none {m : Deficiency}
    (hm : ∀ t ∈ p.semantics, ∀ w, (.text m.name, w) ∉ t.2.vision) (n : Atom) (s : Site) :
    (p.written e).lookup (VariantKey.atSite n (.text m.name) s) = none := by
  refine Entries.lookup_eq_none fun k hk => ?_
  rw [keys_written hp] at hk
  obtain ⟨⟨c, s'⟩, hcs, rfl⟩ := List.mem_map.1 hk
  have hv : (Atom.text m.name == c.vision) = false := by
    by_cases hplain : c.vision = VariantKey.plainVision
    · rw [hplain]
      exact BEq.symm_false (Semantic.plain_beq_name m)
    · obtain ⟨t, ht, v, hv, rfl⟩ := exists_of_mem_tracks (List.mem_product.1 hcs).1 hplain
      show (Atom.text m.name == .text v.1.name) = false
      rw [Atom.text_beq]
      refine beq_false_of_ne fun h => hm t ht v.2 ?_
      rw [h]
      exact Semantic.mem_ownVision.1 hv
  rw [Track.key, VariantKey.atSite_beq, hv, Bool.and_false, Bool.false_and]

/-- a color that is moved is at its site, and it is moved to what the search finds there -/
theorem exists_moved {m : Deficiency}
    (hm : ∀ t ∈ p.semantics, ∀ w, (.text m.name, w) ∉ t.2.vision) {n : Atom} {s : Site}
    (hs : s ∈ p.sites) {h : Hex}
    (hmoved : colorAt (p.entriesIn e gauge) s (.text m.name) n = some h) :
    let q := p.requestIn e gauge (Record.variants (p.records e))
    let scene := Correction.scene q.color? p.semantics.keys s
    ∃ c ∈ scene, (n == c.1) = true ∧ ∃ candidates,
      (gauge m).replacement? candidates c.2
        ((scene.filter fun o => o.1.differs c.1).map fun o => (gauge m).look o.2) = some h := by
  intro q scene
  rw [colorAt, entriesIn, List.lookup_append, lookup_written_eq_none hu hp hm,
    Option.none_or] at hmoved
  obtain ⟨v, hv, rfl⟩ := Option.map_eq_some_iff.1 hmoved
  obtain ⟨k, hk, hkey⟩ := Entries.exists_of_lookup hv
  rw [correctionsIn] at hk
  split at hk
  · obtain ⟨m', s', hs', c, hc, hmove⟩ := Correction.mem_all.1 hk
    obtain ⟨t, best, step, _, hbest, _, hx⟩ := Correction.exists_replacement_of_move? hmove
    obtain ⟨rfl, rfl⟩ := Prod.mk.inj hx
    rw [VariantKey.atSite_beq, Bool.and_eq_true, Bool.and_eq_true, Atom.text_beq] at hkey
    obtain ⟨⟨hn, hmm⟩, hss⟩ := hkey
    obtain rfl : m = m' := Deficiency.name_injective (eq_of_beq hmm)
    obtain rfl : s = s' := Rules.eq_of_setting_beq hp.pairwise_sites hs hs' hss
    exact ⟨c, Correction.mem_scene_of_mem_moves hc, hn, _, hbest⟩
  · cases hk

end

/-- the names of colors are texts, which equal no others -/
theorem Textual.eq_of_beq (ht : p.Textual) (hu : p.Unambiguous) {t : Atom × Semantic}
    (hm : t ∈ p.semantics) {n : Atom} (h : (t.1 == n) = true) : n = t.1 := by
  obtain ⟨x, hx⟩ := Atom.exists_of_isText (hu.named t hm ▸ (ht.semantic t hm).name)
  rw [hx] at h ⊢
  exact Atom.eq_of_text_beq h

theorem Textual.differs (ht : p.Textual) (hu : p.Unambiguous) {t : Atom × Semantic}
    (hm : t ∈ p.semantics) (n : Atom) : t.1.differs n = !(t.1 == n) := by
  obtain ⟨x, hx⟩ := Atom.exists_of_isText (hu.named t hm ▸ (ht.semantic t hm).name)
  rw [hx]
  rfl

section
variable (hu : p.Unambiguous) (hp : p.Coherent) (ht : p.Textual)
  {look : Deficiency → Hex → Hex} {distance : Hex → Hex → Float}
  (hd : ∀ a b, 0.0 ≤ distance a b) {m : Deficiency}
  (hm : ∀ t ∈ p.semantics, ∀ w, (.text m.name, w) ∉ t.2.vision) {s : Site} (hs : s ∈ p.sites)
include hu hp ht hd hm hs

/-- A color that is moved gets no nearer to another one, without deficiency, than one of the others
was to it. -/
theorem exists_nearer {a b : Atom × Semantic} (ha : a ∈ p.semantics) (hb : b ∈ p.semantics)
    (hab : (a.1 == b.1) = false) {h k : Hex}
    (hh : colorAt (p.entriesIn e (p.gaugeBy look distance)) s (.text m.name) a.1 = some h)
    (hk : colorAt (p.entriesIn e (p.gaugeBy look distance)) s VariantKey.plainVision b.1 = some k) :
    ∃ c ∈ p.semantics, (a.1 == c.1) = false ∧ ∃ h' k',
      colorAt (p.entriesIn e (p.gaugeBy look distance)) s VariantKey.plainVision a.1 = some h' ∧
      colorAt (p.entriesIn e (p.gaugeBy look distance)) s VariantKey.plainVision c.1 = some k' ∧
      distance (look m h') (look m k') ≤ distance (look m h) (look m k) := by
  have hplain {t : Atom × Semantic} (hmem : t ∈ p.semantics) :=
    exists_plain e (p.gaugeBy look distance) hu hp hmem hs
  obtain ⟨⟨n, present⟩, hscene, hn, candidates, hbest⟩ := exists_moved hu hp hm hs hh
  obtain rfl := ht.eq_of_beq hu ha hn
  obtain ⟨h', hcolor, hh'⟩ := hplain ha
  obtain rfl := Option.some.inj (hcolor.symm.trans (Correction.mem_scene.1 hscene).2)
  obtain ⟨k', hcolor', hk'⟩ := hplain hb
  obtain rfl := Option.some.inj (hk'.symm.trans hk)
  revert hbest
  generalize hothers : List.map _ _ = others
  intro hbest
  have hmem : look m k' ∈ others := by
    rw [← hothers]
    refine List.mem_map_of_mem (a := (b.1, k')) (List.mem_filter.2 ⟨?_, ?_⟩)
    · exact Correction.mem_scene.2 ⟨Entries.mem_keys_of_mem hb, hcolor'⟩
    · rw [ht.differs hu hb, BEq.symm_false hab]
      rfl
  have hne := List.ne_nil_of_mem hmem
  have hsep : (p.gaugeBy look distance m).separation others (look m h') ≤
      (p.gaugeBy look distance m).separation others (look m h) :=
    Gauge.separation_le_of_replacement? (prudent_gaugeBy look distance m) hd hne hbest
  -- the nearest of the others before
  obtain ⟨o, ho, hold⟩ :=
    Gauge.exists_separation (g := p.gaugeBy look distance m) hne (look m h')
  rw [← hothers] at ho
  obtain ⟨⟨n, k''⟩, hfilter, rfl⟩ := List.mem_map.1 ho
  obtain ⟨hscene', hdiffers⟩ := List.mem_filter.1 hfilter
  obtain ⟨hn', hcolor''⟩ := Correction.mem_scene.1 hscene'
  obtain ⟨t, htn⟩ := Entries.mem_keys.1 hn'
  obtain ⟨k₀, hk₀, hplain₀⟩ := hplain htn
  obtain rfl := Option.some.inj (hk₀.symm.trans hcolor'')
  rw [ht.differs hu htn, Bool.not_eq_true'] at hdiffers
  refine ⟨_, htn, BEq.symm_false hdiffers, h', k₀, hh', hplain₀, ?_⟩
  rw [hold] at hsep
  exact Scale.trans hsep (Gauge.separation_le (fun a b => Scale.refl (hd a b)) _ hmem)

end

/-- Among some variants, do two colors that a site shows under a deficiency look as far apart as
some two colors of the site do without deficiency, or farther? -/
def KeptApart (p : Spec) (l : Entries VariantKey Variant) (gap : Hex → Hex → Float) (s : Site)
    (m : Deficiency) (a b : Atom) : Prop :=
  ∃ h k, shownAt l s m a = some h ∧ shownAt l s m b = some k ∧
    ∃ a' ∈ p.semantics, ∃ b' ∈ p.semantics, (a'.1 == b'.1) = false ∧ ∃ h' k',
      colorAt l s VariantKey.plainVision a'.1 = some h' ∧
      colorAt l s VariantKey.plainVision b'.1 = some k' ∧ gap h' k' ≤ gap h k

theorem KeptApart.symm {l : Entries VariantKey Variant} {gap : Hex → Hex → Float}
    (hsymm : ∀ h k, gap h k = gap k h) {s : Site} {m : Deficiency} {a b : Atom}
    (h : p.KeptApart l gap s m a b) : p.KeptApart l gap s m b a := by
  obtain ⟨h, k, hh, hk, a', ha', b', hb', hab, h', k', hh', hk', hle⟩ := h
  refine ⟨k, h, hk, hh, a', ha', b', hb', hab, h', k', hh', hk', ?_⟩
  rw [hsymm k h]
  exact hle

section
variable (hu : p.Unambiguous) (hp : p.Coherent) (ht : p.Textual)
  {look : Deficiency → Hex → Hex} {distance : Hex → Hex → Float}
  (hd : ∀ a b, 0.0 ≤ distance a b) {m : Deficiency}
  (hm : ∀ t ∈ p.semantics, ∀ w, (.text m.name, w) ∉ t.2.vision) {s : Site} (hs : s ∈ p.sites)
include hu hp ht hd hm hs

/-- a color that is not moved is kept apart from each other one -/
theorem keptApart_of_fixed {a b : Atom × Semantic} (ha : a ∈ p.semantics) (hb : b ∈ p.semantics)
    (hab : (a.1 == b.1) = false)
    (hfixed : colorAt (p.entriesIn e (p.gaugeBy look distance)) s (.text m.name) b.1 = none) :
    p.KeptApart (p.entriesIn e (p.gaugeBy look distance))
      (fun h k => distance (look m h) (look m k)) s m a.1 b.1 := by
  obtain ⟨k, _, hk⟩ := exists_plain e (p.gaugeBy look distance) hu hp hb hs
  have hshown : shownAt (p.entriesIn e (p.gaugeBy look distance)) s m b.1 = some k := by
    rw [shownAt, hfixed, hk]
    rfl
  cases hmoved : colorAt (p.entriesIn e (p.gaugeBy look distance)) s (.text m.name) a.1 with
  | some h =>
    obtain ⟨c, hc, hac, h', k', hh', hk', hle⟩ :=
      exists_nearer hu hp ht hd hm hs ha hb hab hmoved hk
    refine ⟨h, k, ?_, hshown, a, ha, c, hc, hac, h', k', hh', hk', hle⟩
    rw [shownAt, hmoved]
    rfl
  | none =>
    obtain ⟨h, _, hh⟩ := exists_plain e (p.gaugeBy look distance) hu hp ha hs
    refine ⟨h, k, ?_, hshown, a, ha, b, hb, hab, h, k, hh, hk, ?_⟩
    · rw [shownAt, hmoved, hh]
      rfl
    · exact Scale.refl (hd _ _)

end

/-- Take any looks, and distances that are symmetric and not below zero. Under a deficiency for
which no color has an entry, two colors of a site of which at most one is moved look as far apart as
some two colors of the site do without deficiency, or farther. -/
theorem separated_of_compile {d : Document} (hd : d.isKeyed = true) (ht : d.isTextual = true)
    (hc : compile d = .ok p) (e : Engine) (look : Deficiency → Hex → Hex)
    {distance : Hex → Hex → Float} (hsymm : ∀ a b, distance a b = distance b a)
    (hzero : ∀ a b, 0.0 ≤ distance a b) :
    (∀ {generatedAt r}, p.build e generatedAt = .ok r →
      r.variants.toList = p.entriesBy e Hex.simulate Hex.distance) ∧
    ∀ m : Deficiency, (∀ t ∈ p.semantics, ∀ w, (.text m.name, w) ∉ t.2.vision) →
      ∀ s ∈ p.sites, ∀ a ∈ p.semantics, ∀ b ∈ p.semantics, (a.1 == b.1) = false →
        (colorAt (p.entriesBy e look distance) s (.text m.name) a.1 = none ∨
          colorAt (p.entriesBy e look distance) s (.text m.name) b.1 = none) →
            p.KeptApart (p.entriesBy e look distance) (fun h k => distance (look m h) (look m k))
              s m a.1 b.1 := by
  have hu := (names_of_compile hd hc).1
  have hp := coherent_of_compile hd hc
  have htext := textual_of_compile ht hc
  refine ⟨fun hb => (toList_variants_of_build hu hp hb).trans entries_eq,
    fun m hm s hs a ha b hb hab hfixed => ?_⟩
  rcases hfixed with hfixed | hfixed
  · refine KeptApart.symm (fun h k => hsymm _ _) ?_
    exact keptApart_of_fixed hu hp htext hzero hm hs hb ha (BEq.symm_false hab) hfixed
  · exact keptApart_of_fixed hu hp htext hzero hm hs ha hb hab hfixed

end Spec

/-! ## two colors that move to one -/

namespace Crowded

theorem isTextual_document : document.isTextual = true := by decide

theorem distance_symm (a b : Hex) : distance a b = distance b a := by
  simp only [distance, eq_comm]

theorem distance_nonneg (a b : Hex) : 0.0 ≤ distance a b := by
  rw [distance]
  split
  · decide
  · split
    · decide
    · decide

/-- the variants -/
def entries : Entries VariantKey Variant :=
  spec.written Wcag.engine ++
    Correction.all (spec.requestOfRecords Wcag.engine (spec.gaugeBy look distance)) spec.sites

theorem entriesBy_eq : spec.entriesBy Wcag.engine look distance = entries := by
  rw [Spec.entriesBy, Spec.entriesIn, Spec.correctionsIn, if_pos enabled,
    Spec.requestIn_records unambiguous coherent]
  rfl

/-- how far apart two colors look -/
def gap (h k : Hex) : Float := distance (look .deuteranopia h) (look .deuteranopia k)

theorem vision_eq_nil : (spec.semantics.all fun t => t.2.vision.isEmpty) = true := by
  decide

theorem not_mem_vision (m : Deficiency) :
    ∀ t ∈ spec.semantics, ∀ w, (.text m.name, w) ∉ t.2.vision := by
  intro t ht w
  rw [List.isEmpty_iff.1 (List.all_eq_true.1 vision_eq_nil t ht)]
  exact List.not_mem_nil

theorem exists_color {n : String} (h : (spec.semantics.any fun t => t.1.text? == some n) = true) :
    ∃ t, (.text n, t) ∈ spec.semantics := by
  obtain ⟨⟨k, t⟩, ht, hk⟩ := List.any_eq_true.1 h
  cases k with
  | text s =>
    obtain rfl := Option.some.inj (eq_of_beq hk)
    exact ⟨t, ht⟩
  | _ => cases hk

/-- two colors are white -/
theorem shown : shownAt entries site .deuteranopia (.text "stop") = some ⟨255, 255, 255⟩ ∧
    shownAt entries site .deuteranopia (.text "go") = some ⟨255, 255, 255⟩ := by decide

/-- and no two colors were one before -/
theorem apart : (spec.semantics.all fun a => spec.semantics.all fun b => a.1 == b.1 ||
    match colorAt entries site VariantKey.plainVision a.1,
      colorAt entries site VariantKey.plainVision b.1 with
    | some h, some k => !decide (gap h k ≤ gap ⟨255, 255, 255⟩ ⟨255, 255, 255⟩)
    | _, _ => false) = true := by decide

theorem not_keptApart :
    ¬spec.KeptApart entries gap site .deuteranopia (.text "stop") (.text "go") := by
  rintro ⟨h, k, hh, hk, a, ha, b, hb, hab, h', k', hh', hk', hle⟩
  obtain rfl := Option.some.inj (shown.1.symm.trans hh)
  obtain rfl := Option.some.inj (shown.2.symm.trans hk)
  have hapart := List.all_eq_true.1 (List.all_eq_true.1 apart a ha) b hb
  rw [hab, hh', hk', Bool.false_or, Bool.not_eq_true', decide_eq_false_iff_not] at hapart
  exact hapart hle

end Crowded

/-- the color that is not moved is kept apart from one that is -/
theorem Spec.separated_of_compile_crowded :
    Crowded.spec.KeptApart Crowded.entries Crowded.gap Crowded.site .deuteranopia (.text "stop")
      (.text "wait") := by
  obtain ⟨a, ha⟩ := Crowded.exists_color (n := "stop") (by decide)
  obtain ⟨b, hb⟩ := Crowded.exists_color (n := "wait") (by decide)
  have hne : (Atom.text "stop" == .text "wait") = false := by decide
  have hfixed : colorAt Crowded.entries Crowded.site (.text Deficiency.deuteranopia.name)
      (.text "wait") = none := by decide +kernel
  obtain ⟨_, hkept⟩ := separated_of_compile Crowded.isKeyed_document Crowded.isTextual_document
    Crowded.compile_document Wcag.engine Crowded.look Crowded.distance_symm Crowded.distance_nonneg
  have h := hkept .deuteranopia (Crowded.not_mem_vision _) Crowded.site Crowded.site_mem _ ha _ hb
    hne
  rw [Crowded.entriesBy_eq] at h
  exact h (.inr hfixed)

/-- the two that are moved are not -/
theorem Spec.not_separated_crowded :
    Crowded.document.isKeyed = true ∧ Crowded.document.isTextual = true ∧
      compile Crowded.document = .ok Crowded.spec ∧
      Crowded.spec.config.correction.enabled.truthy = true ∧
      (∀ a b, Crowded.distance a b = Crowded.distance b a) ∧
      (∀ a b, 0.0 ≤ Crowded.distance a b) ∧
      ¬∀ m : Deficiency, (∀ t ∈ Crowded.spec.semantics, ∀ w, (.text m.name, w) ∉ t.2.vision) →
        ∀ s ∈ Crowded.spec.sites, ∀ a ∈ Crowded.spec.semantics, ∀ b ∈ Crowded.spec.semantics,
          (a.1 == b.1) = false →
            Crowded.spec.KeptApart
              (Crowded.spec.entriesBy Wcag.engine Crowded.look Crowded.distance)
              (fun h k => Crowded.distance (Crowded.look m h) (Crowded.look m k)) s m a.1 b.1 := by
  refine ⟨Crowded.isKeyed_document, Crowded.isTextual_document, Crowded.compile_document,
    Crowded.enabled, Crowded.distance_symm, Crowded.distance_nonneg, fun h => ?_⟩
  obtain ⟨a, ha⟩ := Crowded.exists_color (n := "stop") (by decide)
  obtain ⟨b, hb⟩ := Crowded.exists_color (n := "go") (by decide)
  have hne : (Atom.text "stop" == .text "go") = false := by decide
  have hkept := h .deuteranopia (Crowded.not_mem_vision _) Crowded.site Crowded.site_mem _ ha _ hb
    hne
  rw [Crowded.entriesBy_eq] at hkept
  exact Crowded.not_keptApart hkept

end Palette
