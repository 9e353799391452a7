import Palette.Proofs.Nearest
import Palette.Proofs.Registry.Built
import Palette.Proofs.Registry.Passes

/-!
# Which rules there are

The rules for a default step, told without the search and without the row of writes that makes them:
each context has a rule exactly if the step that it takes is another one than the default step.
Stacks and font sizes may come more than once, and a stack may be one that a theme has no surface
for.

* `Ramp.Chooses`           the step that a context takes, or none;
* `Ramp.chosen?_iff`       it is what the search gives;
* `Rules.contexts`         the contexts with a surface, as they come;
* `Rules.Admits`           what has to hold at a site for its rule to be made;
* `Rules.check_eq_ok_iff`  nothing else can fail there;
* `Rules.stepAt?_of_beq`   what is taken at a site depends on its context alone;
* `Rules.generate_exact`   the rules, whenever they are made.
-/

namespace Palette

namespace Ramp
variable {r : Ramp} {passes : Hex → Bool} {default : Int} {mirrored decorative : Bool}
  {d : Direction} {x : Option Int}

/-- The step that is taken in place of a default step. A decorative color takes the mirrored step
untested. A default step that passes stays. Otherwise it is the mirrored step, if it passes, or the
step nearest to where the search starts, on the side that the direction names, or on both sides
where nothing passes on that one. -/
inductive Chooses (r : Ramp) (passes : Hex → Bool) (default : Int) (mirrored decorative : Bool)
    (d : Direction) : Option Int → Prop
  | exempt : mirrored = true → decorative = true →
      Chooses r passes default mirrored decorative d (some (r.last - default))
  | kept : (mirrored && decorative) = false → r.passesAt passes default = true →
      Chooses r passes default mirrored decorative d none
  | mirrored : mirrored = true → decorative = false → r.passesAt passes default = false →
      r.passesAt passes (r.last - default) = true →
      Chooses r passes default mirrored decorative d (some (r.last - default))
  | nearest {i : Int} : (mirrored && decorative) = false → r.passesAt passes default = false →
      r.passesAt passes (r.start default mirrored) = false →
      IsNearest r passes (r.start default mirrored) (Reaches (r.start default mirrored) d) i →
      Chooses r passes default mirrored decorative d (some i)
  | widened {i : Int} : (mirrored && decorative) = false → r.passesAt passes default = false →
      (∀ j, Reaches (r.start default mirrored) d j → r.passesAt passes j = false) →
      IsNearest r passes (r.start default mirrored) (fun _ => True) i →
      Chooses r passes default mirrored decorative d (some i)
  | absent : (mirrored && decorative) = false → (∀ j, r.passesAt passes j = false) →
      Chooses r passes default mirrored decorative d none

/-- where the start does not pass, a search finds the nearest step, on one side or on both -/
theorem closest?_eq_some_iff {origin i : Int} (ho : r.passesAt passes origin = false) :
    r.closest? passes origin d = some i ↔
      IsNearest r passes origin (Reaches origin d) i ∨
        (∀ j, Reaches origin d j → r.passesAt passes j = false) ∧
          IsNearest r passes origin (fun _ => True) i := by
  rw [closest?]
  cases hn : r.nearest? passes origin d with
  | some j =>
    have hj := (nearest?_iff_isNearest ho).1 hn
    constructor
    · intro h
      obtain rfl := Option.some.inj h
      exact .inl hj
    · rintro (h | ⟨hnone, _⟩)
      · exact hn.symm.trans ((nearest?_iff_isNearest ho).2 h)
      · exact Bool.noConfusion (hj.passing.symm.trans (hnone j hj.onSide))
  | none =>
    have hnone := nearest?_eq_none_iff.1 hn
    have hboth := nearest?_iff_isNearest (i := i) (d := .other "either") ho
    constructor
    · exact fun h => .inr ⟨hnone, hboth.1 h⟩
    · rintro (h | ⟨_, h⟩)
      · exact Bool.noConfusion (h.passing.symm.trans (hnone i h.onSide))
      · exact hboth.2 h

theorem chooses_chosen? (hd : r.hasStep default = true) :
    Chooses r passes default mirrored decorative d
      (r.chosen? passes default mirrored decorative d) := by
  rw [chosen?_eq, passesFrom_of_hasStep hd, passesFrom_of_hasStep (hasStep_start hd)]
  cases hx : mirrored && decorative with
  | true =>
    obtain ⟨rfl, rfl⟩ := Bool.and_eq_true_iff.1 hx
    exact .exempt rfl rfl
  | false =>
    rw [if_neg Bool.false_ne_true]
    cases hp : r.passesAt passes default with
    | true => exact .kept hx hp
    | false =>
      rw [if_neg Bool.false_ne_true]
      cases ho : r.passesAt passes (r.start default mirrored) with
      | true =>
        -- only a mirrored start passes where the default step does not
        cases mirrored with
        | true => exact .mirrored rfl hx hp ho
        | false => exact Bool.noConfusion (ho.symm.trans hp)
      | false =>
        rw [Bool.and_false, if_neg Bool.false_ne_true]
        cases hc : r.closest? passes (r.start default mirrored) d with
        | none => exact .absent hx (closest?_eq_none.1 hc)
        | some i =>
          rcases (closest?_eq_some_iff ho).1 hc with h | ⟨hnone, h⟩
          · exact .nearest hx hp ho h
          · exact .widened hx hp hnone h

/-- no other step is taken than the one that the search gives -/
theorem eq_chosen? (hd : r.hasStep default = true)
    (h : Chooses r passes default mirrored decorative d x) :
    r.chosen? passes default mirrored decorative d = x := by
  rw [chosen?_eq, passesFrom_of_hasStep hd, passesFrom_of_hasStep (hasStep_start hd)]
  cases h with
  | exempt hm hx =>
    obtain ⟨rfl, rfl⟩ := And.intro hm hx
    rfl
  | kept hx hp => rw [hx, if_neg Bool.false_ne_true, if_pos hp]
  | mirrored hm hx hp ho =>
    obtain ⟨rfl, rfl⟩ := And.intro hm hx
    have hstart : r.passesAt passes (r.start default true) = true := ho
    rw [hp, hstart]
    rfl
  | nearest hx hp ho h =>
    rw [hx, hp, ho, Bool.and_false, if_neg Bool.false_ne_true, if_neg Bool.false_ne_true,
      if_neg Bool.false_ne_true]
    exact (closest?_eq_some_iff ho).2 (.inl h)
  | widened hx hp hnone h =>
    have ho := hnone _ reaches_self
    rw [hx, hp, ho, Bool.and_false, if_neg Bool.false_ne_true, if_neg Bool.false_ne_true,
      if_neg Bool.false_ne_true]
    exact (closest?_eq_some_iff ho).2 (.inr ⟨hnone, h⟩)
  | absent hx hnone =>
    rw [hx, hnone, hnone, Bool.and_false, if_neg Bool.false_ne_true, if_neg Bool.false_ne_true,
      if_neg Bool.false_ne_true]
    exact closest?_eq_none.2 hnone

/-- the step that is taken is what the search gives -/
theorem chosen?_iff (hd : r.hasStep default = true) :
    r.chosen? passes default mirrored decorative d = x ↔
      Chooses r passes default mirrored decorative d x := by
  refine ⟨?_, eq_chosen? hd⟩
  rintro rfl
  exact chooses_chosen? hd

end Ramp

/-! ## sites and contexts -/

namespace Site

theorem mem_listAt {themes : Entries Atom Theme} {layers : Option (List Atom)}
    {fontSizes : List Atom} {s : Site} :
    s ∈ listAt themes layers fontSizes ↔
      (s.themeName, s.theme) ∈ themes ∧ s.stack ∈ layers.getD s.theme.surfaces.keys ∧
        s.theme.surfaces.lookup s.stack = some s.surface ∧ s.fontSize ∈ fontSizes := by
  rw [listAt, List.mem_flatMap]
  constructor
  · rintro ⟨⟨n, t⟩, ht, hs⟩
    obtain ⟨rfl, rfl, h⟩ := mem_ofTheme.1 hs
    exact ⟨ht, h⟩
  · rintro ⟨ht, h⟩
    exact ⟨_, ht, mem_ofTheme.2 ⟨rfl, rfl, h⟩⟩

end Site

theorem FontSize.px_of_beq {a b : Atom} (h : (a == b) = true) : px a = px b := by
  cases a with
  | text s => rw [Atom.eq_of_text_beq h]
  | _ =>
    cases b with
    | text s => cases Atom.eq_of_text_beq (BEq.symm h)
    | _ => rfl

namespace Rules
variable {d : Demand} {themes : Entries Atom Theme} {layers : Option (List Atom)}
  {fontSizes : List Atom} {s s' : Site}

/-- the contexts with a surface, by themes, stacks and font sizes -/
def contexts (themes : Entries Atom Theme) (layers : Option (List Atom)) (fontSizes : List Atom) :
    List (Setting Atom) :=
  themes.flatMap fun t =>
    ((layers.getD t.2.surfaces.keys).filter fun k => (t.2.surfaces.lookup k).isSome).flatMap
      fun k => fontSizes.map fun f => ⟨t.1, f, k⟩

theorem map_setting_listAt :
    (Site.listAt themes layers fontSizes).map Site.setting = contexts themes layers fontSizes := by
  rw [Site.listAt, contexts, List.map_flatMap]
  refine List.flatMap_congr fun t _ => ?_
  rw [Site.ofTheme_eq, List.map_flatMap]
  induction layers.getD t.2.surfaces.keys with
  | nil => rfl
  | cons k l ih =>
    rw [List.flatMap_cons, List.filter_cons, ih, Site.atStack]
    cases t.2.surfaces.lookup k with
    | none => rfl
    | some u =>
      rw [Option.isSome_some, if_pos rfl, List.flatMap_cons, List.map_map]
      rfl

/-- Can the rule at a site be made? The name of its font size has to start with a number or with no
digit at all, and the engine has to be able to evaluate there, unless it is not asked. -/
structure Admits (d : Demand) (s : Site) : Prop where
  size : ∃ n, FontSize.pixels s.fontSize = .ok n
  engine : (s.mirrored d.strategy && d.target == .decorative) = false →
    d.engine.admits (s.context d.target d.level) = .ok ()

theorem colorOf_of_hasStep {r : Ramp} {i : Int} (h : r.hasStep i = true) :
    colorOf r i = .ok (r.color i) := by
  rw [colorOf, Ramp.color?_eq_some_of_hasStep r i h]

theorem check_eq_ok_iff (hd : d.ramp.hasStep d.default = true) :
    check d s = .ok () ↔ Admits d s := by
  have hmirrored := colorOf_of_hasStep (Ramp.hasStep_mirrored hd)
  rw [check]
  cases hx : s.mirrored d.strategy && d.target == .decorative with
  | true =>
    constructor
    · intro h
      obtain ⟨n, hn, _⟩ := Outcome.bind_ok.1 h
      exact ⟨⟨n, hn⟩, fun h => Bool.noConfusion (hx.symm.trans h)⟩
    · rintro ⟨⟨n, hn⟩, _⟩
      rw [hn]
      rfl
  | false =>
    rw [colorOf_of_hasStep hd, hmirrored]
    constructor
    · intro h
      obtain ⟨n, hn, h⟩ := Outcome.bind_ok.1 h
      obtain ⟨_, _, h⟩ := Outcome.bind_ok.1 h
      obtain ⟨⟨⟩, h, _⟩ := Outcome.bind_ok.1 h
      exact ⟨⟨n, hn⟩, fun _ => h⟩
    · rintro ⟨⟨n, hn⟩, he⟩
      rw [hn]
      show (d.engine.admits (s.context d.target d.level) >>= fun _ => _) = _
      rw [he hx]
      show (if _ then _ else _) = _
      split <;> rfl

/-- the same is taken at sites of one context -/
theorem stepAt?_of_beq (ht : themes.Distinct) (hs : s ∈ Site.listAt themes layers fontSizes)
    (hs' : s' ∈ Site.listAt themes layers fontSizes) (h : (s.setting == s'.setting) = true) :
    stepAt? d s' = stepAt? d s := by
  obtain ⟨hname, hsize, hstack⟩ := (Setting.beq_iff _ _).1 h
  obtain ⟨hm, _, hu, _⟩ := Site.mem_listAt.1 hs
  obtain ⟨hm', _, hu', _⟩ := Site.mem_listAt.1 hs'
  have htheme : s.theme = s'.theme := by
    have hlookup := Entries.lookup_congr themes hname
    rw [show s.setting.theme = s.themeName from rfl, Entries.lookup_of_mem ht hm,
      show s'.setting.theme = s'.themeName from rfl, Entries.lookup_of_mem ht hm'] at hlookup
    exact Option.some.inj hlookup
  have hsurface : s.surface = s'.surface := by
    have hlookup := Entries.lookup_congr s.theme.surfaces hstack
    rw [show s.setting.stack = s.stack from rfl, hu, htheme,
      show s'.setting.stack = s'.stack from rfl, hu'] at hlookup
    exact Option.some.inj hlookup
  have hpx : FontSize.px s.fontSize = FontSize.px s'.fontSize := FontSize.px_of_beq hsize
  have hpasses : s'.passes d.engine d.target d.level = s.passes d.engine d.target d.level := by
    funext c
    rw [Site.passes, Site.passes, Site.context, Site.context, hsurface, hpx]
  rw [stepAt?, stepAt?, hpasses, Site.mirrored, Site.mirrored, Site.direction, Site.direction,
    htheme, hsurface]

section
variable (ht : themes.Distinct)
include ht

/-- a rule is found for a context of a site exactly if another step is taken there -/
theorem lookup_auto_listAt (hs : s ∈ Site.listAt themes layers fontSizes) :
    (auto d (Site.listAt themes layers fontSizes)).lookup s.setting =
      (stepAt? d s).filter (· ≠ d.default) := by
  rw [lookup_auto_of_alike hs fun s' hs' hb => stepAt?_of_beq ht hs hs' hb, map_ruleAt?]

/-- the contexts with a rule, in the order in which they first come -/
theorem keys_auto_listAt :
    (auto d (Site.listAt themes layers fontSizes)).keys =
      (contexts themes layers fontSizes).eraseDups.filter fun c =>
        ((auto d (Site.listAt themes layers fontSizes)).lookup c).isSome := by
  have hcongr (a b : Setting Atom) (h : (a == b) = true) :
      ((auto d (Site.listAt themes layers fontSizes)).lookup a).isSome =
        ((auto d (Site.listAt themes layers fontSizes)).lookup b).isSome := by
    rw [Entries.lookup_congr _ h]
  rw [← Entries.eraseDups_filter hcongr, ← map_setting_listAt, List.filter_map]
  conv_lhs => rw [auto, Entries.keys_ofList]
  congr 1
  -- the sites where a rule is made are those for whose context one is found
  have hmade : (Site.listAt themes layers fontSizes).filter ((fun c =>
        ((auto d (Site.listAt themes layers fontSizes)).lookup c).isSome) ∘ Site.setting) =
      (Site.listAt themes layers fontSizes).filter fun s => (ruleAt? d s).isSome := by
    refine List.filter_congr fun s hs => ?_
    show ((auto d (Site.listAt themes layers fontSizes)).lookup s.setting).isSome = _
    rw [lookup_auto_listAt ht hs, ← map_ruleAt?, Option.isSome_map]
  rw [hmade]
  induction Site.listAt themes layers fontSizes with
  | nil => rfl
  | cons s l ih =>
    rw [List.filterMap_cons, List.filter_cons]
    cases hr : ruleAt? d s with
    | none => exact ih
    | some e =>
      rw [Option.isSome_some, if_pos rfl, List.map_cons, ← key_of_ruleAt? hr, ← ih]
      rfl

end

/-- the usual font sizes can be read -/
theorem pixels_of_mem_names : ∀ f ∈ FontSize.names, ∃ n, FontSize.pixels f = .ok n :=
  List.forall_mem_map.2 fun s hs => by
    have hread : ∀ s ∈ FontSize.all, (FontSize.value? (FontSize.leading s)).isSome = true := by
      decide
    obtain ⟨n, hn⟩ := Option.isSome_iff_exists.1 (hread s hs)
    exact ⟨n, (FontSize.pixels_eq_ok_iff s n).2 hn⟩

/-- The rules for a default step of a ramp. They are made exactly if every site admits one, so that
they are for the usual font sizes, with an engine that evaluates. Then there is one rule at most for
a context, and they come in the order in which their contexts first come. At every theme, stack and
font size with a surface one step or none is chosen. It is on the ramp, and it is the step of the
rule, unless it is the default step or there is none, where there is no rule. -/
theorem generate_exact (d : Demand) (hd : d.ramp.hasStep d.default = true)
    {themes : Entries Atom Theme} (ht : themes.Distinct) (layers : Option (List Atom))
    (fontSizes : List Atom) :
    ((∃ rules, generate d themes layers fontSizes = .ok rules) ↔
      ∀ s ∈ Site.listAt themes layers fontSizes, Admits d s) ∧
    ((∀ f ∈ fontSizes, f ∈ FontSize.names) →
      (∀ px, d.engine.admits ⟨px, d.target, d.level⟩ = .ok ()) →
      ∃ rules, generate d themes layers fontSizes = .ok rules) ∧
    ∀ rules, generate d themes layers fontSizes = .ok rules →
      rules.Distinct ∧
      rules.keys =
        (contexts themes layers fontSizes).eraseDups.filter (fun c => (rules.lookup c).isSome) ∧
      ∀ t ∈ themes, ∀ k ∈ layers.getD t.2.surfaces.keys, ∀ u, t.2.surfaces.lookup k = some u →
        ∀ f ∈ fontSizes, ∃ x,
          (∀ y, d.ramp.Chooses (d.engine.passes u.hex ⟨FontSize.px f, d.target, d.level⟩) d.default
            (d.strategy.mirrors && t.2.elevation == .lighter) (d.target == .decorative)
            (d.engine.direction u.hex u.hex.luminance) y ↔ y = x) ∧
          rules.lookup ⟨t.1, f, k⟩ = x.filter (· ≠ d.default) ∧
          ∀ i, x = some i → d.ramp.hasStep i = true := by
  have hcheck : (Site.listAt themes layers fontSizes).forM (check d) = .ok () ↔
      ∀ s ∈ Site.listAt themes layers fontSizes, Admits d s :=
    Outcome.forM_ok.trans (forall₂_congr fun _ _ => check_eq_ok_iff hd)
  have hmade : (∃ rules, generate d themes layers fontSizes = .ok rules) ↔
      ∀ s ∈ Site.listAt themes layers fontSizes, Admits d s := by
    constructor
    · rintro ⟨rules, h⟩
      obtain ⟨⟨⟩, h, _⟩ := Outcome.bind_ok.1 h
      exact hcheck.1 h
    · exact fun h => ⟨_, Outcome.bind_ok.2 ⟨(), hcheck.2 h, rfl⟩⟩
  refine ⟨hmade, fun hf he => hmade.2 fun s hs => ?_, fun rules h => ?_⟩
  · obtain ⟨_, _, _, hsize⟩ := Site.mem_listAt.1 hs
    exact ⟨pixels_of_mem_names _ (hf _ hsize), fun _ => he _⟩
  · obtain ⟨_, _, h⟩ := Outcome.bind_ok.1 h
    obtain rfl := Outcome.pure_ok.1 h
    refine ⟨Entries.distinct_ofList _, keys_auto_listAt ht, ?_⟩
    intro t hm k hk u hu f hf
    have hs : (⟨t.1, t.2, k, u, f⟩ : Site) ∈ Site.listAt themes layers fontSizes :=
      Site.mem_listAt.2 ⟨hm, hk, hu, hf⟩
    exact ⟨_, fun y => (Ramp.chosen?_iff hd).symm.trans eq_comm, lookup_auto_listAt ht hs,
      fun i hi => Ramp.hasStep_of_chosen? hd hi⟩

/-- four grays with the third one as default step, on a light theme that mirrors it and on a dark
one that does not, with a stack and a font size that come twice and with a stack that is unknown -/
theorem generate_exact_repeated :
    let gray : Ramp :=
      ⟨.text "gray", [⟨0, 0, 0⟩, ⟨119, 119, 119⟩, ⟨187, 187, 187⟩, ⟨255, 255, 255⟩]⟩
    let d : Demand := ⟨Sample.engine, gray, 2, .text, .aa, .mirror⟩
    let layers : Stacks := [(.text "root", 0), (.text "card", 1)]
    let themes : Entries Atom Theme :=
      [(.text "day", .ofStep (.text "day") gray (.number 3) layers [] []),
        (.text "night", .ofStep (.text "night") gray (.number 0) layers [] [])]
    let given := some [.text "root", .text "attic", .text "card", .text "root"]
    let fontSizes := [.text "12px", .text "12px"]
    gray.hasStep 2 = true ∧ themes.Distinct ∧
      ∃ rules, generate d themes given fontSizes = .ok rules ∧ rules.length = 3 ∧
        rules.lookup ⟨.text "day", .text "12px", .text "root"⟩ = some 1 ∧
        rules.lookup ⟨.text "night", .text "12px", .text "root"⟩ = none := by
  intro gray d layers themes given fontSizes
  have hd : gray.hasStep 2 = true := rfl
  have ht : themes.Distinct := by decide
  obtain ⟨_, hmade, hexact⟩ := generate_exact d hd ht given fontSizes
  obtain ⟨rules, h⟩ := hmade (by simp [fontSizes, FontSize.names, FontSize.all]) fun _ => rfl
  obtain ⟨_, _, hsteps⟩ := hexact rules h
  -- on the light theme the default step fails on the base level, and the mirrored one passes
  obtain ⟨x, hx, hday, _⟩ := hsteps _ List.mem_cons_self (.text "root") List.mem_cons_self
    ⟨3, ⟨255, 255, 255⟩⟩ rfl (.text "12px") List.mem_cons_self
  obtain rfl : some 1 = x := (hx (some 1)).1 (.mirrored rfl rfl rfl rfl)
  -- on the dark one the default step passes there
  obtain ⟨y, hy, hnight, _⟩ := hsteps _ (List.mem_cons_of_mem _ List.mem_cons_self)
    (.text "root") List.mem_cons_self ⟨0, ⟨0, 0, 0⟩⟩ rfl (.text "12px") List.mem_cons_self
  obtain rfl : none = y := (hy none).1 (.kept rfl rfl)
  refine ⟨hd, ht, rules, h, ?_, hday, hnight⟩
  obtain rfl : _ = rules := Except.ok.inj h
  decide

end Rules
end Palette
