import Palette.Proofs.Registry.Reported

/-!
# Themes do not see one another

What a build records on a theme, and how it corrects it there, depends on the theme, the colors,
the stacks and the configuration, and on nothing that other themes have. Overrides without a filter
for themes are written for all of them, rules are collected for all of them, and corrections go
through all of them; but at a site only what covers it counts.

* `Spec.lookup_patch`        what overrides write at a site;
* `Pass.stepAt_eq`           the step of a pass at a site, with no other site in it;
* `Semantic.recordsAt`       the records of a color at some sites;
* `Correction.all_congr`     corrections at some sites look at the colors there;
* `Spec.Alike`               two specifications that differ in their themes at most;
* `Registry.ofTheme`         the variants of a theme, in order;
* `Spec.ofTheme_of_alike`    they are the same if the specifications are alike;
* `Spec.alike_of_compileUnchecked`   so they are if the values differ in their themes alone.
-/

namespace Palette
open Outcome

/-- do two specifications agree in all but their themes? Ramps are those of the colors. -/
structure Spec.Alike (p p' : Spec) : Prop where
  semantics : p.semantics = p'.semantics
  layers : p.layers = p'.layers
  level : p.config.level = p'.config.level
  strategy : p.config.strategy = p'.config.strategy
  correction : p.config.correction = p'.config.correction

/-! ## steps -/

section
variable {p p' : Spec} {e : Engine} {s : Site}

/-- at a site, overrides write where they cover it, whatever other sites there are -/
theorem Spec.lookup_patch (hs : s ∈ p.sites) (rules : List (Setting Atom × Choice))
    (os : List (Override Atom Choice)) :
    (Override.patch rules os p.axes).lookup s.setting =
      (((Override.ranked os).reverse.find? fun o => o.covers s.setting).map Override.step).or
        ((Entries.ofList rules).lookup s.setting) := by
  have hcovers : Override.applies p.axes s.setting =
      fun o : Override Atom Choice => o.covers s.setting := funext (applies_eq_covers hs)
  rw [Override.lookup_patch, hcovers]

/-- the step at a site: that of the last override that covers it, or of the rule that the search
makes there, or the default step -/
theorem Pass.stepAt_eq {q : Pass} (hp : p.Coherent) (hs : s ∈ p.sites) :
    q.stepAt p e s =
      ((((Override.ranked q.overrides).reverse.find? fun o => o.covers s.setting).map
          Override.step).or
        ((Rules.ruleAt? (q.demand p e) s).map fun r => Choice.number r.2)).getD q.default := by
  rw [stepAt, rules, Spec.lookup_patch hs, lookup_auto hp hs]

/-- the record of a state at a site where the color has a step -/
def Semantic.stateAt (t : Semantic) (p : Spec) (e : Engine) (state : Atom) (i : Interaction)
    (s : Site) : Record :=
  let rules := Override.patch [] (i.overrides.map Override.named) p.axes
  let (step, manual) := match rules.lookup s.setting with
    | some step => (step, true)
    | none => (.number (t.shifted i s (t.basePass.stepAt p e s).index), false)
  Record.of p e (.text (Spec.derivedName t.name state)) VariantKey.plainVision t.target t.ramp
    s step manual

theorem Semantic.stateRecords_eq {t : Semantic} {state : Atom} {i : Interaction} :
    t.stateRecords p e (t.basePass.steps p e) state i = p.sites.map (t.stateAt p e state i) := by
  rw [stateRecords, Pass.steps_eq, List.map_map]
  rfl

/-- the records of a color at some sites -/
def Semantic.recordsAt (t : Semantic) (p : Spec) (e : Engine) (sites : List Site) : List Record :=
  sites.map (t.basePass.recordAt p e) ++
  (t.interactions.flatMap fun i => sites.map (t.stateAt p e i.1 i.2)) ++
  t.ownVision.flatMap fun v => sites.map ((t.visionPass v.1 v.2).recordAt p e)

theorem Semantic.records_eq {t : Semantic} : t.records p e = t.recordsAt p e p.sites := by
  simp only [records, Pass.records_eq, stateRecords_eq]
  rfl

theorem Semantic.filter_recordsAt {t : Semantic} (sites : List Site) (x : Atom) :
    (t.recordsAt p e sites).filter (fun y => y.key.theme == x) =
      t.recordsAt p e (sites.filter fun s => s.themeName == x) := by
  simp only [recordsAt, List.filter_append, List.filter_flatMap, List.filter_map]
  rfl

section
variable (h : p.Alike p') (hp : p.Coherent) (hp' : p'.Coherent)
include h hp hp'

theorem Pass.stepAt_of_alike {q : Pass} (hs : s ∈ p.sites) (hs' : s ∈ p'.sites) :
    q.stepAt p e s = q.stepAt p' e s := by
  have hdemand : q.demand p e = q.demand p' e := by
    rw [demand, demand, h.level, h.strategy]
  rw [stepAt_eq hp hs, stepAt_eq hp' hs', hdemand]

theorem Semantic.recordsAt_of_alike {t : Semantic} {sites : List Site}
    (hs : ∀ s ∈ sites, s ∈ p.sites ∧ s ∈ p'.sites) :
    t.recordsAt p e sites = t.recordsAt p' e sites := by
  have hof : Record.of p e = Record.of p' e := by
    funext token vision target ramp s step manual
    rw [Record.of, Record.of, h.level]
  have hpass (q : Pass) : sites.map (q.recordAt p e) = sites.map (q.recordAt p' e) := by
    refine List.map_congr_left fun s hm => ?_
    rw [Pass.recordAt, Pass.recordAt, hof, Pass.stepAt_of_alike h hp hp' (hs s hm).1 (hs s hm).2]
  have hstate (i : Atom × Interaction) :
      sites.map (t.stateAt p e i.1 i.2) = sites.map (t.stateAt p' e i.1 i.2) := by
    refine List.map_congr_left fun s hm => ?_
    obtain ⟨hs, hs'⟩ := hs s hm
    rw [stateAt, stateAt, hof, Pass.stepAt_of_alike h hp hp' hs hs', Spec.lookup_patch hs,
      Spec.lookup_patch hs']
  simp only [recordsAt, hpass, hstate]

end

end

/-! ## corrections -/

namespace Correction
variable {κ : Type} [LT κ] [DecidableLT κ] [LE κ] [DecidableLE κ] [Sub κ] [Mul κ]
variable {q : Request κ} {sites : List Site}

theorem filter_all (x : Atom) :
    (all q sites).filter (fun y => y.1.theme == x) =
      all q (sites.filter fun s => s.themeName == x) := by
  rw [all, all, List.filter_flatMap]
  congr 1
  funext m
  refine filter_flatMap_of_forall fun s _ y hy => ?_
  obtain ⟨c, _, hc⟩ := List.mem_filterMap.1 hy
  rw [key_of_move? hc]
  rfl

/-- corrections at some sites look at the colors there -/
theorem all_congr {color? : VariantKey → Option Hex}
    (h : ∀ s ∈ sites, ∀ n, q.color? (VariantKey.atSite n VariantKey.plainVision s) =
      color? (VariantKey.atSite n VariantKey.plainVision s)) :
    all q sites = all { q with color? } sites := by
  have hscene : ∀ s ∈ sites, scene q.color? q.semantics.keys s = scene color? q.semantics.keys s :=
    fun s hs => List.filterMap_congr fun n _ => by rw [h s hs n]
  refine List.flatMap_congr fun m _ => List.flatMap_congr fun s hs => ?_
  have hmoves : moves q m s = moves { q with color? } m s := by
    rw [moves, hscene s hs]
    rfl
  have hmove : move? q m s = move? { q with color? } m s := by
    funext c
    rw [move?, hscene s hs]
    rfl
  rw [hmoves, hmove]

end Correction

/-! ## the variants of a theme -/

/-- the variants of a theme, in order -/
def Registry.ofTheme (r : Registry) (name : Atom) : Entries VariantKey Variant :=
  r.variants.toList.filter fun v => v.1.theme == name

namespace Spec
variable {p p' : Spec} {e : Engine} {x : Atom × Theme}

theorem beq_theme {name : Atom} (a b : VariantKey) (h : (a == b) = true) :
    (a.theme == name) = (b.theme == name) :=
  BEq.congr_left (VariantKey.beq_iff_parts.1 h).2.2.1

theorem filter_sites (hp : p.Coherent) (hx : x ∈ p.themes) :
    p.sites.filter (fun s => s.themeName == x.1) =
      Site.list [x] p.layers.keys FontSize.names := by
  rw [sites, Site.filter_list, Entries.filter_beq hp.distinct_themes hx]

/-- the records on a theme, in order -/
theorem filter_written (hp : p.Coherent) (hx : x ∈ p.themes) :
    (p.written e).filter (fun v => v.1.theme == x.1) =
      (p.semantics.flatMap fun t =>
        t.2.recordsAt p e (Site.list [x] p.layers.keys FontSize.names)).map
          fun y => (y.key, y.variant) := by
  rw [← filter_sites hp hx, written, List.filter_map, records, List.filter_flatMap]
  congr 2
  funext t
  rw [Semantic.records_eq]
  exact Semantic.filter_recordsAt p.sites x.1

/-- the corrections on a theme, in order -/
theorem filter_corrections (hp : p.Coherent) (hx : x ∈ p.themes)
    (variants : OrderedMap VariantKey Variant) :
    (p.corrections e variants).filter (fun v => v.1.theme == x.1) =
      if p.config.correction.enabled.truthy then
        Correction.all (p.request e variants) (Site.list [x] p.layers.keys FontSize.names)
      else [] := by
  rw [← filter_sites hp hx, corrections]
  split
  · exact Correction.filter_all x.1
  · rfl

/-- the variants of a theme are written by its records, and then by the corrections on it -/
theorem ofTheme_of_build {generatedAt : String} {r : Registry}
    (hb : p.build e generatedAt = .ok r) (name : Atom) :
    r.ofTheme name =
      Entries.putAll (Entries.ofList ((p.written e).filter fun v => v.1.theme == name))
        ((p.corrections e (Record.variants (p.records e))).filter
          fun v => v.1.theme == name) := by
  obtain ⟨_, failures, _, _, rfl⟩ := build_ok.1 hb
  show ((Record.variants (p.records e)).insertAll _).toList.filter _ = _
  rw [OrderedMap.toList_insertAll, Record.variants, OrderedMap.toList_ofList,
    Entries.filter_putAll beq_theme, Entries.filter_ofList beq_theme]
  rfl

section
variable (h : p.Alike p') (hp : p.Coherent) (hp' : p'.Coherent) (hx : x ∈ p.themes)
  (hx' : x ∈ p'.themes)
include h hp hp' hx hx'

theorem filter_written_of_alike :
    (p.written e).filter (fun v => v.1.theme == x.1) =
      (p'.written e).filter (fun v => v.1.theme == x.1) := by
  have hsites : ∀ s ∈ Site.list [x] p.layers.keys FontSize.names, s ∈ p.sites ∧ s ∈ p'.sites := by
    intro s hs
    have hs' := hs
    rw [h.layers, ← filter_sites hp' hx'] at hs'
    rw [← filter_sites hp hx] at hs
    exact ⟨(List.mem_filter.1 hs).1, (List.mem_filter.1 hs').1⟩
  rw [filter_written hp hx, filter_written hp' hx', ← h.semantics, ← h.layers]
  congr 1
  exact List.flatMap_congr fun t _ => Semantic.recordsAt_of_alike h hp hp' hsites

/-- so the colors on the theme are the same, however they are found -/
theorem get?_of_alike {k : VariantKey} (hk : (k.theme == x.1) = true) :
    (Record.variants (p.records e)).get? k = (Record.variants (p'.records e)).get? k := by
  have hkept (rs : List Record) : (Record.variants rs).get? k =
      (Entries.ofList ((rs.map fun y => (y.key, y.variant)).filter
        fun v => v.1.theme == x.1)).lookup k := by
    have hq (a b : VariantKey) (_ : Variant) (hab : (a == b) = true) :
        (a.theme == x.1) = (b.theme == x.1) := beq_theme a b hab
    rw [← Entries.filter_ofList beq_theme,
      Entries.lookup_filter (Entries.distinct_ofList _) hq, hk, ← OrderedMap.lookup_toList,
      Record.variants, OrderedMap.toList_ofList]
    cases (Entries.ofList (rs.map fun y => (y.key, y.variant))).lookup k <;> rfl
  rw [hkept, hkept]
  exact congrArg (fun ws => (Entries.ofList ws).lookup k)
    (filter_written_of_alike h hp hp' hx hx')

theorem filter_corrections_of_alike :
    (p.corrections e (Record.variants (p.records e))).filter (fun v => v.1.theme == x.1) =
      (p'.corrections e (Record.variants (p'.records e))).filter
        (fun v => v.1.theme == x.1) := by
  have hrequest (variants variants' : OrderedMap VariantKey Variant) :
      p'.request e variants' = { p.request e variants with
        color? := fun k => (variants'.get? k).map (·.hex) } := by
    rw [request, request, h.semantics, h.level, h.correction]
  have hall : Correction.all (p.request e (Record.variants (p.records e)))
        (Site.list [x] p.layers.keys FontSize.names) =
      Correction.all (p'.request e (Record.variants (p'.records e)))
        (Site.list [x] p.layers.keys FontSize.names) := by
    rw [hrequest (Record.variants (p.records e))]
    refine Correction.all_congr fun s hs n => congrArg (Option.map _) ?_
    rw [← filter_sites hp hx] at hs
    exact get?_of_alike h hp hp' hx hx' (List.mem_filter.1 hs).2
  rw [filter_corrections hp hx, filter_corrections hp' hx', ← h.correction, ← h.layers, hall]

end

/-- two builds with the same colors, stacks and configuration have the same variants of a theme
that both have, whatever other themes there are -/
theorem ofTheme_of_alike {d d' : Document} (hd : d.isKeyed = true) (hd' : d'.isKeyed = true)
    (hc : compile d = .ok p ∨ compileUnchecked d = .ok p)
    (hc' : compile d' = .ok p' ∨ compileUnchecked d' = .ok p') (h : p.Alike p')
    (hx : x ∈ p.themes) (hx' : x ∈ p'.themes) {generatedAt generatedAt' : String}
    {r r' : Registry} (hb : p.build e generatedAt = .ok r)
    (hb' : p'.build e generatedAt' = .ok r') :
    r.ofTheme x.1 = r'.ofTheme x.1 := by
  have hp := coherent_of_compile_or hc hd
  have hp' := coherent_of_compile_or hc' hd'
  rw [ofTheme_of_build hb, ofTheme_of_build hb', filter_written_of_alike h hp hp' hx hx',
    filter_corrections_of_alike h hp hp' hx hx']

end Spec

/-! ## other themes -/

/-- a value with other themes compiles to a specification that is alike -/
theorem Spec.alike_of_compileUnchecked {ms : Entries Atom Document} {themes : Document}
    {p p' : Spec} (h : compileUnchecked (.map ms) = .ok p)
    (h' : compileUnchecked (.map (Entries.put (.text "themes") themes ms)) = .ok p') :
    p.Alike p' := by
  have hother (name : String) (hne : "themes" ≠ name) :
      (Entries.put (.text "themes") themes ms).lookup (.text name) = ms.lookup (.text name) :=
    lookup_put_text hne
  obtain ⟨members, texts, parts, h⟩ := compileUnchecked_map.1 h
  obtain ⟨members', texts', parts', h'⟩ := compileUnchecked_map.1 h'
  have hramps : p.ramps = p'.ramps := by
    have hr := h'.ramps
    rw [hother _ (by decide)] at hr
    exact Except.ok.inj (h.ramps.symm.trans hr)
  have hmembers : members = members' := by
    have hm := h'.choices
    rw [hother _ (by decide)] at hm
    exact Except.ok.inj (h.choices.symm.trans hm)
  have htexts : texts = texts' := by
    have ht := h'.foreground
    rw [hother _ (by decide), ← hramps] at ht
    exact Except.ok.inj (h.foreground.symm.trans ht)
  have hparts : parts = parts' := by
    have ht := h'.nonText
    rw [hother _ (by decide), ← hramps] at ht
    exact Except.ok.inj (h.nonText.symm.trans ht)
  have hlayers := h'.layers
  rw [← hmembers] at hlayers
  have hconfig := h'.config
  rw [← hmembers] at hconfig
  obtain ⟨options, hoptions, hc⟩ := bind_ok.1 h.config
  obtain ⟨correction, hcorrection, hc⟩ := bind_ok.1 hc
  obtain ⟨options', hoptions', hc'⟩ := bind_ok.1 hconfig
  obtain ⟨correction', hcorrection', hc'⟩ := bind_ok.1 hc'
  obtain rfl := Except.ok.inj (hoptions.symm.trans hoptions')
  obtain rfl := Except.ok.inj (hcorrection.symm.trans hcorrection')
  exact {
    semantics := by rw [h.semantics, h'.semantics, htexts, hparts]
    layers := Except.ok.inj (h.layers.symm.trans hlayers)
    level := by rw [← pure_ok.1 hc, ← pure_ok.1 hc']
    strategy := by rw [← pure_ok.1 hc, ← pure_ok.1 hc']
    correction := by rw [← pure_ok.1 hc, ← pure_ok.1 hc'] }

namespace Sample

/-- the small specification with one of its themes between two others -/
def dusky : Document := .map (Entries.put (.text "themes") (.record [
    ("dusk", .record [("ramp", .text "sand"), ("step", .int 1)]),
    ("day", .record [("ramp", .text "gray"), ("step", .int 3)]),
    ("dawn", .record [("ramp", .text "gray"), ("step", .int 2)])])
  (Spec.membersOf document))

def duskySpec : Spec := (Spec.compile dusky).toOption.get (by decide)

def duskyRegistry : Registry := (duskySpec.build engine "later").toOption.get (by decide)

end Sample

/-- the small specification and that on other themes, on the theme that both have -/
theorem Spec.ofTheme_of_alike_sample :
    Sample.spec.themes.keys = [.text "day", .text "night"] ∧
      Sample.duskySpec.themes.keys = [.text "dusk", .text "day", .text "dawn"] ∧
      Sample.registry.ofTheme (.text "day") = Sample.duskyRegistry.ofTheme (.text "day") := by
  have hkeyed : Sample.dusky.isKeyed = true := by decide
  have hc : compile Sample.dusky = .ok Sample.duskySpec := Outcome.eq_ok_get _
  have hb : Sample.duskySpec.build Sample.engine "later" = .ok Sample.duskyRegistry :=
    Outcome.eq_ok_get _
  have halike : Sample.spec.Alike Sample.duskySpec :=
    alike_of_compileUnchecked (memberProblems_eq_nil_of_compile Sample.compile_document).2
      (memberProblems_eq_nil_of_compile hc).2
  have ht : 0 < Sample.spec.themes.length := by decide
  have hx' : Sample.spec.themes[0] ∈ Sample.duskySpec.themes := .tail _ (.head _)
  exact ⟨rfl, rfl, ofTheme_of_alike Sample.isKeyed_document hkeyed (.inl Sample.compile_document)
    (.inl hc) halike (List.getElem_mem ht) hx' Sample.build_spec hb⟩

end Palette
