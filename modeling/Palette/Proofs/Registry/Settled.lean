import Palette.Proofs.Precedence
import Palette.Proofs.Registry.Compliance

/-!
# Steps that precedence settles

The rules of a pass are those that the search makes, overwritten by the overrides of the pass. What
a build records in a context is the step that precedence gives there, or the default step of the
pass where it gives none.

* `Pass.made`            the rules that the search makes;
* `Pass.stepAt_of_settles`   the step at a site;
* `Spec.settled_of_build`    what precedence gives in general, and what a build has recorded.
-/

namespace Palette

/-- the rules that the search makes for a pass -/
def Pass.made (q : Pass) (p : Spec) (e : Engine) : Entries (Setting Atom) Choice :=
  (Rules.auto (q.demand p e) p.sites).map fun r => (r.1, .number r.2)

theorem Pass.stepAt_of_settles {q : Pass} {p : Spec} {e : Engine} {s : Site} {y : Option Choice}
    (h : Override.Settles (q.made p e) q.overrides p.axes s.setting y) :
    q.stepAt p e s = y.getD q.default := by
  rw [stepAt]
  exact congrArg (·.getD q.default) (Override.settles_iff.1 h)

/-- Rules overwritten by overrides read as precedence says, whatever the names and their order, and
a build has recorded this for every pass in every context. -/
theorem Spec.settled_of_build :
    (∀ {ν σ : Type} [BEq ν] [EquivBEq ν] (rules : List (Setting ν × σ)) (os : List (Override ν σ))
      (axes : Axes ν) (s : Setting ν) (x : Option σ),
        Override.Settles rules os axes s x ↔ (Override.patch rules os axes).lookup s = x) ∧
    ∀ {d : Document} {p : Spec} {e : Engine} {generatedAt : String} {r : Registry},
      d.isKeyed = true → compile d = .ok p → p.build e generatedAt = .ok r →
      ∀ t ∈ p.semantics, ∀ q ∈ t.2.passes, ∀ x ∈ p.themes.keys, ∀ f ∈ FontSize.names,
        ∀ k ∈ p.layers.keys, ∃ y v,
          Override.Settles (q.made p e) q.overrides p.axes ⟨x, f, k⟩ y ∧
            r.variants.get? ⟨q.token, f, x, k, q.vision⟩ = some v ∧
            v.ramp = q.ramp.name ∧ v.step = y.getD q.default := by
  refine ⟨fun _ _ _ _ _ => Override.settles_iff, ?_⟩
  intro d p e generatedAt r hd hc hb t ht q hq x hx f hf k hk
  have hu := (names_of_compile hd hc).1
  have hp := coherent_of_compile hd hc
  obtain ⟨theme, hx⟩ := Entries.mem_keys.1 hx
  obtain ⟨u, _, hs⟩ := hp.exists_site hx hk hf
  obtain ⟨y, hy⟩ := Override.exists_settles (q.made p e) q.overrides p.axes ⟨x, f, k⟩
  have hrecord : Record.of p e q.token q.vision q.target q.ramp ⟨x, theme, k, u, f⟩
      (q.stepAt p e ⟨x, theme, k, u, f⟩) (isManual q.overrides ⟨x, theme, k, u, f⟩) ∈
        p.records e :=
    List.mem_flatMap.2 ⟨t, ht, Semantic.mem_records_of_pass hq hs⟩
  exact ⟨y, _, hy, get?_of_record hu hp hb hrecord, rfl, Pass.stepAt_of_settles hy⟩

/-- an override with two filters stays over a later one with one filter and over a rule, and in the
small specification an override stays over the default step -/
theorem Spec.settled_of_build_sample :
    (Override.patch [(⟨"day", "12px", "root"⟩, 7)]
        [⟨1, some ["day", "dusk", "day"], none, some ["root"]⟩, ⟨2, some ["day"], none, none⟩]
        ⟨["day", "night"], ["12px"], ["root", "card"]⟩).lookup ⟨"day", "12px", "root"⟩ = some 1 ∧
      ∃ v, Sample.registry.variants.get?
          ⟨.text "a", .text "12px", .text "day", .text "card", VariantKey.plainVision⟩ = some v ∧
        v.step = .number 0 := by
  obtain ⟨hsettles, hbuild⟩ := settled_of_build
  constructor
  · refine (hsettles _ _ _ _ _).1 (.override (i := 0) (o := ⟨1, _, _, _⟩) ⟨rfl, rfl, ?_⟩)
    intro j o ho _ hj
    match j with
    | 0 => exact absurd rfl hj
    | 1 =>
      obtain rfl := Option.some.inj ho
      exact .inl (by decide)
    | j + 2 => cases ho
  · have ht : 0 < Sample.spec.semantics.length := by decide
    have hthemes : Sample.spec.themes.keys = [.text "day", .text "night"] := rfl
    have hlayers : Sample.spec.layers.keys = [.text "root", .text "card"] := rfl
    obtain ⟨y, v, hy, hv, _, hstep⟩ := hbuild Sample.isKeyed_document Sample.compile_document
      Sample.build_spec _ (List.getElem_mem ht) _ List.mem_cons_self (.text "day")
      (hthemes ▸ List.mem_cons_self) (.text "12px") List.mem_cons_self (.text "card")
      (hlayers ▸ List.mem_cons_of_mem _ List.mem_cons_self)
    -- the only override of the color applies here
    have hday : Override.Settles
        (Sample.spec.semantics[0].2.basePass.made Sample.spec Sample.engine)
        Sample.spec.semantics[0].2.basePass.overrides Sample.spec.axes
        ⟨.text "day", .text "12px", .text "card"⟩ (some (.number 0)) := by
      refine .override (i := 0) (o := ⟨Choice.number 0, some [Atom.text "day"], none, none⟩)
        ⟨rfl, rfl, ?_⟩
      intro j o ho _ hj
      cases j with
      | zero => exact absurd rfl hj
      | succ j => cases ho
    have hy' := ((hsettles _ _ _ _ _).1 hy).symm.trans ((hsettles _ _ _ _ _).1 hday)
    rw [hy'] at hstep
    exact ⟨v, hv, hstep⟩

end Palette
