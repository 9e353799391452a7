import Palette.Color.Space
import Palette.Proofs.Color.Canonical
import Palette.Proofs.Color.Clamped
import Palette.Proofs.Outcome

/-!
# Conversions of finite components

What three finite components become in each of the spaces. Coordinates beyond the sRGB cube are
moved into it at the end of a conversion, and this never fails. What comes before may: a whole
number may be too large for a float, and a power may leave the range of floats.

* `Power.overflows`          powers that leave the range of floats;
* `Space.powers`             the powers that a conversion takes;
* `Takes`                    runs that fail exactly where a power does;
* `Coordinates`, `Space.coordinates`   coordinates before they are moved into the cube;
* `Coordinates.hex_clamped`  their color is that of the moved ones;
* `Space.takes_coordinates`  a conversion takes its powers, and fails for nothing else but a hue
                             without a direction;
* `Hex.ofValue_structured`   the color of a value with a space and components.
-/

namespace Palette
open Outcome Floating

/-! ## powers -/

/-- a power that is taken on the way to a color -/
structure Power where
  base : Float
  exponent : Float

/-- does a finite base leave the range of floats? -/
def Power.overflows (p : Power) : Bool :=
  p.base.isFinite && (Light.raised p.base p.exponent).isInf

/-- Does a run fail exactly where one of some powers leaves the range of floats? -/
structure Takes {α : Type} (ps : List Power) (x : Except Fault α) : Prop where
  ok : ps.any Power.overflows = false → ∃ a, x = .ok a
  overflow : ps.any Power.overflows = true → x = .error .overflow

namespace Takes
variable {α β : Type} {ps qs : List Power}

theorem of_ok (a : α) : Takes [] (.ok a : Except Fault α) :=
  ⟨fun _ => ⟨a, rfl⟩, fun h => nomatch h⟩

theorem power (x y : Float) : Takes [⟨x, y⟩] (Light.power x y) := by
  have hany : [⟨x, y⟩].any Power.overflows = Power.overflows ⟨x, y⟩ := by
    rw [List.any_cons, List.any_nil, Bool.or_false]
  refine ⟨fun h => ⟨Light.raised x y, ?_⟩, fun h => ?_⟩ <;> rw [hany] at h
  · exact if_neg (Bool.eq_false_iff.1 h)
  · exact if_pos h

/-- a run that follows a run fails where one of the two does -/
theorem bind {x : Except Fault α} {f : α → Except Fault β} (hx : Takes ps x)
    (hf : ∀ a, Takes qs (f a)) : Takes (ps ++ qs) (x >>= f) := by
  refine ⟨fun h => ?_, fun h => ?_⟩ <;> rw [List.any_append] at h
  · obtain ⟨hps, hqs⟩ := Bool.or_eq_false_iff.1 h
    obtain ⟨a, rfl⟩ := hx.ok hps
    exact (hf a).ok hqs
  · cases hps : ps.any Power.overflows with
    | true => exact bind_error.2 (.inl (hx.overflow hps))
    | false =>
      obtain ⟨a, rfl⟩ := hx.ok hps
      rw [hps, Bool.false_or] at h
      exact (hf a).overflow h

theorem map {x : Except Fault α} (hx : Takes ps x) (f : α → β) :
    Takes ps (x >>= fun a => pure (f a)) :=
  List.append_nil ps ▸ hx.bind fun a => of_ok (f a)

theorem ite {c : Prop} [Decidable c] {x y : Except Fault α} (hx : Takes ps x) (hy : Takes qs y) :
    Takes (if c then ps else qs) (if c then x else y) := by
  split
  · exact hx
  · exact hy

theorem mapM {f : Float → Except Fault Float} {g : Float → List Power}
    (h : ∀ c, Takes (g c) (f c)) (v : Triple) : Takes (v.toList.flatMap g) (v.mapM f) := by
  have hlist : v.toList.flatMap g = g v.x ++ (g v.y ++ g v.z) := by
    rw [Triple.toList, List.flatMap_cons, List.flatMap_cons, List.flatMap_singleton]
  rw [hlist]
  exact (h v.x).bind fun x => (h v.y).bind fun y => (h v.z).map (Triple.mk x y)

end Takes

/-! ## the powers of each space -/

namespace Oklab

def powers (lab : Triple) : List Power := (labToRoots.apply lab).toList.flatMap fun v => [⟨v, 3.0⟩]

theorem takes_toLinearAny (lab : Triple) : Takes (powers lab) (toLinearAny lab) :=
  (Takes.mapM (fun v => .power v 3.0) _).map _

end Oklab

namespace Space

/-- a dark channel is not raised -/
def displayPowers (c : Float) : List Power :=
  if c ≤ 0.04045 then [] else [⟨(c + 0.055) / 1.055, 2.4⟩]

def prophotoPowers (v : Float) : List Power := if v.abs ≤ 16.0 / 512.0 then [] else [⟨v.abs, 1.8⟩]

def rec2020Powers (v : Float) : List Power :=
  if v.abs < 0.018053968510807 * 4.5 then []
  else [⟨(v.abs + 1.09929682680944 - 1.0) / 1.09929682680944, 1.0 / 0.45⟩]

/-- a dark color has no power of its lightness -/
def labPowers (l a b : Float) : List Power :=
  let fy := (l + 16.0) / 116.0
  let last := [⟨fy - b / 200.0, 3.0⟩]
  [⟨a / 500.0 + fy, 3.0⟩] ++
    if 24389.0 / 27.0 * (216.0 / 24389.0) < l then [⟨fy, 3.0⟩] ++ last else last

/-- the opponent axes of a chroma and a hue -/
def axes (c h : Float) : Float × Float :=
  (c * (Oklab.radians h).cos, c * (Oklab.radians h).sin)

/-- the powers that are taken on the way from three coordinates to their color -/
def powers (s : Space) (v : Triple) : List Power :=
  match s with
  | .srgb | .srgbLinear | .hsl | .hwb | .xyzD65 | .xyzD50 => []
  | .oklab => Oklab.powers v
  | .oklch => Oklab.powers ⟨v.x, (axes v.y v.z).1, (axes v.y v.z).2⟩
  | .lab => labPowers v.x v.y v.z
  | .lch => labPowers v.x (axes v.y v.z).1 (axes v.y v.z).2
  | .displayP3 => v.toList.flatMap displayPowers
  | .a98 => v.toList.flatMap fun c => [⟨c.abs, 563.0 / 256.0⟩]
  | .prophoto => v.toList.flatMap prophotoPowers
  | .rec2020 => v.toList.flatMap rec2020Powers

theorem takes_linearizeAny (c : Float) : Takes (displayPowers c) (Light.linearizeAny c) :=
  (Takes.of_ok _).ite (.power _ _)

theorem takes_signedPower (v e : Float) : Takes [⟨v.abs, e⟩] (signedPower v e) :=
  (Takes.power _ _).map _

theorem takes_prophotoLinear (v : Float) : Takes (prophotoPowers v) (prophotoLinear v) :=
  (Takes.of_ok _).ite (takes_signedPower _ _)

theorem takes_rec2020Linear (v : Float) : Takes (rec2020Powers v) (rec2020Linear v) :=
  (Takes.of_ok _).ite ((Takes.power _ _).map _)

theorem takes_ofLab (l a b : Float) : Takes (labPowers l a b) (ofLab l a b) := by
  -- the two opponent values take a power each, and the lightness between them if it is not low
  refine ((Takes.power _ _).map _).bind fun x => Takes.ite ?_ ?_
  · exact (Takes.power _ _).bind fun y => ((Takes.power _ _).map _).map _
  · exact ((Takes.power _ _).map _).map _

/-- only the angle of an infinite hue is infinite -/
theorem isInf_of_radians {h : Float} (hr : (Oklab.radians h).isInf = true) : h.isInf = true := by
  cases hu : h.toModel.unpack with
  | infinity =>
    show h.toModel.unpack.isInf = true
    rw [hu]
    rfl
  | notANumber =>
    have hnumber : (Oklab.radians h).toModel =
        Float.Model.pack (.mul .binary64 .notANumber (Oklab.pi / 180.0).toModel.unpack) :=
      congrArg (fun u => Float.Model.pack (.mul .binary64 u (Oklab.pi / 180.0).toModel.unpack)) hu
    have hinf : (Oklab.radians h).toModel.isInf = true := hr
    rw [hnumber] at hinf
    exact absurd hinf (by decide)
  | _ =>
    have hfinite : h.isFinite = true := by
      show h.toModel.unpack.isFinite = true
      rw [hu]
      rfl
    have hradians : (Oklab.radians h).isFinite = true :=
      isFinite_mul hfinite (by decide) (by decide)
    exact absurd hr (Bool.eq_false_iff.1 (isInf_of_isFinite hradians))

theorem polar_eq {c h : Float} (hr : (Oklab.radians h).isInf = false) :
    polar c h = .ok (axes c h) := if_neg (Bool.eq_false_iff.1 hr)

end Space

/-! ## coordinates -/

/-- coordinates in the sRGB cube or beyond it: channels, or linear light -/
inductive Coordinates where
  | channels (v : Triple)
  | light (v : Triple)

namespace Coordinates

def triple : Coordinates → Triple
  | channels v => v
  | light v => v

/-- the channels of coordinates -/
def encoded : Coordinates → Triple
  | channels v => v
  | light v => v.map fun c => Light.delinearize (Light.clamp c)

def hex (u : Coordinates) : Hex := Hex.ofChannels u.encoded

/-- each coordinate moved into the interval from zero to one -/
def clamped : Coordinates → Coordinates
  | channels v => channels (v.map Light.clamp)
  | light v => light (v.map Light.clamp)

def InCube (u : Coordinates) : Prop := ∀ c ∈ u.triple.toList, 0.0 ≤ c ∧ c ≤ 1.0

/-- coordinates beyond the cube have the color of the moved ones -/
theorem hex_clamped (u : Coordinates) : u.clamped.hex = u.hex := by
  cases u with
  | channels v =>
    simp only [clamped, hex, encoded, Hex.ofChannels, Triple.map, Light.byte, Light.clamp_clamp]
  | light v => simp only [clamped, hex, encoded, Triple.map, Light.clamp_clamp]

theorem inCube_clamped (u : Coordinates) : u.clamped.InCube := by
  have htriple : u.clamped.triple.toList = u.triple.toList.map Light.clamp := by cases u <;> rfl
  intro c hc
  rw [htriple] at hc
  obtain ⟨d, _, rfl⟩ := List.mem_map.1 hc
  exact Light.clamp_bounds d

end Coordinates

namespace Space

/-- tristimulus values under print light to linear light -/
def printLight (v : Triple) : Triple := xyzToLinear.apply (adapt.apply v)

/-- what three coordinates become before they are moved into the cube -/
def coordinates (s : Space) (v : Triple) : Except Fault Coordinates :=
  match s with
  | .srgb => return .channels v
  | .srgbLinear => return .light v
  | .hsl => return .channels (ofHsl v.x (v.y / 100.0) (v.z / 100.0))
  | .hwb => return .channels (ofHwb v.x (v.y / 100.0) (v.z / 100.0))
  | .oklab => return .light (← Oklab.toLinearAny v)
  | .oklch => do
    let (a, b) ← polar v.y v.z
    return .light (← Oklab.toLinearAny ⟨v.x, a, b⟩)
  | .lab => return .light (printLight (← ofLab v.x v.y v.z))
  | .lch => do
    let (a, b) ← polar v.y v.z
    return .light (printLight (← ofLab v.x a b))
  | .displayP3 =>
    return .light (xyzToLinear.apply (p3ToXyz.apply (← v.mapM Light.linearizeAny)))
  | .a98 =>
    return .light (xyzToLinear.apply
      (a98ToXyz.apply (← v.mapM fun c => signedPower c (563.0 / 256.0))))
  | .prophoto => return .light (printLight (prophotoToXyz.apply (← v.mapM prophotoLinear)))
  | .rec2020 => return .light (xyzToLinear.apply (rec2020ToXyz.apply (← v.mapM rec2020Linear)))
  | .xyzD65 => return .light (xyzToLinear.apply v)
  | .xyzD50 => return .light (printLight v)

theorem toHex_eq (s : Space) (v : Triple) : s.toHex v = Coordinates.hex <$> s.coordinates v := by
  cases s <;> simp only [coordinates, map_bind, map_pure] <;> rfl

/-- is the last coordinate a hue whose direction is taken? -/
def isPolar (s : Space) : Bool := s = .oklch || s = .lch

/-- A conversion fails exactly where one of its powers leaves the range of floats, if its hue has a
direction. -/
theorem takes_coordinates (s : Space) (v : Triple)
    (hz : s.isPolar = true → (Oklab.radians v.z).isInf = false) :
    Takes (s.powers v) (s.coordinates v) := by
  cases s with
  | srgb | srgbLinear | hsl | hwb | xyzD65 | xyzD50 => exact .of_ok _
  | oklab => exact (Oklab.takes_toLinearAny v).map _
  | oklch =>
    rw [coordinates, polar_eq (hz rfl)]
    exact (Oklab.takes_toLinearAny _).map _
  | lab => exact (takes_ofLab _ _ _).map _
  | lch =>
    rw [coordinates, polar_eq (hz rfl)]
    exact (takes_ofLab _ _ _).map _
  | displayP3 => exact (Takes.mapM takes_linearizeAny v).map _
  | a98 => exact (Takes.mapM (fun c => takes_signedPower c _) v).map _
  | prophoto => exact (Takes.mapM takes_prophotoLinear v).map _
  | rec2020 => exact (Takes.mapM takes_rec2020Linear v).map _

/-- and it fails if its hue has none -/
theorem coordinates_of_isPolar {s : Space} {v : Triple} (hs : s.isPolar = true)
    (hr : (Oklab.radians v.z).isInf = true) : s.coordinates v = .error (.unreadable .angle) := by
  have hpolar : polar v.y v.z = .error (.unreadable .angle) := if_pos hr
  cases s with
  | oklch | lch =>
    rw [coordinates, hpolar]
    rfl
  | _ => cases hs

end Space

/-! ## values with components -/

/-- a component: a whole number of any size, or a finite float -/
inductive Component where
  | whole (n : Int)
  | float (x : Float) (finite : x.isFinite = true)

namespace Component

def document : Component → Document
  | whole n => .int n
  | float x _ => .float x

def toFloat : Component → Float
  | whole n => Dyadic.toFloat n
  | float x _ => x

/-- is the component in the range of floats? -/
def Fits : Component → Prop
  | whole n => n.natAbs < tooLarge
  | float _ _ => True

theorem isInf_toFloat {c : Component} (h : c.Fits) : c.toFloat.isInf = false := by
  cases c with
  | whole n => exact isInf_of_isFinite ((isFinite_toFloat_iff n).2 h)
  | float x finite => exact isInf_of_isFinite finite

theorem component_of_fits {c : Component} (h : c.Fits) :
    Space.component c.document = .ok c.toFloat := by
  cases c with
  | whole n =>
    have hinf : ¬(Dyadic.toFloat n).isInf = true := fun hinf =>
      absurd ((isInf_toFloat_iff n).1 hinf) (Nat.not_le.2 h)
    exact if_neg hinf
  | float x _ => rfl

theorem component_of_not_fits {c : Component} (h : ¬c.Fits) :
    Space.component c.document = .error .overflow := by
  cases c with
  | whole n => exact if_pos ((isInf_toFloat_iff n).2 (Nat.not_lt.1 h))
  | float x _ => exact absurd trivial h

end Component

namespace Space

/-- the color of three components: they are read in order, and converted -/
def ofComponents (s : Space) (a b c : Component) : Except Fault Hex := do
  let x ← component a.document
  let y ← component b.document
  let z ← component c.document
  s.toHex ⟨x, y, z⟩

theorem ofComponents_of_fits (s : Space) {a b c : Component} (ha : a.Fits) (hb : b.Fits)
    (hc : c.Fits) : s.ofComponents a b c = s.toHex ⟨a.toFloat, b.toFloat, c.toFloat⟩ := by
  rw [ofComponents, Component.component_of_fits ha, Component.component_of_fits hb,
    Component.component_of_fits hc]
  rfl

/-- a component that is too large is met before the conversion -/
theorem ofComponents_of_not_fits (s : Space) {a b c : Component}
    (hnot : ¬(a.Fits ∧ b.Fits ∧ c.Fits)) : s.ofComponents a b c = .error .overflow := by
  rw [ofComponents]
  by_cases ha : a.Fits
  · rw [Component.component_of_fits ha]
    by_cases hb : b.Fits
    · rw [Component.component_of_fits hb,
        Component.component_of_not_fits fun hc => hnot ⟨ha, hb, hc⟩]
      rfl
    · rw [Component.component_of_not_fits hb]
      rfl
  · rw [Component.component_of_not_fits ha]
    rfl

/-- Do three components stay in the range of floats on the way to their color? -/
structure Converts (s : Space) (a b c : Component) : Prop where
  fits : a.Fits ∧ b.Fits ∧ c.Fits
  powers : (s.powers ⟨a.toFloat, b.toFloat, c.toFloat⟩).any Power.overflows = false

end Space

namespace Hex

/-- Does a value give a color by a space and components? No text wins over them. -/
structure Structured (members : Entries Atom Document) (s : Space) (a b c : Component) : Prop where
  hex : ∀ d, members.lookup (.text "hex") = some d → d.truthy = false
  space : members.lookup (.text "colorSpace") = some (.text s.name)
  components : members.lookup (.text "components") =
    some (.list [a.document, b.document, c.document])

variable {members : Entries Atom Document} {s : Space} {a b c : Component}

theorem Structured.ofValue_eq (h : Structured members s a b c) :
    ofValue (.map members) = s.ofComponents a b c := by
  have hspace : Space.ofDocument? (.text s.name) = some s := Space.ofName?_name s
  have hparts : ofParts ((members.lookup (.text "colorSpace")).getD .null)
      ((members.lookup (.text "components")).getD .null) = s.ofComponents a b c := by
    rw [h.space, h.components, Option.getD_some, Option.getD_some, ofParts, hspace]
    rfl
  rw [← hparts, ofValue]
  split
  · next d hd => rw [if_neg (Bool.eq_false_iff.1 (h.hex d hd))]
  · rfl

/-- The color of a space and three components is the one of their coordinates, moved into the sRGB
cube, unless a component or a power on the way is out of the range of floats. -/
theorem ofValue_structured (h : Structured members s a b c) :
    (s.Converts a b c → ∃ u, s.coordinates ⟨a.toFloat, b.toFloat, c.toFloat⟩ = .ok u ∧
      ofValue (.map members) = .ok u.clamped.hex ∧ u.clamped.InCube ∧
      Rounds u.clamped.hex u.clamped.encoded ∧ IsCanonical u.clamped.hex.text) ∧
    (¬s.Converts a b c → ofValue (.map members) = .error .overflow) := by
  rw [h.ofValue_eq]
  by_cases hfits : a.Fits ∧ b.Fits ∧ c.Fits
  · obtain ⟨ha, hb, hc⟩ := hfits
    -- the last component may be a hue, and no finite hue lacks a direction
    have htakes := s.takes_coordinates ⟨a.toFloat, b.toFloat, c.toFloat⟩ fun _ =>
      Bool.eq_false_iff.2 fun hr =>
        Bool.eq_false_iff.1 (Component.isInf_toFloat hc) (Space.isInf_of_radians hr)
    rw [s.ofComponents_of_fits ha hb hc, Space.toHex_eq]
    constructor
    · intro hconverts
      obtain ⟨u, hu⟩ := htakes.ok hconverts.powers
      refine ⟨u, hu, ?_, u.inCube_clamped, rounds_ofChannels _, isCanonical_text _⟩
      rw [hu, u.hex_clamped]
      rfl
    · intro hnot
      have hpower : (s.powers ⟨a.toFloat, b.toFloat, c.toFloat⟩).any Power.overflows = true :=
        Bool.of_not_eq_false fun hpowers => hnot ⟨⟨ha, hb, hc⟩, hpowers⟩
      rw [htakes.overflow hpower]
      rfl
  · exact ⟨fun hconverts => absurd hconverts.fits hfits, fun _ => s.ofComponents_of_not_fits hfits⟩

/-- lightness alone is converted, and a whole number of 310 digits is not -/
theorem ofValue_structured_lightness :
    (∃ h, ofValue (.record [("colorSpace", .text "oklab"),
        ("components", .list [.int 1, .float 0.0, .int 0])]) = .ok h ∧ IsCanonical h.text) ∧
      ofValue (.record [("colorSpace", .text "srgb"),
        ("components", .list [.int (pow10 309), .int (-pow10 309), .float 0.5])]) =
        .error .overflow := by
  have hlight : Structured [(.text "colorSpace", .text "oklab"),
      (.text "components", .list [.int 1, .float 0.0, .int 0])] .oklab (.whole 1)
      (.float 0.0 rfl) (.whole 0) := ⟨fun _ hd => (nomatch hd), rfl, rfl⟩
  have hvast : Structured [(.text "colorSpace", .text "srgb"),
      (.text "components", .list [.int (pow10 309), .int (-pow10 309), .float 0.5])] .srgb
      (.whole (pow10 309)) (.whole (-pow10 309)) (.float 0.5 (by decide)) :=
    ⟨fun _ hd => (nomatch hd), rfl, rfl⟩
  constructor
  · obtain ⟨u, _, hu, _, _, hcanonical⟩ := (ofValue_structured hlight).1 (by
      refine ⟨⟨?_, trivial, ?_⟩, ?_⟩
      · show 1 < tooLarge
        decide +kernel
      · show 0 < tooLarge
        decide +kernel
      · decide)
    exact ⟨_, hu, hcanonical⟩
  · refine (ofValue_structured hvast).2 fun hconverts => ?_
    have hfits := hconverts.fits.1
    rw [Component.Fits, Int.natAbs_natCast] at hfits
    exact absurd hfits (by decide +kernel)

end Hex
end Palette
