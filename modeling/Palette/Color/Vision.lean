import Palette.Color.Oklab

/-!
# Color vision deficiencies

How a color looks to an eye that lacks a kind of cone, or all of them.

* `Deficiency`     the four deficiencies, in the order in which they are treated;
* `Hex.simulate`   a color as seen under a deficiency.

Three of them replace a cone response by a mix of the other two; the fourth keeps lightness and
drops chroma.
-/

namespace Palette

inductive Deficiency where
  | deuteranopia
  | protanopia
  | tritanopia
  | achromatopsia
  deriving DecidableEq, Hashable, Repr, Inhabited

namespace Deficiency

/-- all deficiencies, in the order in which they are treated -/
def all : List Deficiency := [.deuteranopia, .protanopia, .tritanopia, .achromatopsia]

def name : Deficiency → String
  | .deuteranopia => "deuteranopia"
  | .protanopia => "protanopia"
  | .tritanopia => "tritanopia"
  | .achromatopsia => "achromatopsia"

def ofName? (s : String) : Option Deficiency := all.find? fun m => m.name == s

theorem mem_all (m : Deficiency) : m ∈ all := by cases m <;> simp [all]

theorem name_injective {m m' : Deficiency} (h : m.name = m'.name) : m = m' := by
  cases m <;> cases m' <;> first | rfl | (revert h; decide)

theorem ofName?_name (m : Deficiency) : ofName? m.name = some m := by
  cases m <;> decide

/-- linear light to tristimulus values -/
def linearToXyz : Matrix :=
  ⟨⟨0.4124564, 0.3575761, 0.1804375⟩, ⟨0.2126729, 0.7151522, 0.0721750⟩,
    ⟨0.0193339, 0.1191920, 0.9503041⟩⟩

/-- tristimulus values to cone responses -/
def xyzToCones : Matrix :=
  ⟨⟨0.4002, 0.7076, -0.0808⟩, ⟨-0.2263, 1.1653, 0.0457⟩, ⟨0.0, 0.0, 0.9182⟩⟩

/-- cone responses to tristimulus values -/
def conesToXyz : Matrix :=
  ⟨⟨1.8600, -1.1295, 0.2199⟩, ⟨0.3612, 0.6388, -0.0001⟩, ⟨0.0, 0.0, 1.0891⟩⟩

/-- tristimulus values to linear light -/
def xyzToLinear : Matrix :=
  ⟨⟨3.2404542, -1.5371385, -0.4985314⟩, ⟨-0.9692660, 1.8760108, 0.0415560⟩,
    ⟨0.0556434, -0.2040259, 1.0572252⟩⟩

/-- what the remaining cones make of a missing one; without cones there is no such map -/
def cones? : Deficiency → Option Matrix
  | .protanopia =>
    some ⟨⟨0.0, 1.05118, -0.05116⟩, ⟨0.0, 1.0, 0.0⟩, ⟨0.0, 0.0, 1.0⟩⟩
  | .deuteranopia =>
    some ⟨⟨1.0, 0.0, 0.0⟩, ⟨0.9513, 0.0, 0.0487⟩, ⟨0.0, 0.0, 1.0⟩⟩
  | .tritanopia =>
    some ⟨⟨1.0, 0.0, 0.0⟩, ⟨0.0, 1.0, 0.0⟩, ⟨-0.8674, 1.8673, 0.0⟩⟩
  | .achromatopsia => none

end Deficiency

namespace Hex
open Deficiency

def simulate (m : Deficiency) (h : Hex) : Hex :=
  match m.cones? with
  | some cones =>
    ofLinear (xyzToLinear.apply (conesToXyz.apply (cones.apply
      (xyzToCones.apply (linearToXyz.apply h.linear)))))
  | none => ofLinear (Oklab.toLinear ⟨h.oklab.x, 0.0, 0.0⟩)

end Hex
end Palette
