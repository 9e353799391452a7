import Palette.Search
import Palette.Spec.Basic

/-!
# Rules

A rule gives the step of a color in one context. Rules arise where a default step needs
replacing; contexts without a rule take the default step.

* `Site`            a context with its theme and surface; `Site.list` those of some themes;
* `Site.context`    what evaluations at a site depend on;
* `Rules.auto`      the rules for a default step;
* `Rules.check`     the faults that any number in place of the default step and any name of a font
                    size bring;
* `Rules.generate`  the rules for a default step, or the first fault.
-/

namespace Palette

/-- a context with its theme and surface -/
structure Site where
  themeName : Atom
  theme : Theme
  stack : Atom
  surface : Surface
  fontSize : Atom

namespace Site

def setting (s : Site) : Setting Atom := ⟨s.themeName, s.fontSize, s.stack⟩

/-- the sites of a theme, by stacks and then by font sizes; a stack without a surface has none -/
def ofTheme (layers fontSizes : List Atom) (name : Atom) (t : Theme) : List Site :=
  layers.flatMap fun k =>
    match t.surfaces.lookup k with
    | some u => fontSizes.map fun f => ⟨name, t, k, u, f⟩
    | none => []

/-- the sites of some themes, theme by theme -/
def list (themes : Entries Atom Theme) (layers fontSizes : List Atom) : List Site :=
  themes.flatMap fun t => ofTheme layers fontSizes t.1 t.2

/-- the same at stacks that may be left out; those for which the theme has surfaces stand for
them -/
def listAt (themes : Entries Atom Theme) (layers : Option (List Atom)) (fontSizes : List Atom) :
    List Site :=
  themes.flatMap fun t => ofTheme (layers.getD t.2.surfaces.keys) fontSizes t.1 t.2

def context (s : Site) (target : Target) (level : Level) : Context :=
  ⟨FontSize.px s.fontSize, target, level⟩

def passes (s : Site) (e : Engine) (target : Target) (level : Level) (h : Hex) : Bool :=
  e.passes s.surface.hex (s.context target level) h

/-- where to look first for a color that passes at a site -/
def direction (s : Site) (e : Engine) : Direction :=
  e.direction s.surface.hex s.surface.hex.luminance

def mirrored (s : Site) (strategy : Strategy) : Bool :=
  strategy.mirrors && s.theme.elevation == .lighter

end Site

/-- what rules depend on besides the sites -/
structure Demand where
  engine : Engine
  ramp : Ramp
  default : Int
  target : Target
  level : Level
  strategy : Strategy

namespace Rules

/-- the step that is taken at a site in place of the default step -/
def stepAt? (d : Demand) (s : Site) : Option Int :=
  d.ramp.chosen? (s.passes d.engine d.target d.level) d.default (s.mirrored d.strategy)
    (d.target == .decorative) (s.direction d.engine)

/-- the rule at a site, if another step than the default one is taken there -/
def ruleAt? (d : Demand) (s : Site) : Option (Setting Atom × Int) :=
  match stepAt? d s with
  | some i => if i = d.default then none else some (s.setting, i)
  | none => none

/-- the rules for a default step, each context once -/
def auto (d : Demand) (sites : List Site) : Entries (Setting Atom) Int :=
  Entries.ofList (sites.filterMap (ruleAt? d))

/-- the color at a number counted from the end below zero -/
def colorOf (r : Ramp) (i : Int) : Except Fault Hex :=
  match r.color? i with
  | some h => .ok h
  | none => .error .outOfRange

/-- the faults that the rule at a site brings -/
def check (d : Demand) (s : Site) : Except Fault Unit := do
  let _ ← FontSize.pixels s.fontSize
  if s.mirrored d.strategy && d.target == .decorative then return
  let color ← colorOf d.ramp d.default
  d.engine.admits (s.context d.target d.level)
  if s.mirrored d.strategy && !s.passes d.engine d.target d.level color then
    let _ ← colorOf d.ramp (d.ramp.last - d.default)

/-- the rules for a default step on some themes, or the first fault -/
def generate (d : Demand) (themes : Entries Atom Theme) (layers : Option (List Atom))
    (fontSizes : List Atom) : Except Fault (Entries (Setting Atom) Int) := do
  let sites := Site.listAt themes layers fontSizes
  sites.forM (check d)
  return auto d sites

end Rules
end Palette
