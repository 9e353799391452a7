import Palette.Archive.Resolve
import Palette.Stylesheet.Basic

/-!
# The stylesheet of an archive

The root declares every color of the default theme at the base level, the surface there, the
bases of all themes and the steps of all ramps. Every other block declares only what differs
from the elements around it:

* `themeBlock`    a theme, against the root; with its surface in any case;
* `stackBlock?`   a stack inside a theme, against the theme; with the surface, if there is one;
* `visionBlocks`  a vision against the root, each theme inside it against the theme alone, and
                  each stack inside that against the stack inside the theme alone.

`Stylesheet.ofArchive` gives these blocks, or the fault of a name that is no text or of a
fallback theme that cannot be a key.
-/

namespace Palette

/-- where colors are shown -/
structure Place where
  theme : Atom
  stack : Atom
  vision : Atom

structure Showing where
  archive : Archive
  /-- the names of the archive -/
  tokens : List Atom
  fontSize : Atom
  defaultTheme : Atom

namespace Showing

/-- the archive with the theme asked for, or the first one -/
def of (a : Archive) (fontSize : Atom) (theme : Option Atom) : Showing :=
  { archive := a, tokens := a.names, fontSize
    defaultTheme := theme.getD (a.themes.keys.head?.getD (.text "")) }

def lookup (q : Showing) (p : Place) : Lookup := ⟨q.fontSize, p.theme, p.stack, p.vision⟩

def color (q : Showing) (p : Place) (name : String) : Document :=
  q.archive.answer (.text name) (q.lookup p)

def base : Atom := .text "root"

def atBase (theme : Atom) : Place := ⟨theme, base, Archive.plain⟩

def under (p : Place) (m : Deficiency) : Place := { p with vision := .text m.name }

def names (q : Showing) : List String := q.tokens.filterMap fun n => n.document.text?

/-- the stacks but for the base level -/
def layers (q : Showing) : List Atom := q.archive.layers.keys.filter fun s => !(s == base)

def word (a : Atom) : String := a.document.shown

def declaration (q : Showing) (p : Place) (name : String) : Declaration :=
  ⟨Property.ofToken name, .value (q.color p name).shown⟩

/-- the declarations of the colors that differ at two places -/
def differences (q : Showing) (p around : Place) : List Declaration :=
  (q.names.filter fun n => (q.color p n).differs (q.color around n)).map (q.declaration p)

/-- the declaration of the surface of a theme at a stack, if there is one -/
def surface? (t : StoredTheme) (stack : Atom) : Option Declaration :=
  (t.surfaces.lookup stack).map fun u =>
    ⟨Property.surface, .variable (Property.ofStep t.ramp.shown u.step.shown)⟩

/-- the declaration of the surface of a theme at the base level, or else of the theme itself -/
def baseSurface (name : Atom) (t : StoredTheme) : Declaration :=
  (surface? t base).getD ⟨Property.surface, .variable (Property.ofTheme (word name))⟩

def themeDeclarations (q : Showing) : List Declaration :=
  q.archive.themes.map fun t => ⟨Property.ofTheme (word t.1), .value t.2.hex.shown⟩

def rampDeclarations (q : Showing) : List Declaration :=
  q.archive.ramps.flatMap fun r =>
    r.2.steps.map fun s => ⟨Property.ofStep (word r.1) s.index.shown, .value s.hex.shown⟩

def rootBlock (q : Showing) : Block :=
  { selector := Selector.root
    declarations :=
      q.names.map (q.declaration (atBase q.defaultTheme)) ++
      ((q.archive.themes.lookup q.defaultTheme).map (baseSurface q.defaultTheme)).toList ++
      q.themeDeclarations ++ q.rampDeclarations }

def themeBlock (q : Showing) (t : Atom × StoredTheme) : Block :=
  { selector := ⟨none, some (word t.1), none⟩
    declarations :=
      q.differences (atBase t.1) (atBase q.defaultTheme) ++ [baseSurface t.1 t.2] }

/-- the block of a stack inside a theme -/
def stackBlock? (q : Showing) (t : Atom × StoredTheme) (stack : Atom) : Option Block :=
  Block.of? ⟨none, some (word t.1), some (word stack)⟩
    (q.differences { atBase t.1 with stack } (atBase t.1) ++ (surface? t.2 stack).toList)

/-- the block of a place under a vision, against a place around it -/
def visionBlock? (q : Showing) (m : Deficiency) (theme stack : Option String) (p around : Place) :
    Option Block :=
  Block.of? ⟨some m.name, theme, stack⟩ (q.differences (under p m) around)

/-- the blocks of a theme under a vision: its own, and those of its stacks -/
def visionThemeBlocks (q : Showing) (m : Deficiency) (theme : Atom) : List Block :=
  (q.visionBlock? m (some (word theme)) none (atBase theme) (atBase theme)).toList ++
    q.layers.filterMap fun stack =>
      let p : Place := { atBase theme with stack }
      q.visionBlock? m (some (word theme)) (some (word stack)) p p

def visionBlocks (q : Showing) (m : Deficiency) : List Block :=
  (q.visionBlock? m none none (atBase q.defaultTheme) (atBase q.defaultTheme)).toList ++
    q.archive.themes.flatMap fun t => q.visionThemeBlocks m t.1

/-- the deficiencies for which there are variants -/
def visions (q : Showing) : List Deficiency :=
  let present := q.archive.variants.toList.map fun e => e.1.vision
  Deficiency.all.filter fun m => present.contains (.text m.name)

def blocks (q : Showing) : List Block :=
  [q.rootBlock] ++
  (q.archive.themes.filter fun t => t.1.differs q.defaultTheme).map q.themeBlock ++
  (q.archive.themes.flatMap fun t => q.layers.filterMap (q.stackBlock? t)) ++
  q.visions.flatMap q.visionBlocks

/-! ## faults -/

/-- the places whose colors are shown, besides those of the root block -/
def places (q : Showing) : List Place :=
  let plain := q.archive.themes.keys.flatMap fun t =>
    (base :: q.layers).map fun stack => { atBase t with stack }
  plain ++ q.visions.flatMap fun m => (atBase q.defaultTheme :: plain).map fun p => under p m

/-- the colors of all names at a place are asked for -/
def ask (q : Showing) (p : Place) : Except Fault Unit :=
  q.tokens.forM fun n => do
    let _ ← q.archive.resolve n (q.lookup p)

def askNames (q : Showing) : Except Fault Unit :=
  if q.tokens.all fun n => n.document.isText then .ok () else .error .notMap

def check (q : Showing) : Except Fault Unit := do
  q.ask (atBase q.defaultTheme)
  q.askNames
  q.places.forM q.ask

end Showing

namespace Stylesheet

/-- the blocks of the stylesheet of an archive -/
def ofArchive (a : Archive) (fontSize : Atom) (theme : Option Atom) :
    Except Fault (List Block) := do
  let q := Showing.of a fontSize theme
  q.check
  return q.blocks

end Stylesheet
end Palette
