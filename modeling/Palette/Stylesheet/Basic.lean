import Palette.Color.Vision
import Palette.Document.Access

/-!
# Stylesheets

A stylesheet is a row of blocks. A block holds declarations for the elements that its selector
picks: those with a vision, inside them those with a theme, inside them those with a stack, each
of the three only if the selector names it.

* `Property.ofToken`   the variable of a color name: capitals in the part before the first hyphen
                       begin words of their own;
* `Property.ofTheme`, `Property.ofStep`   the variables of a theme and of a step of a ramp;
* `Selector`, `Declaration`, `Block`      the parts;
* `Stylesheet.text`    the text of a row of blocks.
-/

namespace Palette
namespace Property

/-- a capital as the start of a word -/
def hyphenated (c : Char) : List Char := if c.isUpper then ['-', c.toLower] else [c]

/-- a color name as words; what follows the first hyphen stays as it is -/
def words (cs : List Char) : List Char :=
  (cs.takeWhile (· != '-')).flatMap hyphenated ++ cs.dropWhile (· != '-')

def ofToken (token : String) : String := "--" ++ String.ofList (words token.toList)

def ofTheme (theme : String) : String := "--bg-" ++ theme

def ofStep (ramp step : String) : String := "--" ++ ramp ++ "-" ++ step

def surface : String := "--bg-surface"

example : ofToken "fgPrimary" = "--fg-primary" := by decide

example : ofToken "fgLink-onHover" = "--fg-link-onHover" := by decide

end Property

/-- which elements a block is for -/
structure Selector where
  vision : Option String
  theme : Option String
  stack : Option String
  deriving DecidableEq, Repr

namespace Selector

def root : Selector := ⟨none, none, none⟩

/-- the elements with a value of an attribute -/
def having (name value : String) : String := s!"[data-{name}=\"{value}\"]"

def parts (s : Selector) : List String :=
  (s.vision.map (having "vision")).toList ++ (s.theme.map (having "theme")).toList ++
    (s.stack.map (having "stack")).toList

def text (s : Selector) : String := if s.parts.isEmpty then ":root" else " ".intercalate s.parts

end Selector

/-- what a variable stands for: a value, or another variable -/
inductive Binding where
  | value (text : String)
  | variable (name : String)
  deriving DecidableEq, Repr

namespace Binding

def text : Binding → String
  | .value t => t
  | .variable name => s!"var({name})"

end Binding

structure Declaration where
  name : String
  binding : Binding
  deriving DecidableEq, Repr

namespace Declaration

def line (d : Declaration) : String := s!"  {d.name}: {d.binding.text};"

end Declaration

structure Block where
  selector : Selector
  declarations : List Declaration
  deriving DecidableEq, Repr

namespace Block

/-- the block of declarations, unless there are none -/
def of? (s : Selector) (ds : List Declaration) : Option Block :=
  if ds.isEmpty then none else some ⟨s, ds⟩

/-- the lines of a block, with an empty one at the end -/
def lines (b : Block) : List String :=
  (b.selector.text ++ " \x7b") :: b.declarations.map Declaration.line ++ ["\x7d", ""]

/-- what a block makes of a variable: its last declaration counts -/
def find? (b : Block) (name : String) : Option Binding :=
  (b.declarations.reverse.find? fun d => d.name == name).map Declaration.binding

end Block

namespace Stylesheet

def header : String := "/* AUTO-GENERATED FROM design tokens. Do not edit manually. */"

def text (blocks : List Block) : String :=
  "\n".intercalate ([header, ""] ++ blocks.flatMap Block.lines)

end Stylesheet
end Palette
