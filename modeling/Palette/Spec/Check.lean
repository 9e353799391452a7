import Palette.Color.Space
import Palette.Spec.Basic
import Palette.Spec.Problem

/-!
# Checking specifications

All problems of a value that is meant to be a specification, in the order of its parts: ramps,
themes, semantic colors, configuration. The check looks at every part, so a caller sees all
problems at once; parts that depend on a broken part are left out.

* `Spec.problems`          the problems;
* `Spec.colorProblems`     those of a color,
* `Spec.themeProblems`     of a theme,
* `Spec.semanticProblems`  of a semantic color,
* `Spec.configProblems`    of the configuration,
* `Spec.derivedProblems`   of names that states derive.
-/

namespace Palette.Spec

def complain (path : String) (c : Complaint) : List Problem := [⟨path, c⟩]

/-- a complaint unless a condition holds -/
def demand (ok : Bool) (path : String) (c : Complaint) : List Problem :=
  if ok then [] else complain path c

/-- what references may name: the ramps as they are declared, and the themes -/
structure Scope where
  ramps : Entries Atom Document
  themes : List Atom

/-- the members of a map, none for other values -/
def membersOf : Document → Entries Atom Document
  | .map members => members
  | _ => []

/-- the length of the ramp that a value names -/
def Scope.rampLength? (sc : Scope) (name : Document) : Option Nat :=
  match name.text?.bind fun n => sc.ramps.lookup (.text n) with
  | some (.list steps) => some steps.length
  | _ => none

/-- is the value a step of a ramp of some length? A boolean is not. -/
def isStep (length : Nat) : Document → Bool
  | .int n => 0 ≤ n && n < length
  | _ => false

def isTexts : Document → Bool
  | .list items => items.all Document.isText
  | _ => false

/-! ## colors -/

def isComponent : Document → Bool
  | .text s => s == "none"
  | .int _ => true
  | .float _ => true
  | _ => false

/-- the problems of a color space and components -/
def partsProblems (members : Entries Atom Document) (path : String) : List Problem :=
  let space := (members.lookup (.text "colorSpace")).getD .null
  demand (Space.ofDocument? space).isSome (path ++ ".colorSpace") (.unknownSpace space) ++
  match members.lookup (.text "components") with
  | some (.list [a, b, c]) =>
    demand ([a, b, c].all isComponent) (path ++ ".components") .notComponents
  | _ => complain (path ++ ".components") .notThree

mutual

def colorProblems (path : String) : Document → List Problem
  | .text s => demand (Hex.ofText? s).isSome path (.notHex s)
  | .map members =>
    match hexProblems path members with
    | some ps => ps
    | none => partsProblems members path
  | _ => complain path .notColor

/-- the problems of the member `hex`, if it is there and not null -/
def hexProblems (path : String) : Entries Atom Document → Option (List Problem)
  | [] => none
  | (k, d) :: rest =>
    if .text "hex" == k then
      (if d.isNull then none else some (colorProblems (path ++ ".hex") d))
    else hexProblems path rest

end

def rampProblems (name : Atom) (d : Document) : List Problem :=
  let path := s!"primitives.{name.shown}"
  match d with
  | .list (s :: ss) =>
    (s :: ss).zipIdx.flatMap fun e => colorProblems s!"{path}[{e.2}]" e.1
  | _ => complain path .notFilledList

/-! ## overrides -/

/-- the names that a filter gives, if it is a name or a filled list of names -/
def filterNames? : Document → Option (List String)
  | .text s => some [s]
  | .list (d :: ds) => (d :: ds).mapM Document.text?
  | _ => none

/-- the problems of a filter whose names have to pass a test -/
def filterProblems (members : Entries Atom Document) (key path : String)
    (ok : String → Bool) (c : String → Complaint) : List Problem :=
  match members.lookup (.text key) with
  | none => []
  | some d =>
    match filterNames? d with
    | none => complain (path ++ "." ++ key) .notNames
    | some names => names.flatMap fun n => demand (ok n) (path ++ "." ++ key) (c n)

/-- the problems of an override on a ramp of some length -/
def overrideProblems (sc : Scope) (length : Nat) (path : String) : Document → List Problem
  | .map members =>
    let step := (members.lookup (.text "step")).getD .null
    demand (isStep length step) (path ++ ".step") (.outsideLength step length) ++
    filterProblems members "bg" path (sc.themes.contains <| .text ·) .unknownTheme ++
    filterProblems members "fontSize" path FontSize.all.contains .unknownSize ++
    filterProblems members "stack" path (fun _ => true) .unknownSize
  | _ => complain path .notMap

/-- the problems of a list of overrides that may be missing or null -/
def overridesProblems (sc : Scope) (length : Nat) (path : String) :
    Option Document → List Problem
  | none => []
  | some .null => []
  | some (.list items) =>
    items.zipIdx.flatMap fun e => overrideProblems sc length s!"{path}[{e.2}]" e.1
  | some _ => complain path .notList

/-! ## semantic colors -/

/-- the problems of an entry with a ramp, a default step and overrides, all of them optional -/
def variantProblems (sc : Scope) (length : Nat) (path : String) : Document → List Problem
  | .map members =>
    let rest (length : Nat) : List Problem :=
      (match members.lookup (.text "defaultStep") with
        | some d => demand (isStep length d) (path ++ ".defaultStep") (.outside d)
        | none => []) ++
      overridesProblems sc length (path ++ ".overrides") (members.lookup (.text "overrides"))
    match members.lookup (.text "ramp") with
    | none => rest length
    | some name =>
      match sc.rampLength? name with
      | some found => rest found
      | none => complain (path ++ ".ramp") (.unknownRamp name)
  | _ => complain path .notMap

/-- the problems of a map of such entries that may be missing or null -/
def blockProblems (sc : Scope) (length : Nat) (path : String) : Option Document → List Problem
  | none => []
  | some .null => []
  | some (.map entries) =>
    entries.flatMap fun e => variantProblems sc length (path ++ "." ++ e.1.shown) e.2
  | some _ => complain path .notMap

def interactionProblems (sc : Scope) (length : Nat) (path : String) : Document → List Problem
  | .map members =>
    let step := (members.lookup (.text "step")).getD .null
    demand (isStep length step) (path ++ ".step") (.outside step) ++
    overridesProblems sc length (path ++ ".overrides") (members.lookup (.text "overrides"))
  | _ => complain path .notMap

/-- the problems of a map of states that may be missing or null -/
def interactionsProblems (sc : Scope) (length : Nat) (path : String) :
    Option Document → List Problem
  | none => []
  | some .null => []
  | some (.map entries) =>
    entries.flatMap fun e => interactionProblems sc length (path ++ "." ++ e.1.shown) e.2
  | some _ => complain path .notMap

def optional (ok : Document → Bool) : Option Document → Bool
  | none => true
  | some d => ok d

def isBool : Document → Bool
  | .bool _ => true
  | _ => false

def semanticProblems (sc : Scope) (path : String) : Document → List Problem
  | .map members =>
    match members.lookup (.text "ramp") with
    | some (.text name) =>
      match sc.rampLength? (.text name) with
      | none => complain (path ++ ".ramp") (.unknownRamp (.text name))
      | some length =>
        let step := (members.lookup (.text "defaultStep")).getD .null
        demand (isStep length step) (path ++ ".defaultStep") (.outsideRamp step name length) ++
        demand (optional isBool (members.lookup (.text "decorative")))
          (path ++ ".decorative") .notBool ++
        overridesProblems sc length (path ++ ".overrides") (members.lookup (.text "overrides")) ++
        interactionsProblems sc length (path ++ ".interactions")
          (members.lookup (.text "interactions")) ++
        blockProblems sc length (path ++ ".vision") (members.lookup (.text "vision")) ++
        blockProblems sc length (path ++ ".tone") (members.lookup (.text "tone"))
    | _ => complain (path ++ ".ramp") .notText
  | _ => complain path .notMap

/-! ## themes -/

/-- the problems of the lists of names of a theme or of a tone of it -/
def namesProblems (members : Entries Atom Document) (path : String) : List Problem :=
  ["fallback", "aliases"].flatMap fun key =>
    demand (optional isTexts (members.lookup (.text key))) (path ++ "." ++ key) .notTexts

/-- the problems of a tone of a theme; a ramp that it does not name is that of the theme -/
def themeToneProblems (sc : Scope) (ramp : Document) (path : String) : Document → List Problem
  | .map members =>
    let name := (members.lookup (.text "ramp")).getD ramp
    (match sc.rampLength? name with
      | none => complain (path ++ ".ramp") (.unknownRamp name)
      | some length =>
        match members.lookup (.text "step") with
        | some d => demand (isStep length d) (path ++ ".step") (.outside d)
        | none => []) ++
    namesProblems members path
  | _ => complain path .notMap

def themeProblems (sc : Scope) (path : String) : Document → List Problem
  | .map members =>
    (match members.lookup (.text "ramp") with
      | some (.text name) =>
        match sc.rampLength? (.text name) with
        | none => complain (path ++ ".ramp") (.unknownRamp (.text name))
        | some length =>
          let step := (members.lookup (.text "step")).getD .null
          demand (isStep length step) (path ++ ".step") (.outsideRamp step name length)
      | _ => complain (path ++ ".ramp") .notText) ++
    namesProblems members path ++
    (match members.lookup (.text "tone") with
      | none => []
      | some .null => []
      | some (.map tones) => tones.flatMap fun e =>
        themeToneProblems sc ((members.lookup (.text "ramp")).getD .null)
          (path ++ ".tone." ++ e.1.shown) e.2
      | some _ => complain (path ++ ".tone") .notMap)
  | _ => complain path .notMap

/-! ## configuration -/

/-- the members of the configuration that have a choice of values, with the values -/
def choices : List (String × List String) :=
  [("wcagTarget", ["AA", "AAA"]), ("complianceEngine", ["wcag21", "apca"]),
    ("stepSelectionStrategy", ["closest", "mirror-closest"]),
    ("onUnresolvedOverride", ["error", "warn"])]

def isOneOf (allowed : List String) : Document → Bool
  | .text s => allowed.contains s
  | _ => false

/-- is the value a whole number? A boolean is not. -/
def isInt : Document → Bool
  | .int _ => true
  | _ => false

/-- is the value a number? A boolean counts as one. -/
def isNumber : Document → Bool
  | .int _ => true
  | .float _ => true
  | .bool _ => true
  | _ => false

def defaultThemeProblems (sc : Scope) : Option Document → List Problem
  | none => []
  | some (.text name) =>
    demand (sc.themes.contains (.text name)) "config.defaultTheme" (.notTheme name)
  | some _ => complain "config.defaultTheme" .notText

def stacksProblems : Option Document → List Problem
  | none => []
  | some .null => []
  | some (.map layers) =>
    layers.flatMap fun e => demand (isInt e.2) ("config.stacks." ++ e.1.shown) .notOffset
  | some _ => complain "config.stacks" .notMap

def correctionProblems : Option Document → List Problem
  | none => []
  | some .null => []
  | some (.map members) =>
    demand (optional isBool (members.lookup (.text "enabled"))) "config.cvd.enabled" .notBool ++
    ["confusionThresholdDE", "distinguishableThresholdDE"].flatMap fun key =>
      demand (optional isNumber (members.lookup (.text key))) ("config.cvd." ++ key) .notNumber
  | some _ => complain "config.cvd" .notMap

def configProblems (sc : Scope) : Document → List Problem
  | .map members =>
    (choices.flatMap fun c =>
      demand (optional (isOneOf c.2) (members.lookup (.text c.1)))
        ("config." ++ c.1) (.notOneOf c.2)) ++
    defaultThemeProblems sc (members.lookup (.text "defaultTheme")) ++
    stacksProblems (members.lookup (.text "stacks")) ++
    correctionProblems (members.lookup (.text "cvd"))
  | _ => complain "config" .notMap

/-! ## derived names -/

/-- the sections of semantic colors, with what their colors are for -/
def sections : List (String × Target) := [("foreground", .text), ("nonText", .uiComponent)]

/-- the names that states derive, with their paths, in order -/
def derivations (members : Entries Atom Document) : List (String × String) :=
  sections.flatMap fun s =>
    (membersOf ((members.lookup (.text s.1)).getD .null)).flatMap fun t =>
      (membersOf (((membersOf t.2).lookup (.text "interactions")).getD .null)).map fun i =>
        (s!"{s.1}.{t.1.shown}.interactions.{i.1.shown}", derivedName t.1 i.1)

/-- the derived names that are declared or were derived before -/
def derivedProblems (declared : List Atom) : List String → List (String × String) → List Problem
  | _, [] => []
  | seen, (path, name) :: rest =>
    (if declared.contains (.text name) then complain path (.shadows name)
      else if seen.contains name then complain path (.derivedTwice name) else []) ++
    derivedProblems declared (name :: seen) rest

/-! ## the whole -/

def declaredIn (members : Entries Atom Document) (s : String) : List Atom :=
  Entries.keys (membersOf ((members.lookup (.text s)).getD .null))

/-- the problems of a section, given the names that the sections before it declare -/
def sectionProblems (sc : Scope) (s : String) (before : List Atom) :
    Option Document → List Problem
  | none => []
  | some .null => []
  | some (.map tokens) => tokens.flatMap fun t =>
    demand (!before.contains t.1) s!"{s}.{t.1.shown}" .declaredTwice ++
    semanticProblems sc s!"{s}.{t.1.shown}" t.2
  | some _ => complain s .notMap

/-- the problems of a map of parts that has to be there -/
def mapProblems (name : String) (each : Atom → Document → List Problem) :
    Option Document → List Problem
  | some (.map parts) => parts.flatMap fun e => each e.1 e.2
  | _ => complain name .notMap

/-- what the references of a specification may name -/
def scope (members : Entries Atom Document) : Scope :=
  { ramps := membersOf ((members.lookup (.text "primitives")).getD .null)
    themes := Entries.keys (membersOf ((members.lookup (.text "themes")).getD .null)) }

def memberProblems (members : Entries Atom Document) : List Problem :=
  let sc := scope members
  let texts := declaredIn members "foreground"
  let parts := declaredIn members "nonText"
  mapProblems "primitives" rampProblems (members.lookup (.text "primitives")) ++
  mapProblems "themes" (fun n d => themeProblems sc s!"themes.{n.shown}" d)
    (members.lookup (.text "themes")) ++
  demand (sections.any fun s => ((members.lookup (.text s.1)).getD .null).isMap)
    "foreground" .notMap ++
  sectionProblems sc "foreground" [] (members.lookup (.text "foreground")) ++
  sectionProblems sc "nonText" texts (members.lookup (.text "nonText")) ++
  derivedProblems (texts ++ parts) [] (derivations members) ++
  match members.lookup (.text "config") with
  | none => []
  | some .null => []
  | some d => configProblems sc d

/-- the problems of a value that is meant to be a specification -/
def problems : Document → List Problem
  | .map members => memberProblems members
  | _ => complain "Input" .notMap

def isValid (d : Document) : Bool := (problems d).isEmpty

/-- the value itself, if it has no problems -/
def requireValid (d : Document) : Except Fault Unit :=
  if isValid d then .ok () else .error (.invalid ((problems d).map Problem.text))

end Palette.Spec
