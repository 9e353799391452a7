import Palette.Archive.Resolve
import Palette.Archive.Audit
import Palette.CommandLine.Arguments
import Palette.Disk.Load
import Palette.Stylesheet.Build

/-!
# Commands

The three commands and their outcomes on a disk.

* `Command.ofWords`   the command that words give;
* `Command.run`       the outcome of a command, and the disk after it;
* `CommandLine.run`   the two together.
-/

namespace Palette

/-- a name and the context in which its color is asked for -/
structure Request where
  token : String
  fontSize : String
  /-- without one, the first theme of the registry -/
  theme : Option String
  stack : String
  vision : String
  deriving DecidableEq, Repr

/-- The commands. A path or a request with a void word is `none`. -/
inductive Command where
  /-- a specification into a registry, and into a stylesheet if one is asked for -/
  | compile (spec out css tone engine : Option String)
  /-- a look at the evaluations of a registry -/
  | audit (registry : Option String) (strict : Bool)
  /-- the color of a name in a context -/
  | resolve (registry : Option String) (request : Option Request)
  deriving DecidableEq, Repr

namespace Command

/-! ## words -/

/-- the flags before the name of a command -/
def top : Grammar :=
  { flags := [Flag.help, ⟨"--verbose", some 'v'⟩], parameters := [], operands := ["command"] }

def compileGrammar : Grammar :=
  { flags := [Flag.help]
    parameters := [⟨"--out", none, true⟩, ⟨"--css", none, false⟩, ⟨"--tone", none, false⟩,
      ⟨"--engine", some Engines.builtin.names, false⟩]
    operands := ["spec"] }

def auditGrammar : Grammar :=
  { flags := [Flag.help, ⟨"--strict", none⟩], parameters := [], operands := ["registry"] }

def visions : List String := VariantKey.plainWord :: Deficiency.all.map Deficiency.name

def resolveGrammar : Grammar :=
  { flags := [Flag.help]
    parameters := [⟨"--font-size", none, false⟩, ⟨"--theme", none, false⟩,
      ⟨"--stack", none, false⟩, ⟨"--vision", some visions, false⟩]
    operands := ["registry", "token"] }

/-- the request of the words of `resolve`, if none of them is void -/
def requestOf (s : Given) : Option Request := do
  let theme ← match s.values.lookup "--theme" with
    | none => some none
    | some word => word.map some
  return {
    token := ← s.operand? 1
    fontSize := ← s.valueOr? "--font-size" "16px"
    theme
    stack := ← s.valueOr? "--stack" "root"
    vision := ← s.valueOr? "--vision" VariantKey.plainWord }

def ofName (name : String) (rest : List String) : Except Stop Command :=
  match name with
  | "compile" => do
    let s ← compileGrammar.read rest
    return .compile (s.operand? 0) (s.value? "--out") (s.value? "--css") (s.value? "--tone")
      (s.value? "--engine")
  | "audit" => do
    let s ← auditGrammar.read rest
    return .audit (s.operand? 0) (s.flags.contains "--strict")
  | "resolve" => do
    let s ← resolveGrammar.read rest
    return .resolve (s.operand? 0) (requestOf s)
  | _ => .error .misuse

/-- the command that words give -/
def ofWords (words : List String) : Except Stop Command := do
  let (name, rest, extra) ← top.front words (← top.tokens words) Given.nothing
  let c ← ofName name rest
  if extra then throw .misuse
  return c

end Command

/-- a disk, and what has been said on the two streams -/
structure Shell where
  disk : Disk
  out : List String
  err : List String

/-- steps of a command; what is done before a fault stays done -/
abbrev Action := ExceptT Fault (StateM Shell)

namespace Shell

/-- a line on the first stream -/
def say (line : String) : Action Unit := modify fun s => { s with out := s.out ++ [line] }

/-- a line on the second stream -/
def warn (line : String) : Action Unit := modify fun s => { s with err := s.err ++ [line] }

def look {α : Type} (f : Disk → Except Fault α) : Action α := do
  f (← get).disk

def change (c : Disk.Change) : Action Unit := do
  match c.run (← get).disk with
  | .ok _ disk => modify fun s => { s with disk }
  | .error why disk => do
    modify fun s => { s with disk }
    throw why

def store (p : Path) (text : String) : Action Unit := change (Disk.store p text)

/-- a word, which must not be void -/
def present {α : Type} (word : Option α) : Action α :=
  match word with
  | some w => return w
  | none => throw .wrongKind

end Shell

namespace Command
open Shell

/-- a specification with another engine in its configuration -/
def withEngine (d : Document) (engine : String) : Except Fault Document := do
  let members ← d.entries
  let config ← Document.entriesOf (members.lookup (.text "config"))
  let config := Entries.put (.text "complianceEngine") (.text engine) config
  return .map (Entries.put (.text "config") (.map config) members)

def specOf (disk : Disk) (spec : String) (tone engine : Option String) : Except Fault Spec := do
  let raw ← Disk.toned (← disk.specification spec) ((tone.map Document.text).getD .null)
  match engine with
  | some id => Spec.compile (← withEngine raw id)
  | none => Spec.compile raw

def sheetSize : Atom := .text "16px"

/-- the stylesheet of a registry in a file -/
def storeStylesheet (a : Archive) (theme : Option Atom) (p : Path) : Action Unit := do
  let blocks ← Stylesheet.ofArchive a sheetSize theme
  store p (Stylesheet.text blocks)
  say s!"Wrote CSS to {p.text}"

def runCompile (now : String) (spec out css tone engine : Option String) : Action Nat := do
  let spec ← present spec
  let p ← look fun d => specOf d spec tone engine
  let r ← p.buildNamed Engines.builtin now
  let target := Path.ofText (← present out)
  store target r.archive.fileText
  say s!"Wrote {r.info.totalVariants} variants for {r.info.tokenCount} tokens to {target.text}"
  match css with
  | none => pure ()
  | some "" => pure ()
  | some path => storeStylesheet r.archive p.config.defaultTheme.atom? (Path.ofText path)
  r.warnings.forM fun w => warn s!"warning: {w}"
  return 0

def runAudit (registry : Option String) (strict : Bool) : Action Nat := do
  let registry ← present registry
  let a ← look fun d => d.archive registry
  let failing ← a.audit
  failing.forM say
  let total := a.variants.size
  let passing := total - failing.length
  say s!"Audit: {passing}/{total} variants pass ({a.info.engine.shown}, {a.info.level.shown})"
  return if strict && !failing.isEmpty then 1 else 0

/-- the color of a name; the first theme is the default one -/
def runResolve (registry : Option String) (request : Option Request) : Action Nat := do
  let registry ← present registry
  let a ← look fun d => d.archive registry
  let r ← present request
  let first := a.themes.keys.head?.getD (.text "")
  let theme := (r.theme.map .text).getD first
  let c : Lookup := ⟨.text r.fontSize, theme, .text r.stack, .text r.vision⟩
  let color ← a.resolve (.text r.token) c
  say color.shown
  return 0

def action (now : String) : Command → Action Nat
  | .compile spec out css tone engine => runCompile now spec out css tone engine
  | .audit registry strict => runAudit registry strict
  | .resolve registry request => runResolve registry request

end Command

inductive Outcome where
  /-- with a word on its use, because help was asked for or because the words do not fit -/
  | usage (asked : Bool)
  /-- with a number -/
  | done (exit : Nat) (out err : List String)
  /-- with a fault -/
  | failed (why : Fault) (out err : List String)

namespace Outcome

def exit : Outcome → Nat
  | .usage asked => if asked then 0 else 2
  | .done exit _ _ => exit
  | .failed why _ _ => if why.expected then 2 else 1

end Outcome

namespace Command

/-- the outcome of a command at a time, and the disk after it -/
def run (c : Command) (now : String) (disk : Disk) : Outcome × Disk :=
  match ((c.action now).run).run ⟨disk, [], []⟩ with
  | (.ok exit, s) => (.done exit s.out s.err, s.disk)
  | (.error why, s) => (.failed why s.out s.err, s.disk)

end Command

namespace CommandLine

/-- the outcome of words at a time, and the disk after it -/
def run (words : List String) (now : String) (disk : Disk) : Outcome × Disk :=
  match Command.ofWords words with
  | .ok c => c.run now disk
  | .error .help => (.usage true, disk)
  | .error .misuse => (.usage false, disk)

end CommandLine
end Palette
