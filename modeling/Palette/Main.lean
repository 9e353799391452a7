import Palette.CommandLine.Command
import Palette.CommandLine.Moment
import Std.Time.DateTime.Timestamp

/-!
# The program

Takes a snapshot of the files that the words of the command line name, runs the command on it, and
writes back what the command has changed.
-/

namespace Palette.Main

/-- a text as the outside has it; halves of characters leave it empty -/
def bare (s : String) : String := (Text.bare? s).toOption.getD ""

def realPath (l : Location) : String :=
  bare <|
  match l with
  | "/" :: names => "/" ++ "/".intercalate names
  | names => "/".intercalate names

/-- the texts in a word that may be paths: the word, and what follows an equals sign -/
def pathsIn (word : String) : List Path :=
  (word :: ((Grammar.cut word.toList).2).toList).map Path.ofText

/-- the paths on the way to a path, shortest first -/
def ways (p : Path) : List Path :=
  (List.range (p.names.length + 1)).map fun n => { p with names := p.names.take n }

/-- the text of a file; one that holds no text is empty -/
def textOf (path : String) : IO String := do
  try IO.FS.readFile path
  catch _ => return ""

/-- what stands at a path of the real file system -/
def node? (p : Path) : IO (Option Node) := do
  try
    let path ← IO.FS.realPath (bare p.text)
    if ← path.isDir then return some .folder
    return some (.file (← textOf path.toString))
  catch _ => return none

/-- a snapshot with what stands at a path -/
def add (disk : Disk) (p : Path) : IO Disk := do
  match disk.locate p, ← node? p with
  | .ok l, some n => return if Disk.isGiven l then disk else Entries.put l n disk
  | _, _ => return disk

/-- the snapshot for some words -/
def snapshot (words : List String) : IO Disk :=
  ((words.flatMap pathsIn).flatMap ways).foldlM add []

/-- writes back what has changed -/
def writeBack (before after : Disk) : IO Unit :=
  after.forM fun e => do
    if before.lookup e.1 == some e.2 then return
    match e.2 with
    | .folder => IO.FS.createDirAll (realPath e.1)
    | .file text => IO.FS.writeFile (realPath e.1) text

def now : IO String := do
  let nanos := (← Std.Time.Timestamp.now).toNanosecondsSinceUnixEpoch.toInt
  return Moment.text (nanos.toNat / 1000)

def use : String :=
  "usage: palette [-h] [-v] compile SPEC --out FILE [--css FILE] [--tone NAME] [--engine ID]\n" ++
  "       palette [-h] [-v] audit REGISTRY [--strict]\n" ++
  "       palette [-h] [-v] resolve REGISTRY TOKEN [--font-size SIZE] [--theme NAME]\n" ++
  "               [--stack NAME] [--vision NAME]"

def say (line : String) : IO Unit := IO.println (bare line)

/-- says a line about what is wrong -/
def complain (line : String) : IO Unit := IO.eprintln (bare line)

def report (o : Outcome) : IO Unit :=
  match o with
  | .usage true => IO.println use
  | .usage false => IO.eprintln use
  | .done _ out err => do
    out.forM say
    err.forM complain
  | .failed why out err => do
    out.forM say
    err.forM complain
    complain s!"error: {why.message}"

end Palette.Main

/-- runs the command that the words give -/
def main (words : List String) : IO UInt32 := do
  let words := words.map Palette.Text.ofBare
  let before ← Palette.Main.snapshot words
  let (o, after) := Palette.CommandLine.run words (← Palette.Main.now) before
  Palette.Main.writeBack before after
  Palette.Main.report o
  return UInt32.ofNat o.exit
