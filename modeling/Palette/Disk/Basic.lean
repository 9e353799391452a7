import Palette.Fault
import Palette.Text.Bytes

/-!
# Disks

Files and folders below, above and beside a working folder, by the names on the way to them.

* `Path`              names as a text writes them: empty names and single dots do not count;
* `Disk`              what stands at each location;
* `Disk.locate`       the location of a path, one name after the other, each inside a folder;
* `Disk.read?`, `Disk.write`   a file;
* `Disk.makeFolder`   a folder and those that it needs.

A name has up to 255 bytes and a path less than 4096. Neither has a null character, nor halves of
characters other than the 128 that stand for single bytes. Names of the same bytes are one name,
and files hold characters as they stand, without marks.
-/

namespace Palette

/-- a path: how many slashes it begins with, and the names after them -/
structure Path where
  slashes : Nat
  names : List String
  deriving DecidableEq, Repr

namespace Path

/-- the slashes at the front that count: two, or one for any other number -/
def leading (s : String) : Nat :=
  let n := (s.toList.takeWhile (· == '/')).length
  if n == 2 then 2 else min n 1

/-- the parts of a text between slashes -/
def pieces : List Char → List (List Char)
  | [] => [[]]
  | c :: cs =>
    if c == '/' then [] :: pieces cs
    else match pieces cs with
      | [] => [[c]]
      | piece :: rest => (c :: piece) :: rest

/-- does a part of a text count as a name? -/
def isName (piece : List Char) : Bool := piece != [] && piece != ['.']

def ofText (s : String) : Path :=
  { slashes := leading s, names := ((pieces s.toList).filter isName).map String.ofList }

/-- the text of a path; the working folder is a dot -/
def text (p : Path) : String :=
  if p.slashes == 0 && p.names.isEmpty then "."
  else String.ofList (List.replicate p.slashes '/') ++ "/".intercalate p.names

def parent (p : Path) : Path := { p with names := p.names.dropLast }

example : ofText "./a//b/" = ⟨0, ["a", "b"]⟩ := by decide

end Path

inductive Node where
  | file (text : String)
  | folder
  deriving DecidableEq, Repr

/-- the names on the way from the working folder; those above it begin with two dots, those from
the top with a slash -/
abbrev Location := List String

abbrev Disk := Entries Location Node

namespace Disk

def above (l : Location) : Location :=
  if l == ["/"] then l
  else match l.getLast? with
    | none => [".."]
    | some ".." => l ++ [".."]
    | some _ => l.dropLast

/-- is the location on the way up from the working folder, or the top? -/
def isGiven (l : Location) : Bool := l.all (· == "..") || l == ["/"]

def node? (d : Disk) (l : Location) : Option Node :=
  if isGiven l then some .folder else d.lookup l

/-- the bytes that a name may have -/
def nameLimit : Nat := 255

/-- the bytes that a path may have -/
def pathLimit : Nat := 4095

def enter (d : Disk) (l : Location) (name : String) : Except FileFault Location :=
  match d.node? l with
  | some .folder =>
    if nameLimit < (Text.bytes name).length then .error .nameTooLong
    else .ok (if name == ".." then above l else l ++ [Text.respelled name])
  | some (.file _) => .error .notDirectory
  | none => .error .missing

/-- the location of a path; there need not be anything -/
def locate (d : Disk) (p : Path) : Except FileFault Location :=
  if let some found := Point.halves? Point.isByte (Text.points p.text) then .error (.halves found)
  else if p.names.any fun name => name.contains (Char.ofNat 0) then .error .nullCharacter
  else if pathLimit < (Text.bytes p.text).length then .error .nameTooLong
  else p.names.foldlM d.enter (if p.slashes == 0 then [] else ["/"])

/-- what stands at a path; there is nothing where a name on the way is missing, or no folder -/
def at? (d : Disk) (p : Path) : Except FileFault (Option Node) :=
  match d.locate p with
  | .ok l => .ok (d.node? l)
  | .error .nameTooLong => .error .nameTooLong
  | .error _ => .ok none

def read? (d : Disk) (p : Path) : Except FileFault String := do
  let l ← d.locate p
  match d.node? l with
  | some (.file text) => return text
  | some .folder => throw .isDirectory
  | none => throw .missing

/-- the disk with a text in the file at a path -/
def write (d : Disk) (p : Path) (text : String) : Except FileFault Disk := do
  let l ← d.locate p
  if d.node? l == some .folder then throw .isDirectory
  return Entries.put l (.file text) d

/-- the disk with a folder where nothing is -/
def addFolder (d : Disk) (p : Path) : Except FileFault Disk := do
  let l ← d.locate p
  if (d.node? l).isSome then throw .exists
  return Entries.put l .folder d

/-- the disk with a folder at a path, if its parent is there -/
def ensure (d : Disk) (p : Path) : Except FileFault Disk :=
  match d.addFolder p with
  | .ok d' => .ok d'
  | .error why => if d.at? p matches .ok (some .folder) then .ok d else .error why

/-- changes of a disk; what is done before a fault stays done -/
abbrev Change := EStateM Fault Disk Unit

/-- a change at a path -/
def apply (f : Disk → Path → Except FileFault Disk) (p : Path) : Change := do
  match f (← get) p with
  | .ok d => set d
  | .error why => throw (.file why p.text)

/-- a folder at a path of so many names, and at its parents where they are missing -/
def makeFolderWithin : Nat → Path → Change
  | 0, p => apply ensure p
  | n + 1, p => do
    if (← get).addFolder p matches .error .missing then makeFolderWithin n p.parent
    apply ensure p

/-- a folder at a path, and at its parents where they are missing -/
def makeFolder (p : Path) : Change := makeFolderWithin p.names.length p

def files (d : Disk) : List Location :=
  d.filterMap fun e => match e.2 with
    | .file _ => some e.1
    | .folder => none

end Disk
end Palette
