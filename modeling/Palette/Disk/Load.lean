import Palette.Archive.Decode
import Palette.Disk.Basic
import Palette.Document.Reader
import Palette.Document.Writer
import Palette.Spec.Compile
import Palette.Spec.Tone
import Palette.Text.Character

/-!
# Files

Specifications and archives in files.

* `Disk.document`        the document in a file;
* `Disk.specification`   a specification without problems, and `Disk.compile` the compiled one;
* `Disk.archive`         an archive;
* `Archive.fileText`     the text of the file of an archive;
* `Disk.store`           a text in a file whose folders are made where they are missing.
-/

namespace Palette
namespace Disk

/-- the text of a file, with line feeds for the ends of lines -/
def text (d : Disk) (p : Path) : Except Fault String :=
  match d.read? p with
  | .ok text => .ok (Text.lineFeeds text)
  | .error why => .error (.file why p.text)

def document (d : Disk) (p : Path) : Except Fault Document := do
  match Document.read (← d.text p) with
  | .ok v => return v
  | .error .form => throw .notJson
  | .error (.digits count) => throw (.unreadable (.digits count))
  | .error .depth => throw .tooDeep

/-- the specification in a file, if it has no problems -/
def specification (d : Disk) (path : String) : Except Fault Document := do
  let p := Path.ofText path
  match d.at? p with
  | .ok (some _) => pure ()
  | .ok none => throw (.noSpecification p.text)
  | .error why => throw (.file why p.text)
  let v ← d.document p
  Spec.requireValid v
  return v

/-- a specification under a tone, if one is given -/
def toned (v : Document) (tone : Document) : Except Fault Document :=
  if tone.truthy then Tone.apply v tone else .ok v

/-- the specification in a file under a tone, compiled -/
def compile (d : Disk) (path : String) (tone : Document) : Except Fault Spec := do
  Spec.compile (← toned (← d.specification path) tone)

def archive (d : Disk) (path : String) : Except Fault Archive := do
  let v ← d.document (Path.ofText path)
  if !v.isMap then throw (.registryNotMap path)
  Archive.ofDocument v

/-- a text in a file; one with halves of characters leaves the file empty -/
def store (p : Path) (text : String) : Change := do
  makeFolder p.parent
  match Text.bare? text with
  | .ok bare => apply (fun d p => d.write p bare) p
  | .error found => do
    apply (fun d p => d.write p "") p
    throw (.unreadable (.halves found))

end Disk

namespace Archive

def fileText (a : Archive) : String := a.document.indented ++ "\n"

end Archive
end Palette
