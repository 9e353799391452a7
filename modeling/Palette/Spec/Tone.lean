import Palette.Spec.Check

/-!
# Tones

Themes and semantic colors may declare variants of themselves under the name of a tone. A tone
replaces the members that its entry gives; overrides of the entry come after those of the color,
so that they win among equally specific ones.

* `Tone.apply`      the specification under a tone;
* `Tone.available`  the tones that are declared, in order of first declaration.

A tone is applied to values of any depth. That values too deep inside one another cannot be copied,
as the recursion of interpreters is limited, is left out here; it is part of reading texts only
(`Fault.tooDeep`).
-/

namespace Palette.Tone

/-- the members with those that an entry gives under one of some names -/
def overlay (entry : Document) (names : List String) (members : Entries Atom Document) :
    Except Fault (Entries Atom Document) :=
  names.foldlM (fun ms name => do
    if ← entry.mentions name then return Entries.put (.text name) (← entry.need name) ms
    else return ms) members

def theme (members : Entries Atom Document) (entry : Document) : Except Fault Document := do
  return .map (← overlay entry ["ramp", "step", "fallback", "aliases"] members)

def semantic (members : Entries Atom Document) (entry : Document) : Except Fault Document := do
  let merged ← overlay entry ["ramp", "defaultStep"] members
  let own ← Document.elementsOf (members.lookup (.text "overrides"))
  let added ← Document.elementsOf (← entry.get "overrides")
  return .map (Entries.put (.text "overrides") (.list (own ++ added)) merged)

/-- the entry of a tone in a theme or semantic color, unless it is empty -/
def entry? (tone : Document) (d : Document) : Except Fault (Option Document) := do
  let tones ← Document.entriesOf (← d.get "tone")
  return (tones.lookup (← tone.asKey)).filter Document.truthy

/-- each member of a section that has an entry of the tone, merged with it -/
def eachPart (merge : Entries Atom Document → Document → Except Fault Document)
    (tone : Document) (parts : Entries Atom Document) :
    Except Fault (Entries Atom Document) :=
  parts.mapM fun p => do
    match ← entry? tone p.2 with
    | some e => return (p.1, ← merge (← p.2.entries) e)
    | none => return p

/-- a section of a specification replaced by what a function makes of its members; an empty or
missing section stays as it is -/
def onSection (name : String)
    (f : Entries Atom Document → Except Fault (Entries Atom Document))
    (members : Entries Atom Document) : Except Fault (Entries Atom Document) := do
  match members.lookup (.text name) with
  | some d =>
    if !d.truthy then return members
    return Entries.put (.text name) (.map (← f (← d.entries))) members
  | none => return members

def isChosen (tone : Document) : Bool := tone.truthy && !tone.same (.text "default")

def apply (d : Document) (tone : Document) : Except Fault Document := do
  let members ← d.dictionary
  if isChosen tone then
    let members ← onSection "themes" (eachPart theme tone) members
    let members ← onSection "foreground" (eachPart semantic tone) members
    let members ← onSection "nonText" (eachPart semantic tone) members
    return .map members
  else return .map members

/-- the names of the tones of a theme or semantic color -/
def names (d : Document) : Except Fault (List Atom) := do
  let tones ← Document.elementsOf (← d.get "tone")
  tones.mapM Document.asKey

/-- the tones that are declared, in order of first declaration -/
def available (d : Document) : Except Fault (List Atom) := do
  let found ← ["themes", "foreground", "nonText"].flatMapM fun s => do
    (← Document.entriesOf (← d.get s)).flatMapM fun p => names p.2
  return Entries.keys (Entries.ofList (found.map fun a => (a, ())))

end Palette.Tone
