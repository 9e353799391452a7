import Palette.Contrast.Apca
import Palette.Contrast.Wcag

/-!
# Tables of engines

Engines are chosen by name.

* `Engines.builtin`   the table with the two engines of this library;
* `Engines.find`      the engine that a value names;
* `Engines.register`  the table with one more engine, or with another one under a name that is
                      taken, where that is allowed.
-/

namespace Palette

/-- engines by name, in order of registration -/
abbrev Engines := Entries String Engine

namespace Engines

def builtin : Engines := [(Wcag.engine.id, Wcag.engine), (Apca.engine.id, Apca.engine)]

def find (t : Engines) (name : Document) : Except Fault Engine := do
  let _ ← name.asKey
  match name.text?.bind fun n => t.lookup n with
  | some e => return e
  | none => throw (.unknownEngine name)

/-- the table with one more engine -/
def register (t : Engines) (e : Engine) (override : Bool) : Except Fault Engines :=
  if (t.lookup e.id).isSome && !override then .error (.engineTaken e.id)
  else .ok (Entries.put e.id e t)

def names (t : Engines) : List String := t.keys

example : builtin.names = ["wcag21", "apca"] := rfl

end Engines
end Palette
