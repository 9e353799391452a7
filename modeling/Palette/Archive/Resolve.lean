import Palette.Archive.Basic

/-!
# Resolving colors

The color of a name in a context, from the nearest variant that there is:

1. the variant of the context itself;
2. stacks nearer and nearer to the root;
3. the fallback themes of the theme, at the root;
4. the color without regard to context, or nothing.

At each of the first three, the vision of the context comes before the one without deficiency.

* `Lookup`              a context;
* `Archive.candidates`  the keys in this order;
* `Archive.answer`      the color;
* `Archive.resolve`     the same, with the fault of a fallback theme that cannot be a key;
* `Archive.names`       the names of an archive, in order.
-/

namespace Palette

/-- a context of a request -/
structure Lookup where
  fontSize : Atom
  theme : Atom
  stack : Atom
  vision : Atom

namespace Lookup

def ofNames (fontSize theme stack vision : String) : Lookup :=
  ⟨.text fontSize, .text theme, .text stack, .text vision⟩

end Lookup

/-- the stacks from which a stack takes a color that it lacks, nearest first -/
def relaxation : List (String × List String) :=
  [("overlay", ["modal", "tooltip", "popover", "card", "root"]),
    ("modal", ["tooltip", "popover", "card", "root"]),
    ("tooltip", ["popover", "card", "root"]),
    ("popover", ["card", "root"]),
    ("card", ["root"]),
    ("root", [])]

/-- the stacks after a stack; those of an unknown stack are the root alone -/
def relaxed (stack : Atom) : List Atom :=
  let names := match stack with
    | .text s => (relaxation.lookup s).getD ["root"]
    | _ => ["root"]
  names.map .text

namespace Archive

def plain : Atom := VariantKey.plainVision

/-- the visions to try: the one asked for, then the one without deficiency -/
def visions (vision : Atom) : List Atom := if vision == plain then [plain] else [vision, plain]

/-- the keys of the stacks of a context -/
def stackKeys (token : Atom) (c : Lookup) : List VariantKey :=
  (c.stack :: relaxed c.stack).flatMap fun s =>
    (visions c.vision).map fun v => ⟨token, c.fontSize, c.theme, s, v⟩

/-- the keys of a fallback theme, if it can be a key -/
def fallbackKeys (token : Atom) (c : Lookup) (theme : Document) : List (Option VariantKey) :=
  (visions c.vision).map fun v =>
    theme.atom?.map fun t => ⟨token, c.fontSize, t, .text "root", v⟩

/-- the keys to try, in order; the names that cannot be keys are left open -/
def candidates (a : Archive) (token : Atom) (c : Lookup) : List (Option VariantKey) :=
  (stackKeys token c).map some ++
    ((a.fallbacks.lookup c.theme).getD []).flatMap (fallbackKeys token c)

/-- the color at the first of some keys that has one -/
def firstOf? (a : Archive) (keys : List (Option VariantKey)) : Option Document :=
  keys.findSome? fun k => (k.bind a.variants.get?).map (·.hex)

/-- the color of a name without regard to context, or the empty text -/
def defaultOf (a : Archive) (token : Atom) : Document := (a.defaults.lookup token).getD (.text "")

/-- the color of a name in a context -/
def answer (a : Archive) (token : Atom) (c : Lookup) : Document :=
  (a.firstOf? (a.candidates token c)).getD (a.defaultOf token)

/-- is a name that cannot be a key among the names to try, before a color is found? -/
def meetsNoKey (a : Archive) (keys : List (Option VariantKey)) : Bool :=
  match keys.dropWhile fun k => match k with
    | some k => (a.variants.get? k).isNone
    | none => false with
  | none :: _ => true
  | _ => false

/-- the color of a name in a context, unless a name that cannot be a key comes first -/
def resolve (a : Archive) (token : Atom) (c : Lookup) : Except Fault Document :=
  if a.meetsNoKey (a.candidates token c) then .error .wrongKind else .ok (a.answer token c)

def names (a : Archive) : List Atom :=
  Entries.keys (Entries.ofList (a.variants.toList.map fun e => (e.1.token, ())))

def startsWith (front : Option String) (name : Atom) : Except Fault Bool :=
  match front, name with
  | none, _ => .ok true
  | some p, .text s => .ok (p.toList.isPrefixOf s.toList)
  | some _, _ => .error .notMap

/-- the colors of all names that start with a text -/
def resolveAll (a : Archive) (c : Lookup) (front : Option String) :
    Except Fault (List (Atom × Document)) := do
  let found ← a.names.filterMapM fun n => do
    if ← startsWith front n then return some (n, ← a.resolve n c) else return none
  return found

end Archive
end Palette
