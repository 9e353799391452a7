import Palette.Entries
import Palette.Text.Character

/-!
# Arguments

The words of a command line, read by a grammar of flags, parameters and operands.

* a flag stands alone; some flags have a letter, and letters may follow one another in one word,
  with or without an equals sign after the first one;
* a parameter takes the next word, or what follows an equals sign;
* long names may be cut short as long as one name is meant;
* a double hyphen is the mark after which all words are operands;
* negative numbers, a single hyphen and words with blanks are operands in any case.

`Grammar.read` gives what the words say, or why there is nothing to give: help was asked for, or
the words do not fit. A double hyphen in the place of an operand or after the equals sign of a
parameter is void: it counts as given and has no value. Right after the mark it is a word as any
other.
-/

namespace Palette

/-- why the reading of arguments ends early -/
inductive Stop where
  | help
  | misuse
  deriving DecidableEq, Repr

/-- a name that stands alone -/
structure Flag where
  name : String
  letter : Option Char
  deriving DecidableEq, Repr

namespace Flag

def help : Flag := ⟨"--help", some 'h'⟩

end Flag

/-- a name that takes a value -/
structure Parameter where
  name : String
  /-- the values that it takes, if it does not take any -/
  allowed : Option (List String)
  needed : Bool
  deriving DecidableEq, Repr

/-- the flags, parameters and operands of a command -/
structure Grammar where
  flags : List Flag
  parameters : List Parameter
  operands : List String

/-- a word of a command line -/
inductive Token where
  | mark
  | word (text : String)
  | flag (f : Flag)
  /-- a flag with the letters that follow its own letter -/
  | letters (f : Flag) (rest : List Char)
  /-- a flag with a value, which it does not take -/
  | valued
  | parameter (p : Parameter) (attached : Option String)
  | unknown

/-- what the words of a command line say -/
structure Given where
  flags : List String
  /-- the values of the parameters; a void one is `none` -/
  values : Entries String (Option String)
  /-- the operands; a void one is `none` -/
  operands : List (Option String)
  /-- was there a word without a meaning? -/
  extra : Bool

namespace Given

def nothing : Given := ⟨[], [], [], false⟩

/-- an operand by its position, unless it is void -/
def operand? (s : Given) (i : Nat) : Option String := (s.operands[i]?).join

/-- the value of a parameter, if it is given and not void -/
def value? (s : Given) (name : String) : Option String := (s.values.lookup name).join

/-- the value of a parameter, the usual one if it is not given, unless it is void -/
def valueOr? (s : Given) (name usual : String) : Option String :=
  (s.values.lookup name).getD (some usual)

end Given

namespace Grammar

/-! ## words -/

def letter? (g : Grammar) (c : Char) : Option Flag := g.flags.find? fun f => f.letter == some c

/-- a flag with what is attached to its name by an equals sign -/
def flagToken (f : Flag) (attached : Option String) : Token :=
  if attached.isSome then .valued else .flag f

/-- a flag with what is attached to its letter by an equals sign; more letters may be -/
def letterToken (f : Flag) (attached : Option String) : Token :=
  match attached with
  | none => .flag f
  | some "" => .valued
  | some rest => .letters f rest.toList

/-- the flags and parameters whose names pass a test, with what is attached to the name -/
def named (g : Grammar) (test : String → Bool) (attached : Option String) : List Token :=
  ((g.flags.filter fun f => test f.name).map fun f => flagToken f attached) ++
    (g.parameters.filter fun p => test p.name).map fun p => .parameter p attached

/-- the flag or parameter of a full name or of a letter -/
def fullName? (g : Grammar) (w : List Char) (attached : Option String) : Option Token :=
  match g.named (· == String.ofList w) attached, w with
  | t :: _, _ => some t
  | [], ['-', c] => (g.letter? c).map fun f => letterToken f attached
  | [], _ => none

/-- a word before and after its first equals sign -/
def cut (w : List Char) : List Char × Option String :=
  match w.dropWhile (· != '=') with
  | [] => (w, none)
  | _ :: value => (w.takeWhile (· != '='), some (String.ofList value))

/-- what a word may be short for -/
def similar (g : Grammar) : List Char → List Token
  | '-' :: '-' :: rest =>
    let (front, value) := cut ('-' :: '-' :: rest)
    g.named (fun n => front.isPrefixOf n.toList) value
  | '-' :: c :: rest => ((g.letter? c).map fun f => .letters f rest).toList
  | _ => []

def areDigits (cs : List Char) : Bool := cs.all fun c => (Text.digitValue c).isSome

/-- digits, or a point with digits after it and perhaps before it -/
def isNumber (cs : List Char) : Bool :=
  let cs := if cs.getLast? == some '\n' then cs.dropLast else cs
  match cs.dropWhile (· != '.') with
  | [] => cs != [] && areDigits cs
  | _ :: places => places != [] && areDigits places && areDigits (cs.takeWhile (· != '.'))

/-- a word that begins with a hyphen -/
def hyphened (g : Grammar) (w : List Char) : Except Stop Token :=
  match g.similar w with
  | [t] => .ok t
  | _ :: _ :: _ => .error .misuse
  | [] => .ok (if isNumber (w.drop 1) || w.contains ' ' then .word (String.ofList w) else .unknown)

def token (g : Grammar) (w : List Char) : Except Stop Token :=
  match w with
  | '-' :: _ :: _ =>
    match g.fullName? w none with
    | some t => .ok t
    | none =>
      match cut w with
      | (front, some value) =>
        match g.fullName? front (some value) with
        | some t => .ok t
        | none => g.hyphened w
      | (_, none) => g.hyphened w
  | _ => .ok (.word (String.ofList w))

/-- what some words are; after the mark there are only operands -/
def tokens (g : Grammar) : List String → Except Stop (List Token)
  | [] => .ok []
  | w :: rest =>
    if w == "--" then .ok (.mark :: rest.map .word)
    else do
      let t ← g.token w.toList
      return t :: (← g.tokens rest)

/-! ## meaning -/

/-- the flags of letters, if they all have one -/
def cluster (g : Grammar) (letters : List Char) : Except Stop (List Flag) :=
  letters.mapM fun c =>
    match g.letter? c with
    | some f => .ok f
    | none => .error .misuse

/-- what was given, with some flags, unless one of them asks for help -/
def raise (s : Given) (fs : List Flag) : Except Stop Given :=
  if fs.contains Flag.help then .error .help
  else .ok { s with flags := s.flags ++ fs.map Flag.name }

/-- what was given, with a word that is the value of a parameter -/
def accept (p : Parameter) (value : String) (s : Given) : Except Stop Given :=
  let ok : Bool := match p.allowed with
    | some words => words.contains value
    | none => true
  if ok then .ok { s with values := Entries.put p.name (some value) s.values } else .error .misuse

/-- what was given, with what follows the equals sign of a parameter; a double hyphen is void -/
def attach (p : Parameter) (value : String) (s : Given) : Except Stop Given :=
  if value == "--" then .ok { s with values := Entries.put p.name none s.values }
  else accept p value s

/-- what stands before a word, as far as the word's meaning depends on it -/
inductive Before where
  | operand
  | mark
  | other
  deriving DecidableEq

/-- an operand; a double hyphen is void unless the mark stands before it -/
def operandOf (before : Before) (w : String) : Option String :=
  if w == "--" && before ≠ .mark then none else some w

/-- The meaning of words. The mark belongs to the operand before it or after it. -/
def scan (g : Grammar) : Before → List Token → Given → Except Stop Given
  | _, [], s => .ok s
  | before, .mark :: rest, s =>
    if before = .operand then g.scan .other rest s
    else match rest with
      | .word _ :: _ =>
        if s.operands.length < g.operands.length then g.scan .mark rest s
        else g.scan .other rest { s with extra := true }
      | _ => g.scan .other rest { s with extra := true }
  | before, .word w :: rest, s =>
    if s.operands.length < g.operands.length then
      g.scan .operand rest { s with operands := s.operands ++ [operandOf before w] }
    else g.scan .other rest { s with extra := true }
  | _, .flag f :: rest, s => do g.scan .other rest (← raise s [f])
  | _, .letters f more :: rest, s => do g.scan .other rest (← raise s (f :: (← g.cluster more)))
  | _, .valued :: _, _ => .error .misuse
  | _, .parameter p (some value) :: rest, s => do g.scan .other rest (← attach p value s)
  | _, .parameter p none :: .word w :: rest, s => do g.scan .other rest (← accept p w s)
  | _, .parameter _ none :: _, _ => .error .misuse
  | _, .unknown :: rest, s => g.scan .other rest { s with extra := true }

/-- are all operands and all needed parameters given, and nothing else? -/
def fits (g : Grammar) (s : Given) : Bool :=
  s.operands.length == g.operands.length && !s.extra &&
    g.parameters.all fun p => !p.needed || (s.values.lookup p.name).isSome

/-- what the words of a command line say -/
def read (g : Grammar) (words : List String) : Except Stop Given := do
  let s ← g.scan .other (← g.tokens words) Given.nothing
  if g.fits s then return s else throw .misuse

/-- the first operand and the words after it, after flags; was there a word without a meaning
before it? -/
def front (g : Grammar) :
    List String → List Token → Given → Except Stop (String × List String × Bool)
  | w :: rest, .word _ :: _, s => .ok (w, rest, s.extra)
  | _ :: rest, .flag f :: ts, s => do g.front rest ts (← raise s [f])
  | _ :: rest, .letters f more :: ts, s => do
    g.front rest ts (← raise s (f :: (← g.cluster more)))
  | _ :: rest, .unknown :: ts, s => g.front rest ts { s with extra := true }
  | _, _, _ => .error .misuse

end Grammar
end Palette
