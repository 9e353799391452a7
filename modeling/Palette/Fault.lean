import Palette.Document.Phrase

/-!
# Faults

Why an operation gives no result.

* `Mismatch`       what is asked of a value of a kind that does not have it;
* `Unreadable`     what a value of the right kind does not tell;
* `Fault`          the causes;
* `Fault.message`  what is said about a cause;
* `Fault.expected` the causes that a user of the command line meets as an error message; the
                   others mean that a value of the wrong kind got past the checks.
-/

namespace Palette

/-- what is said about halves in a text that has to be written in bytes -/
def Halves.message (r : Halves) : String :=
  let place :=
    if r.count == 1 then
      "character '" ++ String.ofList (Text.escapePoint r.first) ++ s!"' in position {r.position}"
    else s!"characters in position {r.position}-{r.position + r.count - 1}"
  "'utf-8' codec can't encode " ++ place ++ ": surrogates not allowed"

/-- what the file system refuses -/
inductive FileFault where
  | missing
  | exists
  | notDirectory
  | isDirectory
  | nameTooLong
  /-- a path with a null character -/
  | nullCharacter
  /-- a path with halves of characters -/
  | halves (found : Halves)
  deriving DecidableEq, Repr

namespace FileFault

/-- the text of a refusal, with its number if it has one -/
def reason : FileFault → String
  | .missing => "[Errno 2] No such file or directory"
  | .exists => "[Errno 17] File exists"
  | .notDirectory => "[Errno 20] Not a directory"
  | .isDirectory => "[Errno 21] Is a directory"
  | .nameTooLong => "[Errno 36] File name too long"
  | .nullCharacter => "embedded null byte"
  | .halves found => found.message

end FileFault

/-- what is asked of a value of a kind that does not have it -/
inductive Mismatch where
  /-- something else than the following -/
  | other
  /-- elements -/
  | elements (given : Document)
  /-- two parts -/
  | pair (given : Document)
  /-- members -/
  | members (given : Document)
  /-- to serve as a key -/
  | key (given : Document)
  /-- to be or to write a number -/
  | number (given : Document)
  /-- to be an entry, at a position in a row of entries -/
  | entry (position : Nat)
  /-- to be the parts of the key of a variant, which are four or five -/
  | keyParts (count : Nat)
  /-- to have parts of the key of a variant -/
  | parts (given : Document)

namespace Mismatch

/-- the name under which messages tell of the keys of variants -/
def keyName : String := "contrast_tokens.design.models.VariantKey()"

def neededParts : List String := ["token", "font_size", "theme", "stack"]

/-- names in quotes with commas and a last `and` between them -/
def enumeration : List String → String
  | [] => ""
  | [a] => Text.phrase a
  | [a, b] => Text.phrase a ++ " and " ++ Text.phrase b
  | names =>
    ", ".intercalate (names.dropLast.map Text.phrase) ++ ", and " ++
      Text.phrase (names.getLastD "")

/-- what is said about a number of parts that no key of a variant has -/
def keyPartsMessage (count : Nat) : String :=
  match neededParts.drop count with
  | [] => s!"VariantKey.__new__() takes from 5 to 6 positional arguments but {count + 1} were given"
  | missing =>
    let plural := if missing.length == 1 then "" else "s"
    s!"VariantKey.__new__() missing {missing.length} required positional argument{plural}: " ++
      enumeration missing

def message : Mismatch → String
  | .other => "a value of the wrong kind"
  | .elements given => s!"'{given.kind}' object is not iterable"
  | .pair given => s!"cannot unpack non-iterable {given.kind} object"
  | .members (.list _) => "list indices must be integers or slices, not str"
  | .members (.text _) => "string indices must be integers, not 'str'"
  | .members given => s!"'{given.kind}' object is not subscriptable"
  | .key given => s!"unhashable type: '{given.kind}'"
  | .number given => s!"float() argument must be a string or a real number, not '{given.kind}'"
  | .entry position =>
    s!"cannot convert dictionary update sequence element #{position} to a sequence"
  | .keyParts count => keyPartsMessage count
  | .parts given => s!"{keyName} argument after * must be an iterable, not {given.kind}"

example : keyPartsMessage 3 =
    "VariantKey.__new__() missing 1 required positional argument: 'stack'" := by
  decide

end Mismatch

/-- what a value of the right kind does not tell -/
inductive Unreadable where
  /-- a float, by a text -/
  | float (text : String)
  /-- a whole number, by a text -/
  | whole (text : String)
  /-- a whole number, by what is no number -/
  | nan
  /-- two parts, by a value with so many -/
  | pair (count : Nat)
  /-- an entry, by a value with so many parts at a position in a row of entries -/
  | entry (position count : Nat)
  /-- a direction, by an infinite angle -/
  | angle
  /-- a number to be written with six digits, by a text -/
  | decimal
  /-- a whole number, by so many digits, which are too many -/
  | digits (count : Nat)
  /-- bytes, by a text with halves of characters -/
  | halves (found : Halves)
  deriving DecidableEq, Repr

namespace Unreadable

def message : Unreadable → String
  | .float text => "could not convert string to float: " ++ Text.phrase text
  | .whole text => "invalid literal for int() with base 10: " ++ Text.phrase text
  | .nan => "cannot convert float NaN to integer"
  | .pair count =>
    if count < 2 then s!"not enough values to unpack (expected 2, got {count})"
    else "too many values to unpack (expected 2)"
  | .entry position count =>
    s!"dictionary update sequence element #{position} has length {count}; 2 is required"
  | .angle => "math domain error"
  | .decimal => "Unknown format code 'g' for object of type 'str'"
  | .digits count =>
    s!"Exceeds the limit (4300 digits) for integer string conversion: value has {count} digits; " ++
      "use sys.set_int_max_str_digits() to increase the limit"
  | .halves found => found.message

end Unreadable

inductive Fault where
  /-- no hexadecimal color -/
  | notHex (given : Document)
  /-- neither a text nor a structured color -/
  | notColor (given : Document)
  /-- a structured color in an unknown space -/
  | unknownSpace (given : Document)
  /-- a structured color whose components are not three -/
  | notComponents (given : Document)
  /-- an engine with this name is there already -/
  | engineTaken (id : String)
  /-- no engine has this name -/
  | unknownEngine (given : Document)
  /-- a specification with these problems -/
  | invalid (problems : List String)
  /-- the root stack is not at offset zero -/
  | rootOffset (given : Document)
  /-- `owner` names a ramp that is not there -/
  | unknownRamp (owner : String) (given : Document)
  /-- `owner` has a step that its ramp has not -/
  | stepOutside (owner : String) (given : Document) (ramp : String) (length : Nat)
  /-- manual steps that fail compliance, where that is an error -/
  | failingOverrides (descriptions : List String)
  /-- a registry of another format -/
  | registryVersion (given : Document)
  /-- a registry without a member that it needs -/
  | registryMember (name : String)
  /-- a registry with a value that is not what it has to be there -/
  | registryShape (why : Fault)
  /-- a registry file that holds no map -/
  | registryNotMap (path : String)
  /-- no specification file at this path -/
  | noSpecification (path : String)
  /-- a text that is no document -/
  | notJson
  /-- a text whose values lie too deep inside one another -/
  | tooDeep
  /-- the file system refuses -/
  | file (why : FileFault) (path : String)
  /-- a value of the right kind that does not tell what is asked -/
  | unreadable (why : Unreadable)
  /-- a map without this member -/
  | noMember (name : String)
  /-- a member was asked of a value that is no map -/
  | notMap
  /-- a value of the wrong kind -/
  | wrongKind (why : Mismatch := .other)
  /-- a position outside a list -/
  | outOfRange
  /-- a number beyond the range of floats -/
  | overflow
  /-- a division by zero -/
  | divisionByZero

namespace Fault

def message : Fault → String
  | .notHex given => s!"Color must be a #RGB or #RRGGBB hex string: {given.shown}"
  | .notColor given => s!"Unsupported color value: {given.phrase}"
  | .unknownSpace given => s!"Unknown color space: {given.phrase}"
  | .notComponents given => s!"Color value components must be a 3-item list: {given.phrase}"
  | .engineTaken id => s!"Compliance engine already registered: {id}"
  | .unknownEngine given => s!"Unknown compliance engine: {given.shown}"
  | .invalid problems => "Invalid token input:\n" ++ "\n".intercalate problems
  | .rootOffset given => s!"Stack \"root\" must have offset 0 (got {given.shown})"
  | .unknownRamp owner given => s!"{owner} references unknown ramp \"{given.shown}\""
  | .stepOutside owner given ramp length =>
    s!"{owner} step {given.shown} is out of bounds for ramp \"{ramp}\" (length {length})"
  | .failingOverrides descriptions =>
    "Manual overrides fail compliance:\n" ++ "\n".intercalate descriptions
  | .registryVersion given =>
    s!"Unsupported registry format version {given.phrase} (expected 2)"
  | .registryMember name => "Malformed registry: missing member " ++ Text.phrase name
  | .registryShape why => "Malformed registry: " ++ message why
  | .registryNotMap path => s!"Registry file {path} does not contain a JSON object"
  | .noSpecification path => s!"Token specification not found: {path}"
  | .notJson => "not a JSON document"
  | .tooDeep => "maximum recursion depth exceeded"
  | .file .nullCharacter _ => FileFault.nullCharacter.reason
  | .file (.halves found) _ => found.message
  | .file why path => why.reason ++ ": " ++ Text.phrase path
  | .unreadable why => why.message
  | .noMember name => Text.phrase name
  | .notMap => "a member of a value that is not a map"
  | .wrongKind why => why.message
  | .outOfRange => "a position outside a list"
  | .overflow => "a number too large for a float"
  | .divisionByZero => "division by zero"

/-- is the cause one that an input may bring up, rather than a value that got past the checks? -/
def expected : Fault → Bool
  | .unknownEngine _ | .noMember _ | .notMap | .wrongKind _ | .outOfRange | .overflow
  | .divisionByZero | .tooDeep => false
  | _ => true

end Fault
end Palette
