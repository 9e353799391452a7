import Palette.Document.Access

/-!
# Font sizes

* `FontSize.all`     the sizes for which colors are resolved; `FontSize.names` the same as names;
* `FontSize.pixels`  the number at the front of the name of a size, zero where there is none;
* `FontSize.ofNumber` whole pixels of a number.
-/

namespace Palette.FontSize

/-- the sizes for which colors are resolved -/
def all : List String := ["12px", "14px", "16px", "20px", "24px", "32px"]

def names : List Atom := all.map .text

/-- the digits at the front of a name -/
def leading (s : String) : List Char := s.toList.takeWhile Text.isDigitLike

/-- the number that digits write; a digit that is no decimal digit writes none -/
def value? (ds : List Char) : Option Int := do
  let vs ← ds.mapM Text.digitValue
  if Numeral.digitLimit < ds.length then none else some (Text.digitsValue vs : Nat)

/-- the number at the front of the name of a size, zero where there is none; the name has to be a
text -/
def pixels : Atom → Except Fault Int
  | .text s =>
    match value? (leading s) with
    | some n => .ok n
    | none => .error (.unreadable (.whole s))
  | _ => .error .wrongKind

/-- the number at the front of a name that has been found to hold one -/
def px (name : Atom) : Int := ((name.text?.map leading).bind value?).getD 0

/-- a number of pixels, without its fraction; `unsized` for a float that is no number -/
def ofNumber (unsized : Int) : Document → Except Fault Int
  | .int n => .ok n
  | .bool b => .ok (if b then 1 else 0)
  | .float x =>
    match Dyadic.ofFloat? x with
    | some d => .ok d.floor
    | none => .ok (if x.isNaN then unsized else if 0.0 < x then 1000000000 else 0)
  | _ => .error .wrongKind

theorem pixels_eq_ok_iff (s : String) (n : Int) :
    pixels (.text s) = .ok n ↔ value? (leading s) = some n := by
  cases h : value? (leading s) <;> simp [pixels, h]

example : names.map px = [12, 14, 16, 20, 24, 32] := by decide

end Palette.FontSize
