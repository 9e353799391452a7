import Palette.Archive.Basic

/-!
# Audits

An audit looks at the evaluations of an archive again.

* `Archive.failing`   the variants that do not pass, in order;
* `Archive.audit`     a sentence about each. A sentence needs a required value that is a number,
                      and a key whose parts are texts.
-/

namespace Palette

/-- a number with six significant digits -/
def Document.general : Document → Except Fault String
  | .int n => do return Decimal.general (← floatOfInt n)
  | .bool b => .ok (if b then "1" else "0")
  | .float x => .ok (Decimal.general x)
  | .text _ => .error (.unreadable .decimal)
  | .null => .error .wrongKind
  | .list _ => .error .wrongKind
  | .map _ => .error .wrongKind

namespace Archive

def describe (k : VariantKey) (v : StoredVariant) : Except Fault String := do
  let required ← match v.evaluation.required with
    | none => .ok "?"
    | some d => d.general
  return failureText (← k.text) v.evaluation.value required v.evaluation.metric

def failing (a : Archive) : List (VariantKey × StoredVariant) :=
  a.variants.toList.filter fun e => !e.2.evaluation.passed

def audit (a : Archive) : Except Fault (List String) := a.failing.mapM fun e => describe e.1 e.2

end Archive
end Palette
