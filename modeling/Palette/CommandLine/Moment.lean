/-!
# Moments

The time of a build as a text: date and time of day without offset, and microseconds unless there
are none.

* `Moment.date`   the day of a number of days since the beginning of 1970;
* `Moment.text`   the text of a number of microseconds since then.
-/

namespace Palette

structure Date where
  year : Nat
  month : Nat
  day : Nat
  deriving DecidableEq, Repr

namespace Moment

/-- The day of a number of days since the beginning of 1970. Years are counted from March, so that
the leap day is the last one of its year; 719468 days lie between the first March and 1970, and
146097 days make 400 years. -/
def date (days : Nat) : Date :=
  let z := days + 719468
  let inEra := z % 146097
  let yearOfEra := (inEra - inEra / 1460 + inEra / 36524 - inEra / 146096) / 365
  let dayOfYear := inEra - (365 * yearOfEra + yearOfEra / 4 - yearOfEra / 100)
  let fromMarch := (5 * dayOfYear + 2) / 153
  let month := if fromMarch < 10 then fromMarch + 3 else fromMarch - 9
  { year := yearOfEra + z / 146097 * 400 + (if month ≤ 2 then 1 else 0)
    month
    day := dayOfYear - (153 * fromMarch + 2) / 5 + 1 }

/-- a number with at least some digits -/
def padded (width n : Nat) : String :=
  let ds := Nat.toDigits 10 n
  String.ofList (List.replicate (width - ds.length) '0' ++ ds)

/-- the text of a number of microseconds since the beginning of 1970 -/
def text (micros : Nat) : String :=
  let seconds := micros / 1000000
  let d := date (seconds / 86400)
  let fraction := micros % 1000000
  padded 4 d.year ++ "-" ++ padded 2 d.month ++ "-" ++ padded 2 d.day ++ "T" ++
    padded 2 (seconds / 3600 % 24) ++ ":" ++ padded 2 (seconds / 60 % 60) ++ ":" ++
    padded 2 (seconds % 60) ++
    (if fraction == 0 then "" else "." ++ padded 6 fraction) ++ "+00:00"

example : date 0 = ⟨1970, 1, 1⟩ ∧ date 59 = ⟨1970, 3, 1⟩ ∧ date 11016 = ⟨2000, 2, 29⟩ := by decide

end Moment
end Palette
