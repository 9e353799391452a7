import Palette.FontSize

/-!
# Problems of specifications

What can be wrong with a specification, and where.

* `Complaint`      what is wrong;
* `Problem`        a complaint about the part at a path;
* `Problem.text`   path and complaint as one line.
-/

namespace Palette

/-- what is wrong with a part of a specification -/
inductive Complaint where
  | notMap
  | notList
  | notFilledList
  | notHex (given : String)
  | notColor
  | unknownSpace (given : Document)
  | notThree
  | notComponents
  | outside (step : Document)
  | outsideLength (step : Document) (length : Nat)
  | outsideRamp (step : Document) (ramp : String) (length : Nat)
  | notNames
  | unknownTheme (name : String)
  | unknownSize (name : String)
  | unknownRamp (given : Document)
  | notText
  | notBool
  | notTexts
  | notOneOf (allowed : List String)
  | notTheme (name : String)
  | notOffset
  | notNumber
  | shadows (name : String)
  | derivedTwice (name : String)
  | declaredTwice

namespace Complaint

def text : Complaint → String
  | .notMap => "must be an object"
  | .notList => "must be an array"
  | .notFilledList => "must be a non-empty array"
  | .notHex given => s!"must be a valid hex color (got {given})"
  | .notColor => "must be a hex string or color value object"
  | .unknownSpace given => s!"{given.phrase} is not a supported color space"
  | .notThree => "must be a list of 3 numbers"
  | .notComponents => "must contain numbers or 'none'"
  | .outside step => s!"{step.shown} is out of bounds"
  | .outsideLength step length => s!"{step.shown} is out of bounds (ramp length {length})"
  | .outsideRamp step ramp length =>
    s!"{step.shown} is out of bounds for ramp \"{ramp}\" (length {length})"
  | .notNames => "must be a string or a non-empty list of strings"
  | .unknownTheme name => s!"references unknown theme \"{name}\""
  | .unknownSize name => s!"\"{name}\" is not one of " ++ ", ".intercalate FontSize.all
  | .unknownRamp given => s!"references unknown ramp \"{given.shown}\""
  | .notText => "must be a string"
  | .notBool => "must be a boolean"
  | .notTexts => "must be an array of strings"
  | .notOneOf allowed => "must be one of: " ++ ", ".intercalate allowed
  | .notTheme name => s!"\"{name}\" is not a key in themes"
  | .notOffset => "must be an integer offset"
  | .notNumber => "must be a number"
  | .shadows name => s!"derives \"{name}\", which is already declared as a token"
  | .derivedTwice name => s!"derives \"{name}\", which another interaction also derives"
  | .declaredTwice => "duplicates a token declared in another section"

end Complaint

structure Problem where
  path : String
  complaint : Complaint

namespace Problem

def text (p : Problem) : String := p.path ++ " " ++ p.complaint.text

end Problem
end Palette
