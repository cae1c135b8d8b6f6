import SoundChange.Cascade
import SoundChange.Json

/-!
# What is written for a word

A derivation is written as plain lines, one for the word and one for each step, or as one JSON
object on a line of its own. Where it failed, a log is warned as well.
-/

set_option autoImplicit false

namespace SoundChange

/-- The step as a plain line. -/
def Step.plain (step : Step) : List Char :=
  "    line ".toList ++ Nat.toDigits 10 step.line ++ ": ".toList ++ step.before ++
    " -> ".toList ++ step.after ++ ['\n']

/-- The step as a JSON value. -/
def Step.toJson (step : Step) : Json :=
  .obj [("line".toList, .nat step.line), ("before".toList, .str step.before),
    ("after".toList, .str step.after)]

namespace Derivation

/-- What stands behind the arrow: the word that came out or the failure. -/
def plainOutcome (d : Derivation) : List Char :=
  match d.outcome with
  | .ok output => output
  | .error fault => "ERROR: ".toList ++ fault.message.toList

/-- The derivation as plain lines. -/
def plain (d : Derivation) : List Char :=
  d.input ++ " -> ".toList ++ d.plainOutcome ++ ['\n'] ++ d.steps.flatMap Step.plain

/-- The word that came out, or null. -/
def outputJson (d : Derivation) : Json :=
  match d.output? with
  | some output => .str output
  | none => .null

/-- The derivation as a JSON value; a failure and steps are there only if there are any. -/
def toJson (d : Derivation) : Json :=
  .obj (
    [("input".toList, .str d.input), ("output".toList, d.outputJson)] ++
    (d.error?.toList.map fun error => ("error".toList, .str error.toList)) ++
    (if d.steps.isEmpty then []
      else [("trace".toList, .arr (d.steps.map Step.toJson))]))

/-- The derivation as a line of JSON. -/
def jsonLine (d : Derivation) : List Char :=
  d.toJson.compact ++ ['\n']

/-- What a log is warned of: the failure, if there is one. -/
def warning? (d : Derivation) : Option (List Char) :=
  d.error?.map fun error => "'".toList ++ d.input ++ "' 적용 실패: ".toList ++ error.toList

end Derivation

end SoundChange
