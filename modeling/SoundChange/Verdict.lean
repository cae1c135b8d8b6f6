import SoundChange.Rule

/-!
# What the conditions of a rule decide

Where the exception of a rule holds, the else-change applies; where the environment holds, the
change; where neither does, nothing. An exception that is there but empty holds wherever the
environment asks for nothing or does not hold.

`Verdict.reach` is stated for any way to try an alternative, in any monad: the exception's
alternatives are tried first, and the first that holds decides.
-/

set_option autoImplicit false

namespace SoundChange

/-- What the conditions of a rule decide about a place. -/
inductive Verdict where
  /-- The change applies. -/
  | change
  /-- The else-change applies. -/
  | elseChange
  /-- Nothing applies. -/
  | keep
  deriving DecidableEq, Repr

namespace Verdict

/-- The alternatives to try of a condition: none if it is absent or empty. -/
def alternativesOf : Option Pattern → List Alternative
  | none | some [] => []
  | some (t :: ts) => Pattern.alternatives (t :: ts)

/-- The verdict if the environment asks for nothing. -/
def ofNoEnvironment (exception : Option Pattern) : Verdict :=
  if exception = some [] then .elseChange else .change

/-- The verdict if the environment does not hold. -/
def ofFailedEnvironment (exception : Option Pattern) : Verdict :=
  if exception = some [] then .elseChange else .keep

/-- Reaches a verdict by trying alternatives with `holds`. -/
def reach {m : Type → Type} [Monad m] (environment exception : Option Pattern)
    (holds : Alternative → m Bool) : m Verdict := do
  if ← (alternativesOf exception).anyM holds then
    return .elseChange
  match alternativesOf environment with
  | [] => return ofNoEnvironment exception
  | alternatives =>
    if ← alternatives.anyM holds then
      return .change
    return ofFailedEnvironment exception

/-- What a verdict selects of a change and an else-change that may be absent. -/
def select {α : Type} (change : α) (elseChange : Option α) : Verdict → Option α
  | .change => some change
  | .elseChange => elseChange
  | .keep => none

end Verdict

/-- The verdict of a rule's conditions, with `holds` to try an alternative. -/
def Rule.verdict {m : Type → Type} [Monad m] (r : Rule) (holds : Alternative → m Bool) :
    m Verdict :=
  Verdict.reach r.environment r.exception holds

end SoundChange
