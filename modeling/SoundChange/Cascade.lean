import SoundChange.Rule.Apply
import SoundChange.RuleText

/-!
# Cascades

A cascade has a category table and, once a rule text was given to it, the entries of its lines. A
word goes through the rules in the order of their lines; `Cascade.run` gives the word that comes
out and the steps on the way, a step being a line that changed the word.

A rule text that cannot be read gives no new cascade, so that the one before it stays in use.
-/

set_option autoImplicit false

namespace SoundChange

/-- A line that changed a word. -/
structure Step where
  line : Nat
  before : Word
  after : Word
  deriving DecidableEq, Repr

/-- A category table and the entries of a rule text, if there is one. -/
structure Cascade where
  table : CategoryTable := .empty
  entries : Option (List RuleText.Entry) := none
  deriving DecidableEq

/-- What became of one word of a list, and the steps on the way. -/
structure Derivation where
  input : Word
  outcome : Except CascadeFault Word
  steps : List Step

namespace Derivation

/-- The word that came out, if no rule failed. -/
def output? (d : Derivation) : Option Word :=
  d.outcome.toOption

/-- The wording of the failure, if a rule failed. -/
def error? (d : Derivation) : Option String :=
  match d.outcome with
  | .ok _ => none
  | .error fault => some fault.message

/-- Whether no rule failed. -/
def isOk (d : Derivation) : Bool :=
  d.outcome.isOk

end Derivation

/-- Takes a word through numbered entries: what comes out, and the steps on the way. -/
def runEntries (table : CategoryTable) :
    List (RuleText.Entry × Nat) → Word → Except CascadeFault (Word × List Step)
  | [], w => pure (w, [])
  | (.comment, _) :: rest, w => runEntries table rest w
  | (.rule r, line) :: rest, w => do
    let next ← (r.apply table w).mapError (.inapplicable line)
    let (output, steps) ← runEntries table rest next
    pure (output, if next = w then steps else ⟨line, w, next⟩ :: steps)

namespace Cascade

/-- The cascade with another category table and the same rules. -/
def withTable (c : Cascade) (table : CategoryTable) : Cascade :=
  { c with table }

/-- The cascade with the rules of a text. -/
def withRules (c : Cascade) (text : List Char) : Except CascadeFault Cascade := do
  let entries ← RuleText.read text
  pure { c with entries := some entries }

/-- The number of rules. -/
def ruleCount (c : Cascade) : Nat :=
  match c.entries with
  | none => 0
  | some entries => entries.countP RuleText.Entry.isRule

/-- Takes a word through the rules. -/
def run (c : Cascade) (w : Word) : Except CascadeFault (Word × List Step) :=
  match c.entries with
  | none => throw .noRules
  | some entries => runEntries c.table (entries.zipIdx 1) w

/-- The word that the rules make of a word. -/
def apply (c : Cascade) (w : Word) : Except CascadeFault Word :=
  Prod.fst <$> c.run w

/-- The steps that change a word, in the order of the rules. -/
def steps (c : Cascade) (w : Word) : Except CascadeFault (List Step) :=
  Prod.snd <$> c.run w

/-- What becomes of one word of a list. A word that fails has no steps. -/
def derive (c : Cascade) (withSteps : Bool) (w : Word) : Derivation :=
  match c.run w with
  | .ok (output, steps) => ⟨w, .ok output, if withSteps then steps else []⟩
  | .error fault => ⟨w, .error fault, []⟩

/-- What becomes of each word of a list, whatever becomes of the others. -/
def deriveEach (c : Cascade) (withSteps : Bool) (ws : List Word) : List Derivation :=
  ws.map (c.derive withSteps)

end Cascade

end SoundChange
