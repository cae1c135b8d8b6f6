import SoundChange.Rule.Members
import SoundChange.Rule.Occurrences
import SoundChange.Rule.WordEdge

/-!
# Applying a rule

The shape of its target says how a rule is applied: at a word edge, to the members of a category,
or to the occurrences of a text. A target of another shape is a fault.
-/

set_option autoImplicit false

namespace SoundChange

/-- The shapes that a target can have. -/
inductive TargetShape where
  /-- One word edge and no category. -/
  | wordEdge
  /-- A category, by name or inline. -/
  | members
  /-- A text, which may be empty. -/
  | text
  deriving DecidableEq, Repr

/-- The shape of a target, if it has one. -/
def Pattern.targetShape? (p : Pattern) : Option TargetShape :=
  if edgeCount p = 1 ∧ !mentionsCategory p then some .wordEdge
  else if 0 < edgeCount p then none
  else if listsMembers p then some .members
  else if isText p then some .text
  else none

/-- The word that a rule makes of a word. -/
def Rule.apply (r : Rule) (table : CategoryTable) (w : Word) : Except RuleFault Word :=
  match Pattern.targetShape? r.target with
  | some .wordEdge => r.applyAtEdge table w
  | some .members => do
    let members ← Pattern.members table r.target
    r.applyToMembers table members w
  | some .text => r.applyToOccurrences table (Pattern.text r.target) w
  | none => throw .unfitTarget

end SoundChange
