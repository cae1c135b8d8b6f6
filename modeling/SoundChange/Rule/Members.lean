import SoundChange.Condition
import SoundChange.Verdict

/-!
# Rules about categories

A target that lists members is looked for at every character of the word. A member found there is
replaced by the member of the same index of the change, or by the change's text. All places are
judged on the word as it was, so that no replacement is the context of another.
-/

set_option autoImplicit false

namespace SoundChange

/-- The members that a pattern lists, by name or inline. -/
def Pattern.members (table : CategoryTable) (p : Pattern) : Except RuleFault (List Word) :=
  match categoryLetter? p with
  | some letter =>
    match table.get? letter with
    | some members => pure members
    | none => throw (.unknownCategory letter)
  | none => pure (inlineMembers p)

/-- What takes the place of the members of a category. -/
inductive Substitute where
  /-- For each member the one of the same index, or nothing if the list is too short. -/
  | memberwise (members : List Word)
  /-- The same text for every member. -/
  | uniform (text : Word)
  deriving DecidableEq, Repr

namespace Substitute

/-- What takes the place of the member with the given index. -/
def forMember : Substitute → Nat → Word
  | memberwise members, i => members.getD i []
  | uniform text, _ => text

/-- Whether both go member by member or both are texts. -/
def alike : Substitute → Substitute → Bool
  | memberwise _, memberwise _ | uniform _, uniform _ => true
  | _, _ => false

/-- The substitute that a change or else-change describes. -/
def ofPattern (table : CategoryTable) (p : Pattern) : Except RuleFault Substitute :=
  if Pattern.listsMembers p then memberwise <$> Pattern.members table p
  else if Pattern.isText p then pure (uniform (Pattern.text p))
  else throw .unfitChange

end Substitute

namespace Rule

/-- The substitutes of a rule's change and else-change, which have to be alike. -/
def substitutes (r : Rule) (table : CategoryTable) :
    Except RuleFault (Substitute × Option Substitute) := do
  let change ← Substitute.ofPattern table r.change
  match r.elseChange with
  | none => pure (change, none)
  | some p =>
    let other ← Substitute.ofPattern table p
    if change.alike other then pure (change, some other) else throw .elseChangeUnlikeChange

/-- What stands in the new word for the character `c` at index `i` of the word `w`. -/
def pieceAt (r : Rule) (table : CategoryTable) (members : List Word) (change : Substitute)
    (elseChange : Option Substitute) (w : Word) (c : Char) (i : Nat) : Except RuleFault Word :=
  match members.idxOf? [c] with
  | none => pure [c]
  | some k => do
    let verdict ← r.verdict (Alternative.matchesAround table w i 1)
    match verdict.select change elseChange with
    | some substitute => pure (substitute.forMember k)
    | none => pure [c]

/-- Applies a rule about a category with the given members. -/
def applyToMembers (r : Rule) (table : CategoryTable) (members : List Word) (w : Word) :
    Except RuleFault Word := do
  let (change, elseChange) ← r.substitutes table
  let pieces ← w.zipIdx.mapM fun (c, i) => r.pieceAt table members change elseChange w c i
  pure pieces.flatten

end Rule

end SoundChange
