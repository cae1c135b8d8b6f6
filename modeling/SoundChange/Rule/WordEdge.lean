import SoundChange.Condition
import SoundChange.Verdict

/-!
# Rules about word edges

A target with one word edge and no category is about the word as a whole: `#` alone is the whole
word or the place of an affix, `#t` is the beginning `t` of a word and `t#` its end. The conditions
are decided first, on the whole word; only the pattern that they select is looked at.
-/

set_option autoImplicit false

namespace SoundChange.Rule

/-- Puts `change` in the place of what the target names: the whole word if it names nothing but
the edge, else the beginning or the end, where the word has it. -/
def replaceAtEdge (target : Pattern) (change w : Word) : Except RuleFault Word :=
  match Pattern.aroundEdge target with
  | ([], []) => pure change
  | ([], after) =>
    match after.isPrefixOf? w with
    | some rest => pure (change ++ rest)
    | none => pure w
  | (before, []) =>
    match before.isSuffixOf? w with
    | some rest => pure (rest ++ change)
    | none => pure w
  | _ => throw .textOnBothSides

/-- Changes the word at its edge: a change with a word edge adds an affix on either side of the
word, any other replaces what the target names. -/
def changeAtEdge (target change : Pattern) (w : Word) : Except RuleFault Word :=
  if !change.all Symbol.isLiteralOrEdge then throw .unfitChange
  else match Pattern.edgeCount change with
  | 0 => replaceAtEdge target (Pattern.text change) w
  | 1 =>
    if target = [.edge] then
      let (front, back) := Pattern.aroundEdge change
      pure (front ++ w ++ back)
    else throw .affixOnMoreThanEdge
  | _ => throw .unfitChange

/-- Applies a rule about word edges. -/
def applyAtEdge (r : Rule) (table : CategoryTable) (w : Word) : Except RuleFault Word := do
  let verdict ← r.verdict (Alternative.matchesInWord table w)
  match verdict.select r.change r.elseChange with
  | some change => changeAtEdge r.target change w
  | none => pure w

end SoundChange.Rule
