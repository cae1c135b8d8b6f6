import SoundChange.Rule
import SoundChange.RuleLine
import SoundChange.Text.Lines

/-!
# Rule texts

A rule text has one rule or comment on each line. `RuleText.read` keeps one entry for each line, so
that an entry's place in the list is the number of its line, and stops at the first line that
cannot be read.
-/

set_option autoImplicit false

namespace SoundChange.RuleText

/-- What a line of a rule text says. -/
inductive Entry where
  /-- Nothing to apply. -/
  | comment
  /-- A sound change. -/
  | rule (r : Rule)
  deriving DecidableEq, Repr

/-- Whether the entry is a sound change. -/
def Entry.isRule : Entry → Bool
  | comment => false
  | rule _ => true

/-- The entry of a line; one without a separator is a comment, whatever else it holds. -/
def readLine (line : List Char) : Except LineFault Entry :=
  if RuleLine.isRule line then do
    let patterns ← RuleLine.read line
    match Rule.ofPatterns? patterns with
    | some r => pure (.rule r)
    | none => pure .comment
  else pure .comment

/-- The entry of the line with the given number. -/
def readNumbered (line : List Char × Nat) : Except CascadeFault Entry :=
  (readLine line.1).mapError (.unreadable line.2)

/-- The entries of a rule text, one for each line; lines count from one. -/
def read (text : List Char) : Except CascadeFault (List Entry) :=
  ((Text.ruleLines text).zipIdx 1).mapM readNumbered

end SoundChange.RuleText
