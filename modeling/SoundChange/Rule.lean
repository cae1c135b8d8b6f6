import SoundChange.Pattern

/-!
# Rules

A rule turns its target into its change where its conditions allow it. There are two conditions, an
environment and an exception, and where the exception holds the else-change takes the place of the
change. A field that is absent and a field that is there but empty are told apart.
-/

set_option autoImplicit false

namespace SoundChange

/-- One sound change. -/
structure Rule where
  target : Pattern
  change : Pattern
  environment : Option Pattern
  exception : Option Pattern
  elseChange : Option Pattern
  deriving DecidableEq, Repr

namespace Rule

/-- The rule of a line's patterns: the first two are needed, and there are at most five fields. -/
def ofPatterns? : List Pattern → Option Rule
  | target :: change :: rest => some ⟨target, change, rest[0]?, rest[1]?, rest[2]?⟩
  | _ => none

/-- The patterns that are there, in the order they are written. -/
def patterns (r : Rule) : List Pattern :=
  r.target :: r.change :: (r.environment.toList ++ r.exception.toList ++ r.elseChange.toList)

theorem ofPatterns?_isSome_iff {ps : List Pattern} :
    (ofPatterns? ps).isSome = true ↔ 2 ≤ ps.length := by
  rcases ps with _ | ⟨_, _ | ⟨_, _⟩⟩ <;> simp [ofPatterns?]

end Rule

end SoundChange
