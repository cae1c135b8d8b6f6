/-!
# Symbols of a rule

A rule is written with literal characters, category letters and four structural marks: `,` between
the members of an inline category, `#` for a word edge, `|` between the alternatives of a condition
and `_` for the place of the target in a condition.
-/

set_option autoImplicit false

namespace SoundChange

/-- A word is the list of its characters. -/
abbrev Word := List Char

/-- One symbol of a rule. -/
inductive Symbol where
  /-- A character standing for itself. -/
  | literal (c : Char)
  /-- Any member of the category of that letter. -/
  | category (letter : Char)
  /-- Between two members of an inline category. -/
  | comma
  /-- An edge of the word. -/
  | edge
  /-- Between two alternatives of a condition. -/
  | bar
  /-- The place of the target inside a condition. -/
  | locus
  deriving DecidableEq, Repr

namespace Symbol

/-- The character of a literal. -/
def literal? : Symbol → Option Char
  | literal c => some c
  | _ => none

/-- Whether the symbol is a literal. -/
def isLiteral : Symbol → Bool
  | literal _ => true
  | _ => false

/-- Whether the symbol refers to a category. -/
def isCategory : Symbol → Bool
  | category _ => true
  | _ => false

/-- Literals and commas make up an inline category. -/
def isLiteralOrComma : Symbol → Bool
  | literal _ | comma => true
  | _ => false

/-- Literals and word edges make up the change of a rule about word edges. -/
def isLiteralOrEdge : Symbol → Bool
  | literal _ | edge => true
  | _ => false

@[simp] theorem literal?_literal (c : Char) : (literal c).literal? = some c := rfl

theorem isLiteral_iff {t : Symbol} : t.isLiteral = true ↔ ∃ c, t = literal c := by
  cases t <;> simp [isLiteral]

end Symbol

end SoundChange
