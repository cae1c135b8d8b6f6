import SoundChange.Symbol

/-!
# Patterns

A pattern is what one field of a rule holds: a list of symbols. What it can stand for depends on
its shape: a text (`isText`), one named category (`categoryLetter?`), an inline category
(`isInlineCategory`, with its `inlineMembers`), or a condition with its `alternatives`.

* `text_map_literal`: literals read back as the text they spell.
* `eq_map_literal_of_isText`: a pattern that is a text has nothing but literals.
-/

set_option autoImplicit false

namespace SoundChange

/-- What one field of a rule holds. -/
abbrev Pattern := List Symbol

/-- One of the alternatives of a condition. -/
abbrev Alternative := List Symbol

namespace Pattern

/-- Whether the pattern is a text; the empty pattern is one. -/
def isText (p : Pattern) : Bool :=
  p.all Symbol.isLiteral

/-- Whether the pattern is an inline category: literals with at least one comma among them. -/
def isInlineCategory (p : Pattern) : Bool :=
  p.contains .comma && p.all Symbol.isLiteralOrComma

/-- The letter of a pattern that is one category and nothing else. -/
def categoryLetter? : Pattern → Option Char
  | [.category letter] => some letter
  | _ => none

/-- Whether the pattern lists the members of a category, by name or inline. -/
def listsMembers (p : Pattern) : Bool :=
  (categoryLetter? p).isSome || isInlineCategory p

/-- Whether a category occurs anywhere in the pattern. -/
def mentionsCategory (p : Pattern) : Bool :=
  p.any Symbol.isCategory

/-- How many word edges the pattern mentions. -/
def edgeCount (p : Pattern) : Nat :=
  p.count .edge

/-- The literals of the pattern, joined. -/
def text (p : Pattern) : Word :=
  p.filterMap Symbol.literal?

/-- The texts between the commas of the pattern. -/
def inlineMembers (p : Pattern) : List Word :=
  (p.splitOn .comma).map text

/-- The pieces between the bars of the pattern; an empty pattern has one empty piece. -/
def alternatives (p : Pattern) : List Alternative :=
  p.splitOn .bar

/-- The literals before and after the first word edge. -/
def aroundEdge (p : Pattern) : Word × Word :=
  (text (p.takeWhile (· != .edge)), text ((p.dropWhile (· != .edge)).drop 1))

@[simp] theorem isText_nil : isText [] = true := rfl

@[simp] theorem isText_map_literal (w : Word) : isText (w.map Symbol.literal) = true := by
  simp [isText, Symbol.isLiteral]

@[simp] theorem text_map_literal (w : Word) : text (w.map Symbol.literal) = w := by
  simp [text, List.filterMap_map, Function.comp_def]

theorem eq_map_literal_of_isText {p : Pattern} (h : isText p = true) :
    p = (text p).map Symbol.literal := by
  induction p with
  | nil => rfl
  | cons t p ih =>
    simp only [isText, List.all_cons, Bool.and_eq_true] at h
    obtain ⟨c, rfl⟩ := Symbol.isLiteral_iff.mp h.1
    simpa [text] using ih h.2

end Pattern

end SoundChange
