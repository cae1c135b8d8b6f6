import SoundChange.Fault
import SoundChange.Pattern
import SoundChange.Text.Uppercase

/-!
# Reading a rule line

A rule line has up to five fields with `/` between them. An escape character `!` makes the next
character a literal; of the others, the marks `, # | _` are symbols of their own, an uppercase
character is a category letter and anything else is a literal. `RuleLine.read` returns the patterns
of the fields or the leftmost offence; the members of inline categories are looked at last.

* `isRule` tells a rule from a comment: a line without an unescaped `/` is a comment.
* `readFrom` is one pass over the line. All it keeps is the field it is in and, within a condition,
  where it stands between two bars (`Progress`).
-/

set_option autoImplicit false

namespace SoundChange

/-- The five fields of a rule, in the order they are written. -/
inductive Field where
  | target
  | change
  | environment
  | exception
  | elseChange
  deriving DecidableEq, Repr

namespace Field

/-- Environment and exception are conditions. -/
def isCondition : Field → Bool
  | environment | exception => true
  | _ => false

/-- The field after a separator. -/
def next? : Field → Option Field
  | target => some change
  | change => some environment
  | environment => some exception
  | exception => some elseChange
  | elseChange => none

end Field

namespace RuleLine

/-- Whether a line has a `/` that no escape takes away. -/
def isRule : List Char → Bool
  | [] => false
  | '!' :: [] => false
  | '!' :: _ :: rest => isRule rest
  | c :: rest => c == '/' || isRule rest

/-- Where a reader stands among the alternatives of a field. -/
inductive Progress where
  /-- Nothing of the field was read yet. -/
  | start
  /-- Right after a bar. -/
  | afterBar
  /-- Inside an alternative, which has its locus already or not. -/
  | within (hasLocus : Bool)
  deriving DecidableEq, Repr

/-- Whether the current alternative has its locus already. -/
def Progress.hasLocus : Progress → Bool
  | within b => b
  | _ => false

/-- The symbol of an unescaped character other than `/`, and the progress after it. -/
def symbolOf (field : Field) (progress : Progress) (c : Char) :
    Except LineFault (Symbol × Progress) :=
  match c with
  | ',' =>
    if field.isCondition then throw .commaInCondition
    else pure (.comma, .within progress.hasLocus)
  | '#' => pure (.edge, .within progress.hasLocus)
  | '|' =>
    if !field.isCondition then throw .barOutsideCondition
    else match progress with
      | .within _ => pure (.bar, .afterBar)
      | _ => throw .emptyAlternative
  | '_' =>
    if !field.isCondition then throw .locusOutsideCondition
    else if progress.hasLocus then throw .secondLocus
    else pure (.locus, .within true)
  | c => pure (if Text.isUppercase c then .category c else .literal c, .within progress.hasLocus)

/-- A field must not end right after a bar. -/
def checkEnd (progress : Progress) : Except LineFault Unit :=
  if progress = .afterBar then throw .emptyAlternative else pure ()

/-- Puts a symbol in front of the first of the patterns. -/
def prepend (t : Symbol) (patterns : Pattern × List Pattern) : Pattern × List Pattern :=
  (t :: patterns.1, patterns.2)

/-- Puts an empty pattern in front of the patterns. -/
def openPattern (patterns : Pattern × List Pattern) : Pattern × List Pattern :=
  ([], patterns.1 :: patterns.2)

/-- Reads the rest of a line: what is left of the current pattern, and the patterns after it. -/
def readFrom (field : Field) (progress : Progress) :
    List Char → Except LineFault (Pattern × List Pattern)
  | [] => do
    checkEnd progress
    pure ([], [])
  | '!' :: [] => throw .danglingEscape
  | '!' :: c :: rest => prepend (.literal c) <$> readFrom field (.within progress.hasLocus) rest
  | c :: rest =>
    if c = '/' then do
      checkEnd progress
      match field.next? with
      | none => throw .tooManyFields
      | some next => openPattern <$> readFrom next .start rest
    else do
      let (t, progress') ← symbolOf field progress c
      prepend t <$> readFrom field progress' rest

/-- A member of an inline category is a text and not empty. -/
def checkMember (member : List Symbol) : Except LineFault Unit :=
  if member.isEmpty then throw .emptyMember
  else if !Pattern.isText member then throw .memberNotText
  else pure ()

/-- A pattern with a comma is an inline category. -/
def checkMembers (p : Pattern) : Except LineFault Unit :=
  if p.contains .comma then (p.splitOn .comma).forM checkMember else pure ()

/-- The patterns of a line, or the reason why it has none. -/
def read (line : List Char) : Except LineFault (List Pattern) := do
  let (first, others) ← readFrom .target .start line
  (first :: others).forM checkMembers
  pure (first :: others)

/-- Escapes every character of a text, so that the text reads as literals. -/
def escape (text : List Char) : List Char :=
  text.flatMap fun c => ['!', c]

end RuleLine

end SoundChange
