import SoundChange.CategoryTable
import SoundChange.CategoryTable.Fault
import SoundChange.Text.Blank
import SoundChange.Text.Lines
import SoundChange.Text.Uppercase

/-!
# Category definitions in plain text

A plain text defines one category on a line: a name, an equals sign and the members. Members with
a comma among them are the trimmed pieces between the commas; without one, each character is a
member. Blank lines define nothing, and the last definition of a name stays.
-/

set_option autoImplicit false

namespace SoundChange.CategoryTable

/-- The letter of a name, which has to be one uppercase character. -/
def letterOf? : List Char → Option Char
  | [c] => if Text.isUppercase c then some c else none
  | _ => none

/-- The text in front of the first equals sign and the text behind it. -/
def splitEquals? (line : List Char) : Option (List Char × List Char) :=
  match line.dropWhile (· != '=') with
  | [] => none
  | _ :: rest => some (line.takeWhile (· != '='), rest)

/-- The members that a text lists. -/
def membersOf (text : List Char) : List Word :=
  if text.contains ',' then (text.splitOn ',').map Text.trim else text.map fun c => [c]

/-- The category that a trimmed line defines. -/
def define (line : List Char) : Except DefinitionFault Category :=
  match splitEquals? line with
  | none => throw .noEqualsSign
  | some (name, members) =>
    match letterOf? (Text.trim name) with
    | none => throw (.badName (Text.trim name))
    | some letter => pure (letter, membersOf (Text.trim members))

/-- The table after the line with the given number. -/
def defineLine (t : CategoryTable) (line : List Char × Nat) : Except CategoryFault CategoryTable :=
  let text := Text.trim line.1
  if text.isEmpty then pure t
  else do
    let (letter, members) ← (define text).mapError (.misdefined line.2)
    pure (t.insert letter members)

/-- The table that a plain text defines; lines count from one. -/
def ofPlainText (text : List Char) : Except CategoryFault CategoryTable :=
  ((Text.lines text).zipIdx 1).foldlM defineLine empty

end SoundChange.CategoryTable
