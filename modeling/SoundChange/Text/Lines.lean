/-!
# Lines of a text

Two readings of "the lines of a text" are in use. A rule text is cut at every line feed, and one
carriage return is dropped at the end of each line, the last one included (`ruleLines`). A list of
words or definitions ends each line with LF or CRLF, so that a text ending in a line feed has no
empty last line, and a carriage return with no line feed after it belongs to the line (`lines`).
-/

set_option autoImplicit false

namespace SoundChange.Text

/-- Drops one carriage return at the end of a line. -/
def dropReturn (line : List Char) : List Char :=
  if line.getLast? = some '\r' then line.dropLast else line

/-- The lines of a rule text: one more than it has line feeds. -/
def ruleLines (text : List Char) : List (List Char) :=
  (text.splitOn '\n').map dropReturn

/-- Of the pieces between line feeds, all but the last were ended by one. -/
def endedLines : List (List Char) → List (List Char)
  | [] => []
  | [last] => if last.isEmpty then [] else [last]
  | line :: next :: rest => dropReturn line :: endedLines (next :: rest)

/-- The lines of a text whose lines end with LF or CRLF. -/
def lines (text : List Char) : List (List Char) :=
  endedLines (text.splitOn '\n')

@[simp] theorem dropReturn_nil : dropReturn [] = [] := rfl

@[simp] theorem dropReturn_append_return (line : List Char) :
    dropReturn (line ++ ['\r']) = line := by
  simp [dropReturn]

end SoundChange.Text
