/-!
# JSON values and their text

`Json` is a JSON value; an object keeps its members in order, and a number is kept as it is
written. `compact` writes a value without any blanks, `pretty` with one item or member on a line
and two blanks for each level.

A text is quoted with the fewest escapes: quotation mark, backslash and the control characters
below U+0020 are escaped and every other character stands for itself.
-/

set_option autoImplicit false

namespace SoundChange

/-- A JSON value. -/
inductive Json where
  | null
  | bool (b : Bool)
  | num (digits : List Char)
  | str (text : List Char)
  | arr (items : List Json)
  | obj (members : List (List Char × Json))
  deriving Repr

namespace Json

/-- A number without sign and fraction. -/
def nat (n : Nat) : Json :=
  num (Nat.toDigits 10 n)

/-! ## Quoting -/

/-- The digits of a code point below U+0100. -/
def hexPair (n : Nat) : List Char :=
  [Nat.digitChar (n / 16), Nat.digitChar (n % 16)]

/-- A character between quotation marks. -/
def escapeChar (c : Char) : List Char :=
  if c = '"' then ['\\', '"']
  else if c = '\\' then ['\\', '\\']
  else if c = '\n' then ['\\', 'n']
  else if c = '\r' then ['\\', 'r']
  else if c = '\t' then ['\\', 't']
  else if c = '\x08' then ['\\', 'b']
  else if c = '\x0c' then ['\\', 'f']
  else if c.toNat < 0x20 then ['\\', 'u', '0', '0'] ++ hexPair c.toNat
  else [c]

/-- A text between quotation marks. -/
def quote (text : List Char) : List Char :=
  '"' :: (text.flatMap escapeChar ++ ['"'])

/-! ## Without blanks -/

mutual

/-- The text of a value without blanks. -/
def compact : Json → List Char
  | null => ['n', 'u', 'l', 'l']
  | bool true => ['t', 'r', 'u', 'e']
  | bool false => ['f', 'a', 'l', 's', 'e']
  | num digits => digits
  | str text => quote text
  | arr items => '[' :: (compactItems items ++ [']'])
  | obj members => '{' :: (compactMembers members ++ ['}'])

/-- Items with commas between them. -/
def compactItems : List Json → List Char
  | [] => []
  | item :: rest => compact item ++ compactMoreItems rest

/-- Items with a comma before each of them. -/
def compactMoreItems : List Json → List Char
  | [] => []
  | item :: rest => ',' :: (compact item ++ compactMoreItems rest)

/-- Members with commas between them. -/
def compactMembers : List (List Char × Json) → List Char
  | [] => []
  | (key, value) :: rest => quote key ++ ':' :: (compact value ++ compactMoreMembers rest)

/-- Members with a comma before each of them. -/
def compactMoreMembers : List (List Char × Json) → List Char
  | [] => []
  | (key, value) :: rest =>
    ',' :: (quote key ++ ':' :: (compact value ++ compactMoreMembers rest))

end

/-! ## With a line for each item -/

/-- A line feed and the blanks of a level. -/
def newline (level : Nat) : List Char :=
  '\n' :: List.replicate (2 * level) ' '

mutual

/-- The text of a value with a line for each item, at a level of nesting. -/
def prettyAt (level : Nat) : Json → List Char
  | null => ['n', 'u', 'l', 'l']
  | bool true => ['t', 'r', 'u', 'e']
  | bool false => ['f', 'a', 'l', 's', 'e']
  | num digits => digits
  | str text => quote text
  | arr [] => ['[', ']']
  | arr (item :: rest) =>
    '[' :: (newline (level + 1) ++ prettyAt (level + 1) item ++
      prettyMoreItems (level + 1) rest ++ newline level ++ [']'])
  | obj [] => ['{', '}']
  | obj ((key, value) :: rest) =>
    '{' :: (newline (level + 1) ++ quote key ++ ':' :: ' ' :: (prettyAt (level + 1) value ++
      prettyMoreMembers (level + 1) rest ++ newline level ++ ['}']))

/-- Items on lines of their own, with a comma before each of them. -/
def prettyMoreItems (level : Nat) : List Json → List Char
  | [] => []
  | item :: rest => ',' :: (newline level ++ prettyAt level item ++ prettyMoreItems level rest)

/-- Members on lines of their own, with a comma before each of them. -/
def prettyMoreMembers (level : Nat) : List (List Char × Json) → List Char
  | [] => []
  | (key, value) :: rest =>
    ',' :: (newline level ++ quote key ++ ':' :: ' ' :: (prettyAt level value ++
      prettyMoreMembers level rest))

end

/-- The text of a value with a line for each item. -/
def pretty (j : Json) : List Char :=
  prettyAt 0 j

end Json

end SoundChange
