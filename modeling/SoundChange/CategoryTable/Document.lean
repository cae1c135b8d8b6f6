import SoundChange.CategoryTable.Definitions
import SoundChange.File.Disk
import SoundChange.Json.Reader

/-!
# Category tables as JSON documents

The document of a table is an object with a member for each category, from its name to the array
of its members. A document may repeat a name, and the last one stays. Names are looked at once the
object is complete, and before whatever comes behind it.
-/

set_option autoImplicit false

namespace SoundChange.CategoryTable

/-- The table as a JSON value, in ascending order of the letters. -/
def toJson (t : CategoryTable) : Json :=
  .obj (t.categories.map fun c => ([c.1], .arr (c.2.map .str)))

/-- The document of a table, without blanks. -/
def toDocument (t : CategoryTable) : List Char :=
  t.toJson.compact

/-- The names that no category can have, as they stand in the document. -/
def badNames (members : List (List Char × List Word)) : List (List Char) :=
  (members.map Prod.fst).filter fun name => (letterOf? name).isNone

/-- The categories of the names that a category can have. -/
def goodCategories (members : List (List Char × List Word)) : List Category :=
  members.filterMap fun member => (letterOf? member.1).map fun letter => (letter, member.2)

/-- The table of named categories. -/
def ofNamed (members : List (List Char × List Word)) : Except DocumentFault CategoryTable :=
  match badNames members with
  | [] => pure (ofList (goodCategories members))
  | name :: others => throw (.badNames name others)

/-- Reads a table, and leaves what comes behind it. -/
def read (ls : List Json.Lexeme) : Except DocumentFault (CategoryTable × List Json.Lexeme) :=
  match Json.stringLists? ls with
  | none => throw .malformed
  | some (members, rest) => do
    let t ← ofNamed members
    pure (t, rest)

/-- The table of a document. -/
def parseDocument (text : List Char) : Except DocumentFault CategoryTable := do
  let (t, rest) ← read (Json.lexemes text)
  if rest.isEmpty then pure t else throw .malformed

/-- The table of a document. -/
def ofDocument (text : List Char) : Except CategoryFault CategoryTable :=
  (parseDocument text).mapError .malformed

/-- The table of the document in a file. A directory can be opened like a file but holds no
document. -/
def load (disk : Disk) (p : Path) : Except CategoryFault CategoryTable :=
  match disk p with
  | .ok bytes => ofDocument (Bytes.markedText bytes)
  | .error .isDirectory => throw (.malformed .malformed)
  | .error cause => throw (.unreadable cause)

theorem length_read {ls rest : List Json.Lexeme} {t : CategoryTable}
    (h : read ls = .ok (t, rest)) : rest.length < ls.length := by
  unfold read at h
  split at h
  · cases h
  · rename_i members left hs
    cases hf : ofNamed members with
    | error e => rw [hf] at h; cases h
    | ok u =>
      rw [hf] at h
      cases h
      exact Json.length_stringLists? hs

end SoundChange.CategoryTable
