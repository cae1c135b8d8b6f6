import SoundChange.File.Fault

/-!
# What can go wrong with category definitions

A table can be unreadable as a file, malformed as a JSON document, or misdefined on a line of a
plain text. In either form a name has to be one uppercase character.

What is said of a document is up to its reader in three ways, which make up a `DocumentReader`: its
words for what is no document, its words for the place of a name, and the order in which it looks
at the names of an object, which need not be theirs.
-/

set_option autoImplicit false

namespace SoundChange

/-- The wording of a name that no category can have. -/
def badNameMessage (name : List Char) : String :=
  s!"카테고리 이름 '{String.ofList name}'은(는) 대문자 한 글자여야 함"

/-- Why a JSON document is not what it should be. -/
inductive DocumentFault where
  /-- It is no JSON, or a value in it is of the wrong kind. -/
  | malformed
  /-- Categories have names that are not one uppercase character: this one, and the others behind it
  in the document. -/
  | badNames (name : List Char) (others : List (List Char))
  deriving DecidableEq, Repr

theorem perm_id (names : List (List Char)) : (id names).Perm names :=
  .refl names

/-- What a reader of documents is free in. -/
structure DocumentReader where
  /-- What it says of a malformed document. -/
  malformed : String
  /-- What it says behind a bad name, of the place in the document. -/
  place : String := ""
  /-- The order in which it looks at names. -/
  order : List (List Char) → List (List Char) := id
  order_perm : ∀ names, (order names).Perm names := by exact perm_id

/-- The bad name that is told, the first that the reader looks at. -/
def DocumentReader.told (reader : DocumentReader) (name : List Char) (others : List (List Char)) :
    List Char :=
  (reader.order (name :: others)).headD name

/-- The wording of a document fault. -/
def DocumentFault.message (reader : DocumentReader) : DocumentFault → String
  | malformed => reader.malformed
  | badNames name others =>
    s!"카테고리 정의 형식 오류: {badNameMessage (reader.told name others)}{reader.place}"

/-- Why a line of a plain text defines no category. -/
inductive DefinitionFault where
  /-- The line has no equals sign. -/
  | noEqualsSign
  /-- The name in front of the equals sign is not one uppercase character. -/
  | badName (name : List Char)
  deriving DecidableEq, Repr

/-- The wording of a definition fault. -/
def DefinitionFault.message : DefinitionFault → String
  | noEqualsSign => "'X=멤버' 형식이 아님"
  | badName name => badNameMessage name

/-- Why there is no category table. -/
inductive CategoryFault where
  /-- Its file cannot be opened. -/
  | unreadable (cause : FileFault)
  /-- Its document cannot be read. -/
  | malformed (cause : DocumentFault)
  /-- A line of its text defines no category; lines count from one. -/
  | misdefined (line : Nat) (cause : DefinitionFault)
  deriving DecidableEq, Repr

/-- The wording of a category fault. -/
def CategoryFault.message (reader : DocumentReader) : CategoryFault → String
  | unreadable cause => s!"파일 읽기 오류: {cause.message}"
  | malformed cause => s!"JSON 파싱 오류: {cause.message reader}"
  | misdefined line cause => s!"카테고리 정의 형식 오류: line {line}: {cause.message}"

end SoundChange
