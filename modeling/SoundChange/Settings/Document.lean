import SoundChange.File.Tree
import SoundChange.Settings

/-!
# Settings as JSON documents

The document of settings is an object with a member for each setting that is there. It is read from
left to right and the first offence is reported: a setting that is not there has its default, one
that is there twice is an offence, and a member that is no setting may hold any value. An array of
values in the order of the settings is read as well.

* `loadFrom`, `save`: settings in files.
-/

set_option autoImplicit false

namespace SoundChange.Settings

/-- The settings, in the order they are written. -/
inductive Key where
  | categories
  | categoriesPath
  | rules
  | rulesPath
  | trace
  deriving DecidableEq, Repr

namespace Key

/-- The name of a setting in a document. -/
def name : Key → List Char
  | categories => "categories".toList
  | categoriesPath => "categories_path".toList
  | rules => "rules".toList
  | rulesPath => "rules_path".toList
  | trace => "trace".toList

/-- All settings, in the order they are written. -/
def all : List Key :=
  [categories, categoriesPath, rules, rulesPath, trace]

/-- The setting of a name. -/
def ofName? (name : List Char) : Option Key :=
  all.find? fun k => k.name == name

end Key

/-! ## Writing -/

/-- A path as a JSON value. -/
def pathJson (p : Path) : Json :=
  .str p.text

/-- The settings as a JSON value; a path that is not there is left out. -/
def toJson (s : Settings) : Json :=
  .obj (
    [(Key.categories.name, s.categories.toJson)] ++
    (s.categoriesPath.toList.map fun p => (Key.categoriesPath.name, pathJson p)) ++
    [(Key.rules.name, .str s.rules)] ++
    (s.rulesPath.toList.map fun p => (Key.rulesPath.name, pathJson p)) ++
    [(Key.trace.name, .bool s.trace)])

/-- The document of the settings. -/
def toDocument (s : Settings) : List Char :=
  s.toJson.pretty

/-! ## Reading -/

/-- Reads a path, which may be null. -/
def readPath : List Json.Lexeme → Except DocumentFault (Option Path × List Json.Lexeme)
  | .null :: rest => pure (none, rest)
  | .str (some text) :: rest => pure (some ⟨text⟩, rest)
  | _ => throw .malformed

/-- Reads the value of a setting into the settings. -/
def readSetting (s : Settings) (k : Key) (ls : List Json.Lexeme) :
    Except DocumentFault (Settings × List Json.Lexeme) :=
  match k with
  | .categories => do
    let (t, rest) ← CategoryTable.read ls
    pure ({ s with categories := t }, rest)
  | .categoriesPath => do
    let (p, rest) ← readPath ls
    pure ({ s with categoriesPath := p }, rest)
  | .rules =>
    match ls with
    | .str (some text) :: rest => pure ({ s with rules := text }, rest)
    | _ => throw .malformed
  | .rulesPath => do
    let (p, rest) ← readPath ls
    pure ({ s with rulesPath := p }, rest)
  | .trace =>
    match ls with
    | .bool b :: rest => pure ({ s with trace := b }, rest)
    | _ => throw .malformed

/-- Reads the value of a member, given the settings that were read before it. -/
def readMember (s : Settings) (seen : List Key) (name : List Char) (ls : List Json.Lexeme) :
    Except DocumentFault ((Settings × List Key) × List Json.Lexeme) :=
  match Key.ofName? name with
  | some k =>
    if seen.contains k then throw .malformed
    else do
      let (s, rest) ← readSetting s k ls
      pure ((s, k :: seen), rest)
  | none =>
    match Json.skip? ls with
    | some rest => pure ((s, seen), rest)
    | none => throw .malformed

theorem length_readPath {ls rest : List Json.Lexeme} {p : Option Path}
    (h : readPath ls = .ok (p, rest)) : rest.length < ls.length := by
  unfold readPath at h
  split at h <;> cases h <;> simp

theorem length_readSetting {s s' : Settings} {k : Key} {ls rest : List Json.Lexeme}
    (h : readSetting s k ls = .ok (s', rest)) : rest.length < ls.length := by
  unfold readSetting at h
  split at h
  · cases hr : CategoryTable.read ls with
    | error e => rw [hr] at h; cases h
    | ok r => rw [hr] at h; cases h; exact CategoryTable.length_read hr
  · cases hr : readPath ls with
    | error e => rw [hr] at h; cases h
    | ok r => rw [hr] at h; cases h; exact length_readPath hr
  · split at h <;> cases h
    simp
  · cases hr : readPath ls with
    | error e => rw [hr] at h; cases h
    | ok r => rw [hr] at h; cases h; exact length_readPath hr
  · split at h <;> cases h
    simp

theorem length_readMember {s : Settings} {seen : List Key} {name : List Char}
    {ls rest : List Json.Lexeme} {r : Settings × List Key}
    (h : readMember s seen name ls = .ok (r, rest)) : rest.length ≤ ls.length := by
  unfold readMember at h
  split at h
  · rename_i k _
    split at h
    · cases h
    · cases hr : readSetting s k ls with
      | error e => rw [hr] at h; cases h
      | ok q => rw [hr] at h; cases h; exact Nat.le_of_lt (length_readSetting hr)
  · split at h
    · cases h
      exact Json.length_skip? ‹_›
    · cases h

/-- Reads members up to the end of an object, of which there is at least one. -/
def readMembers (s : Settings) (seen : List Key) :
    List Json.Lexeme → Except DocumentFault (Settings × List Json.Lexeme)
  | .str (some name) :: .colon :: rest =>
    match _hr : readMember s seen name rest with
    | .ok ((s, seen), .comma :: rest) => readMembers s seen rest
    | .ok ((s, _), .closeObject :: rest) => pure (s, rest)
    | .ok _ => throw .malformed
    | .error fault => throw fault
  | _ => throw .malformed
termination_by ls => ls.length
decreasing_by
  have := length_readMember _hr
  simp_all
  omega

/-- Reads the values of the given settings up to the end of an array. -/
def readValues (s : Settings) :
    List Key → List Json.Lexeme → Except DocumentFault (Settings × List Json.Lexeme)
  | [], _ => throw .malformed
  | k :: ks, ls => do
    let (s, rest) ← readSetting s k ls
    match rest with
    | .comma :: rest => readValues s ks rest
    | .closeArray :: rest => pure (s, rest)
    | _ => throw .malformed

/-- Reads settings, and leaves what comes behind them. -/
def read : List Json.Lexeme → Except DocumentFault (Settings × List Json.Lexeme)
  | .openObject :: .closeObject :: rest => pure ({}, rest)
  | .openObject :: rest => readMembers {} [] rest
  | .openArray :: .closeArray :: rest => pure ({}, rest)
  | .openArray :: rest => readValues {} Key.all rest
  | _ => throw .malformed

/-- The settings of a document. -/
def parseDocument (text : List Char) : Except DocumentFault Settings := do
  let (s, rest) ← read (Json.lexemes text)
  if rest.isEmpty then pure s else throw .malformed

/-! ## Files -/

/-- The settings of the document in a file. -/
def loadFrom (disk : Disk) (p : Path) : Except SettingsFault Settings := do
  let text ← (disk.readText p).mapError (.unreadable p)
  (parseDocument text).mapError (.invalid p)

/-- The file tree with the document of the settings at a path, whose directory is created if it is
not there. -/
def save (s : Settings) (tree : FileTree) (p : Path) : Except SettingsFault FileTree := do
  let tree ← match p.parent? with
    | some directory => (tree.createDirectories directory).mapError .noDirectory
    | none => pure tree
  (tree.write p (Bytes.encode s.toDocument)).mapError .unwritable

end SoundChange.Settings
