import SoundChange.CategoryTable.Document

/-!
# Settings

Settings name the categories and the rules, each written out or kept in a file of its own, and say
whether steps are to be traced. A relative path is seen from a base directory, if there is one. A
rules file takes the place of the rules that are written out; a categories file is merged over the
categories that are.
-/

set_option autoImplicit false

namespace SoundChange

/-- What a user sets. -/
structure Settings where
  categories : CategoryTable := .empty
  categoriesPath : Option Path := none
  rules : List Char := []
  rulesPath : Option Path := none
  trace : Bool := false
  deriving DecidableEq

/-- Why settings cannot be loaded, used or saved. -/
inductive SettingsFault where
  /-- The file of the settings cannot be read. -/
  | unreadable (p : Path) (cause : FileFault)
  /-- The document of the settings cannot be read. -/
  | invalid (p : Path) (cause : DocumentFault)
  /-- The rules file cannot be read. -/
  | rulesUnreadable (p : Path) (cause : FileFault)
  /-- The categories file gives no table. -/
  | noCategories (p : Path) (cause : CategoryFault)
  /-- The directory for the settings cannot be created. -/
  | noDirectory (cause : FileFault)
  /-- The file of the settings cannot be written. -/
  | unwritable (cause : FileFault)
  deriving DecidableEq, Repr

/-- The path in a message. -/
def Path.shown (p : Path) : String :=
  String.ofList p.text

/-- The wording of a settings fault; each document has a reader of its own. -/
def SettingsFault.message (readers : Path → DocumentReader) : SettingsFault → String
  | unreadable p cause => s!"failed to read config {p.shown}: {cause.message}"
  | invalid p cause => s!"invalid config {p.shown}: {cause.message (readers p)}"
  | rulesUnreadable p cause => s!"failed to read rules file {p.shown}: {cause.message}"
  | noCategories p cause => s!"{p.shown}: {cause.message (readers p)}"
  | noDirectory cause => s!"failed to create config directory: {cause.message}"
  | unwritable cause => s!"failed to write config: {cause.message}"

/-- The path seen from a base directory, if there is one. -/
def Path.from? (p : Path) : Option Path → Path
  | some base => base.join p
  | none => p

namespace Settings

/-- The files that the settings name. -/
def files (s : Settings) (base : Option Path) : List Path :=
  (s.rulesPath.toList ++ s.categoriesPath.toList).map (Path.from? · base)

/-- The rules to use. -/
def rulesToUse (s : Settings) (disk : Disk) (base : Option Path) :
    Except SettingsFault (List Char) :=
  match s.rulesPath with
  | none => pure s.rules
  | some p => (disk.readText (p.from? base)).mapError (.rulesUnreadable (p.from? base))

/-- The categories to use. -/
def tableToUse (s : Settings) (disk : Disk) (base : Option Path) :
    Except SettingsFault CategoryTable :=
  match s.categoriesPath with
  | none => pure s.categories
  | some p => do
    let loaded ← (CategoryTable.load disk (p.from? base)).mapError (.noCategories (p.from? base))
    pure (s.categories.merge loaded)

end Settings

end SoundChange
