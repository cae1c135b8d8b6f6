import SoundChange.CommandLine.Output
import SoundChange.CommandLine.Request
import SoundChange.Settings.Document
import SoundChange.Settings.Location

/-!
# A run of the command

A run loads the settings, the rules and the categories, reads the rules, takes its words from
the command line or else from standard input, and only then writes what became of each word, and
warns a log of those that failed. If one of the steps before fails, nothing but the message of the
failure is written.
-/

set_option autoImplicit false

namespace SoundChange.CommandLine

/-- Why a run fails as a whole. -/
inductive Failure where
  /-- The settings, or what they name, cannot be had. -/
  | settings (cause : SettingsFault)
  /-- A rule cannot be read. -/
  | invalidRule (cause : CascadeFault)
  /-- Standard input cannot be read. -/
  | noInput (cause : FileFault)
  deriving DecidableEq, Repr

/-- The wording of a failure. -/
def Failure.message (readers : Path → DocumentReader) : Failure → String
  | settings cause => cause.message readers
  | invalidRule cause => s!"invalid rule: {cause.message}"
  | noInput cause => s!"failed to read stdin: {cause.message}"

/-- What a run is given besides its options. -/
structure Surroundings where
  disk : Disk
  environment : Environment
  input : ByteArray
  /-- How the documents on the disk are read. -/
  readers : Path → DocumentReader

/-- The file of the settings of a run. -/
def Options.settingsFile (o : Options) (s : Surroundings) : Path :=
  match o.config with
  | some p => p
  | none => Settings.defaultFile s.disk s.environment

/-- The words of a text: its lines without the blanks around them, where anything is left. -/
def wordsOf (text : List Char) : List Word :=
  ((Text.lines text).map Text.trim).filter fun w => !w.isEmpty

/-- The words of a run. -/
def Options.wordsFor (o : Options) (s : Surroundings) : Except Failure (List Word) :=
  if o.words.isEmpty then
    match Bytes.text? s.input with
    | some text => pure (wordsOf text)
    | none => throw (.noInput .notText)
  else pure o.words

/-- The settings of a run. -/
def loadSettings (o : Options) (s : Surroundings) : Except Failure Settings :=
  (Settings.loadFrom s.disk (o.settingsFile s)).mapError .settings

/-- The cascade of a run. Paths in the settings are seen from the directory of their file. -/
def prepare (o : Options) (s : Surroundings) (settings : Settings) : Except Failure Cascade := do
  let base := (o.settingsFile s).parent?
  let rules ← (settings.rulesToUse s.disk base).mapError .settings
  let table ← (settings.tableToUse s.disk base).mapError .settings
  (Cascade.withRules { table } rules).mapError .invalidRule

/-- What becomes of each word of a run. -/
def derivations (o : Options) (s : Surroundings) : Except Failure (List Derivation) := do
  let settings ← loadSettings o s
  let cascade ← prepare o s settings
  let words ← o.wordsFor s
  pure (cascade.deriveEach (o.trace || settings.trace) words)

/-- The derivations as they are written. -/
def render (o : Options) (ds : List Derivation) : List Char :=
  ds.flatMap fun d => if o.json then d.jsonLine else d.plain

/-- What is left of a run. -/
structure Outcome where
  exitCode : Nat
  /-- What it wrote. -/
  output : List Char
  /-- What it warned a log of. Where the log goes, and what it puts in front of a warning, such as
  the time, is not up to the run. -/
  warnings : List (List Char)
  /-- What it wrote about its own failure, apart from the log. -/
  errors : List Char
  deriving DecidableEq, Repr

/-- A run with the given options. -/
def run (o : Options) (s : Surroundings) : Outcome :=
  match derivations o s with
  | .ok ds => ⟨0, render o ds, ds.filterMap Derivation.warning?, []⟩
  | .error failure => ⟨1, [], [], (failure.message s.readers).toList ++ ['\n']⟩

end SoundChange.CommandLine
