import SoundChange.CommandLine.Run

/-!
# The command

Reads what a run needs from the system and writes what the run says. The files are read first, the
one with the settings and then the ones that the settings name, so that the run itself sees them as
a fixed `Disk`.
-/

set_option autoImplicit false

namespace SoundChange.CommandLine

/-- The options of the command. -/
def usage : String :=
  "Apply sound-change rules to words\n\n" ++
  "Arguments: [OPTIONS] [WORDS]...\n\n" ++
  "  -c, --config <CONFIG>  Config file path\n" ++
  "  -t, --trace            Print the rule lines that changed each word\n" ++
  "      --json             Print one JSON object per word\n" ++
  "  -h, --help             Print help"

/-- The cause of a failure that the system reports, with a number that may be negated. -/
def faultOf : IO.Error → FileFault
  | .noFileOrDirectory _ _ _ => .notFound
  | .alreadyExists _ _ _ => .alreadyExists
  | .inappropriateType _ code details =>
    if code = 20 ∨ -code = 20 then .notDirectory
    else if code = 21 ∨ -code = 21 then .isDirectory
    else .other details
  | .invalidArgument _ code details =>
    if code = 36 ∨ -code = 36 then .nameTooLong else .other details
  | error => .other (toString error)

/-- What the system finds at a path. -/
def observe (p : Path) : IO (Path × Except FileFault ByteArray) := do
  try
    pure (p, .ok (← IO.FS.readBinFile p.shown))
  catch error =>
    pure (p, .error (faultOf error))

/-- The disk of what was observed. -/
def observed (found : List (Path × Except FileFault ByteArray)) : Disk := fun p =>
  (found.lookup p).getD (.error .notFound)

/-- Reads a stream to its end. -/
partial def readAll (stream : IO.FS.Stream) (bytes : ByteArray) : IO ByteArray := do
  let chunk ← stream.read 65536
  if chunk.isEmpty then pure bytes else readAll stream (bytes ++ chunk)

/-- A path in the environment. -/
def pathVariable (name : String) : IO (Option Path) := do
  pure ((← IO.getEnv name).map fun text => ⟨text.toList⟩)

/-- How the command reads documents: without telling places, and names as they stand. -/
def reader : DocumentReader :=
  { malformed := "not the JSON that is wanted" }

/-- What a run with the given options needs. -/
def surroundings (o : Options) : IO Surroundings := do
  let environment : Environment :=
    { configHome := ← pathVariable "XDG_CONFIG_HOME", home := ← pathVariable "HOME" }
  let home ← environment.home.toList.mapM observe
  let first : Surroundings :=
    { disk := observed home, environment, input := .empty, readers := fun _ => reader }
  let file := o.settingsFile first
  let settings ← observe file
  let second := { first with disk := observed (settings :: home) }
  match loadSettings o second with
  | .error _ => pure second
  | .ok s => do
    let named ← (s.files file.parent?).mapM observe
    let third := { second with disk := observed (named ++ settings :: home) }
    if o.words.isEmpty && (prepare o third s).isOk then
      pure { third with input := ← readAll (← IO.getStdin) .empty }
    else pure third

/-- Writes what a run wrote, with its warnings as a log of their own, and returns its exit code. -/
def report (outcome : Outcome) : IO UInt32 := do
  for warning in outcome.warnings do
    IO.eprintln (String.ofList warning)
  IO.print (String.ofList outcome.output)
  IO.eprint (String.ofList outcome.errors)
  pure (UInt32.ofNat outcome.exitCode)

/-- Does what the arguments ask for. -/
def execute (arguments : List String) : IO UInt32 := do
  match parse (arguments.map String.toList) with
  | .help => do
    IO.println usage
    pure 0
  | .misuse => do
    IO.eprintln usage
    pure 2
  | .run o => do
    let s ← surroundings o
    report (run o s)

end SoundChange.CommandLine

/-- Runs the command. -/
def main (arguments : List String) : IO UInt32 :=
  SoundChange.CommandLine.execute arguments
