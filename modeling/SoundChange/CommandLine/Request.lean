import SoundChange.File.Path
import SoundChange.Symbol

/-!
# Command lines

A command line has options and words in any order. `-c PATH` (`--config`) names the file of the
settings, `-t` (`--trace`) asks for the steps and `--json` for JSON; each may be given once. Short
options can be joined in one argument, and a path may be attached to its option. Behind `--` there
are only words, and a lone `-` is a word as well. `-h` (`--help`) asks for help as soon as it is
met.
-/

set_option autoImplicit false

namespace SoundChange.CommandLine

/-- What a command line sets. -/
structure Options where
  config : Option Path := none
  trace : Bool := false
  json : Bool := false
  words : List Word := []
  deriving DecidableEq, Repr

/-- What a command line asks for. -/
inductive Request where
  /-- A run with these options. -/
  | run (options : Options)
  /-- A description of the options. -/
  | help
  /-- Nothing that makes sense. -/
  | misuse
  deriving DecidableEq, Repr

/-- How reading goes on after an option. -/
inductive Progress where
  /-- With the next argument. -/
  | proceed (options : Options)
  /-- With the path that the next argument has to be. -/
  | needPath (options : Options)
  /-- Not at all. -/
  | stop (request : Request)

namespace Options

/-- The options with the file of the settings, which is named once and not empty. -/
def setConfig (o : Options) (text : List Char) : Progress :=
  if text.isEmpty || o.config.isSome then .stop .misuse
  else .proceed { o with config := some ⟨text⟩ }

/-- The options with steps asked for, which is done once. -/
def setTrace (o : Options) : Progress :=
  if o.trace then .stop .misuse else .proceed { o with trace := true }

/-- The options with JSON asked for, which is done once. -/
def setJson (o : Options) : Progress :=
  if o.json then .stop .misuse else .proceed { o with json := true }

/-- The options with one more word. -/
def addWord (o : Options) (w : Word) : Options :=
  { o with words := o.words ++ [w] }

/-- Reads a long option without its dashes; an attached value stands behind an equals sign. -/
def readLong (o : Options) (text : List Char) : Progress :=
  let name := text.takeWhile (· != '=')
  match text.dropWhile (· != '=') with
  | [] =>
    if name = "config".toList then .needPath o
    else if name = "trace".toList then o.setTrace
    else if name = "json".toList then o.setJson
    else if name = "help".toList then .stop .help
    else .stop .misuse
  | _ :: value => if name = "config".toList then o.setConfig value else .stop .misuse

/-- Reads short options joined in one argument, without the dash. What stands behind the option
that takes a path is the path, with or without an equals sign in front. -/
def readShort (o : Options) : List Char → Progress
  | [] => .proceed o
  | 'c' :: [] => .needPath o
  | 'c' :: '=' :: value => o.setConfig value
  | 'c' :: value => o.setConfig value
  | 't' :: rest =>
    match o.setTrace with
    | .proceed o => readShort o rest
    | progress => progress
  | 'h' :: _ => .stop .help
  | _ => .stop .misuse

/-- Whether an argument can be the path of the option in front of it: it must not look like an
option itself. -/
def isValue : List Char → Bool
  | '-' :: _ :: _ => false
  | _ => true

/-- Reads one argument that is not a path. -/
def readArgument (o : Options) : List Char → Progress
  | '-' :: '-' :: text => o.readLong text
  | '-' :: c :: text => o.readShort (c :: text)
  | w => .proceed (o.addWord w)

/-- Reads the arguments after those that gave the options `o`. -/
def readArguments (o : Options) : List (List Char) → Request
  | [] => .run o
  | argument :: rest =>
    if argument = ['-', '-'] then .run { o with words := o.words ++ rest }
    else
      match o.readArgument argument with
      | .proceed o => readArguments o rest
      | .stop request => request
      | .needPath o =>
        match rest with
        | [] => .misuse
        | value :: rest =>
          if isValue value then
            match o.setConfig value with
            | .proceed o => readArguments o rest
            | _ => .misuse
          else .misuse

end Options

/-- What the arguments ask for. -/
def parse (arguments : List (List Char)) : Request :=
  Options.readArguments {} arguments

end SoundChange.CommandLine
