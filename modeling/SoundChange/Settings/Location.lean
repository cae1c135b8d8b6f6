import SoundChange.File.Disk

/-!
# Where settings are kept

Settings are kept in a directory of their own below the user's configuration directory. That is the
one that the environment names, if it names an absolute one; else `.config` in the user's home
directory, or in a directory for temporary files if there is no such home.
-/

set_option autoImplicit false

namespace SoundChange

/-- What the environment of a run says about the user's directories. -/
structure Environment where
  configHome : Option Path := none
  home : Option Path := none
  deriving DecidableEq, Repr

namespace Settings

/-- The file of the settings below a configuration directory. -/
def fileBelow (directory : Path) : Path :=
  (directory.join ⟨"soundshift".toList⟩).join ⟨"config.json".toList⟩

/-- The user's home directory, if it is an absolute path to a directory. -/
def homeDirectory (disk : Disk) (e : Environment) : Path :=
  match e.home with
  | some p => if p.isAbsolute && disk.isDirectory p then p else ⟨"/var/tmp".toList⟩
  | none => ⟨"/var/tmp".toList⟩

/-- The user's configuration directory. -/
def configDirectory (disk : Disk) (e : Environment) : Path :=
  match e.configHome with
  | some p => if p.isAbsolute then p else (homeDirectory disk e).join ⟨".config".toList⟩
  | none => (homeDirectory disk e).join ⟨".config".toList⟩

/-- The file in which settings are looked for if no other is named. -/
def defaultFile (disk : Disk) (e : Environment) : Path :=
  fileBelow (configDirectory disk e)

end Settings

end SoundChange
