/-!
# What can go wrong with a file

The causes for which a file cannot be read or written, with the system's wording.
-/

set_option autoImplicit false

namespace SoundChange

/-- Why a file cannot be read or written. -/
inductive FileFault where
  /-- There is no such file. -/
  | notFound
  /-- There is a file of that name already. -/
  | alreadyExists
  /-- A file stands where the path needs a directory. -/
  | notDirectory
  /-- A directory stands where the path needs a file. -/
  | isDirectory
  /-- The path or one of its names is longer than the system allows. -/
  | nameTooLong
  /-- The path holds a character that no file name has. -/
  | nulInName
  /-- The content is no text. -/
  | notText
  /-- Any other cause, in the system's words. -/
  | other (words : String)
  deriving DecidableEq, Repr

/-- The wording of a file fault. -/
def FileFault.message : FileFault → String
  | notFound => "No such file or directory (os error 2)"
  | alreadyExists => "File exists (os error 17)"
  | notDirectory => "Not a directory (os error 20)"
  | isDirectory => "Is a directory (os error 21)"
  | nameTooLong => "File name too long (os error 36)"
  | nulInName => "file name contained an unexpected NUL byte"
  | notText => "stream did not contain valid UTF-8"
  | other words => words

end SoundChange
