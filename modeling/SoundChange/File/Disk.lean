import SoundChange.File.Fault
import SoundChange.File.Path

/-!
# Reading files

A `Disk` is what can be read: for each path the bytes of its file, or the reason why there are
none. Files hold texts in UTF-8.

* `text?_encode`: a text that was encoded is read back.
-/

set_option autoImplicit false

namespace SoundChange

/-- What is found at a path. -/
abbrev Disk := Path → Except FileFault ByteArray

/-! ## Bytes and texts -/

namespace Bytes

/-- The bytes of a text. -/
def encode (text : List Char) : ByteArray :=
  (String.ofList text).toByteArray

/-- The text of some bytes, if they are one. -/
def text? (bytes : ByteArray) : Option (List Char) :=
  Array.toList <$> bytes.utf8Decode?

/-- The characters that the bytes from `i` on hold before the first that belong to none. -/
def textFrom (bytes : ByteArray) (i : Nat) : List Char :=
  if _hi : i < bytes.size then
    match bytes.utf8DecodeChar? i with
    | some c => c :: textFrom bytes (i + c.utf8Size)
    | none => []
  else []
termination_by bytes.size - i
decreasing_by
  have := Char.utf8Size_pos ‹_›
  omega

/-- The text of some bytes as far as they are one. A NUL, which stands in no JSON text, marks the
place where they stop being a text. -/
def markedText (bytes : ByteArray) : List Char :=
  match text? bytes with
  | some text => text
  | none => textFrom bytes 0 ++ ['\x00']

@[simp] theorem text?_encode (text : List Char) : text? (encode text) = some text := by
  simp [text?, encode]

@[simp] theorem markedText_encode (text : List Char) : markedText (encode text) = text := by
  simp [markedText]

end Bytes

namespace Disk

/-- The text of a file. -/
def readText (disk : Disk) (p : Path) : Except FileFault (List Char) := do
  match Bytes.text? (← disk p) with
  | some text => pure text
  | none => throw .notText

/-- Whether there is a directory at a path: reading one fails for that reason. -/
def isDirectory (disk : Disk) (p : Path) : Bool :=
  match disk p with
  | .error .isDirectory => true
  | _ => false

end Disk

end SoundChange
