import SoundChange.File.Disk

/-!
# File trees

A file tree is a directory with files and directories in it, and the location from which relative
paths start. Locations are lists of names from the root; `Node.find` and `Node.put` go down one.
Paths are followed piece by piece, and every piece but the last has to be a directory.

* `Node.find_put`: a node is seen where it was put.
-/

set_option autoImplicit false

namespace SoundChange

/-- The names that lead from the root to a file. -/
abbrev Location := List (List Char)

/-- A file with its content, or a directory with the nodes of its names. -/
inductive Node where
  | file (content : ByteArray)
  | directory (entries : List (List Char × Node))

namespace Node

/-- The entries of a directory; a file has none. -/
def entries : Node → List (List Char × Node)
  | file _ => []
  | directory entries => entries

/-- What stands at a location below a node. -/
def find (n : Node) : Location → Option Node
  | [] => some n
  | name :: l => (n.entries.lookup name).bind fun child => child.find l

/-- The node with another one at a location, and with directories on the way there. -/
def put (n new : Node) : Location → Node
  | [] => new
  | name :: l =>
    .directory ((name, ((n.entries.lookup name).getD (.directory [])).put new l) ::
      n.entries.filter fun entry => entry.1 != name)

@[simp] theorem entries_directory (es : List (List Char × Node)) : (directory es).entries = es :=
  rfl

@[simp] theorem find_nil (n : Node) : n.find [] = some n := rfl

theorem find_cons (n : Node) (name : List Char) (l : Location) :
    n.find (name :: l) = (n.entries.lookup name).bind fun child => child.find l := rfl

theorem lookup_filter_of_ne (es : List (List Char × Node)) {name other : List Char}
    (h : other ≠ name) : (es.filter fun entry => entry.1 != name).lookup other =
      es.lookup other := by
  induction es with
  | nil => rfl
  | cons entry es ih =>
    obtain ⟨key, child⟩ := entry
    by_cases hk : key = name
    · subst hk
      have ho : (other == key) = false := by simpa using h
      simp [List.lookup_cons, ih, ho]
    · simp [List.lookup_cons, hk, ih]

/-- Below the name that a node is put under stands what stood there, with the node put in it. -/
theorem find_put_cons (n new : Node) (name : List Char) (l l' : Location) :
    (n.put new (name :: l)).find (name :: l') =
      (((n.entries.lookup name).getD (.directory [])).put new l).find l' := by
  simp [find_cons, put]

theorem find_put_cons_of_ne (n new : Node) {name other : List Char} (h : other ≠ name)
    (l l' : Location) : (n.put new (name :: l)).find (other :: l') = n.find (other :: l') := by
  have ho : (other == name) = false := by simpa using h
  simp [find_cons, put, List.lookup_cons, ho, lookup_filter_of_ne _ h]

@[simp] theorem find_put (n new : Node) (l : Location) : (n.put new l).find l = some new := by
  induction l generalizing n with
  | nil => rfl
  | cons name l ih => rw [find_put_cons, ih]

end Node

/-- Files and directories below a root, and where relative paths start. -/
structure FileTree where
  root : Node
  here : Location

namespace FileTree

/-- The tree that has nothing but its root. -/
def empty : FileTree := ⟨.directory [], []⟩

/-- What stands at a location. -/
def find (t : FileTree) (l : Location) : Option Node :=
  t.root.find l

/-- The tree with a node put at a location. -/
def put (t : FileTree) (l : Location) (node : Node) : FileTree :=
  { t with root := t.root.put node l }

/-- The most bytes that a name can have. -/
def maxNameSize : Nat := 255

/-- The most bytes that a path can have. -/
def maxPathSize : Nat := 4095

/-- A name has to be short enough. -/
def checkName (name : List Char) : Except FileFault Unit :=
  if (Bytes.encode name).size ≤ maxNameSize then pure () else throw .nameTooLong

/-- No name has a NUL, an empty path leads nowhere, and a path has to be short enough. -/
def checkPath (p : Path) : Except FileFault Unit :=
  if p.text.contains '\x00' then throw .nulInName
  else if p.text.isEmpty then throw .notFound
  else if (Bytes.encode p.text).size ≤ maxPathSize then pure ()
  else throw .nameTooLong

/-! ## Following paths -/

/-- A node of a tree, and the names from the node up to the root. -/
structure Spot where
  upward : Location
  node : Node

/-- The spot with the given names from it up to the root. -/
def spot (t : FileTree) (upward : Location) : Except FileFault Spot :=
  match t.find upward.reverse with
  | some node => pure ⟨upward, node⟩
  | none => throw .notFound

/-- The spot that a piece leads to from a directory. -/
def enter (t : FileTree) (s : Spot) (piece : List Char) : Except FileFault Spot :=
  match s.node with
  | .file _ => throw .notDirectory
  | .directory entries =>
    if Path.isIdle piece then pure s
    else if piece = ['.', '.'] then t.spot s.upward.tail
    else do
      checkName piece
      match entries.lookup piece with
      | some child => pure ⟨piece :: s.upward, child⟩
      | none => throw .notFound

/-- Where a path starts. -/
def start (t : FileTree) (p : Path) : Except FileFault Spot :=
  t.spot (if p.isAbsolute then [] else t.here.reverse)

/-- Reads the file at a path. -/
def disk (t : FileTree) : Disk := fun p => do
  checkPath p
  let s ← p.pieces.foldlM t.enter (← t.start p)
  match s.node with
  | .file content => pure content
  | .directory _ => throw .isDirectory

/-- The directory that the last piece of a path is looked up in, and that piece. Slashes at the
end of the path do not count. -/
def slot (t : FileTree) (p : Path) : Except FileFault (Spot × List Char) := do
  checkPath p
  let pieces := (p.pieces.reverse.dropWhile List.isEmpty).reverse
  let s ← pieces.dropLast.foldlM t.enter (← t.start p)
  let s ← t.enter s []
  pure (s, pieces.getLastD [])

/-! ## Changing a tree -/

/-- The tree with a node put under a name of a directory. -/
def putUnder (t : FileTree) (s : Spot) (name : List Char) (node : Node) : FileTree :=
  t.put (name :: s.upward).reverse node

/-- Whether a piece is no name: it leads to a directory that is there already. -/
def isNoName (piece : List Char) : Bool :=
  Path.isIdle piece || piece == ['.', '.']

/-- The tree with a new directory at a path. -/
def makeDirectory (t : FileTree) (p : Path) : Except FileFault FileTree := do
  let (s, name) ← t.slot p
  if isNoName name then throw .alreadyExists
  else do
    checkName name
    if (s.node.entries.lookup name).isSome then throw .alreadyExists
    else pure (t.putUnder s name (.directory []))

/-- The tree with a directory at a path, which may be there already. -/
def ensureDirectory (t : FileTree) (p : Path) : Except FileFault FileTree :=
  match t.makeDirectory p with
  | .ok t' => pure t'
  | .error fault => if t.disk.isDirectory p then pure t else throw fault

/-- The tree with a directory at a path and at every path that leads to it. -/
def createDirectories (t : FileTree) (p : Path) : Except FileFault FileTree :=
  if p.text.isEmpty then pure t
  else
    match t.ensureDirectory p with
    | .error .notFound =>
      match _hq : p.parent? with
      | some q => do (← createDirectories t q).ensureDirectory p
      | none => throw .notFound
    | result => result
termination_by p.text.length
decreasing_by exact Path.length_parent? _hq

/-- The tree with a file at a path, over one that is there already. -/
def write (t : FileTree) (p : Path) (content : ByteArray) : Except FileFault FileTree := do
  let (s, name) ← t.slot p
  if isNoName name || p.text.getLast? == some '/' then throw .isDirectory
  else do
    checkName name
    match s.node.entries.lookup name with
    | some (.directory _) => throw .isDirectory
    | _ => pure (t.putUnder s name (.file content))

end FileTree

end SoundChange
