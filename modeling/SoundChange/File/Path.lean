/-!
# Paths

A path is its text. An absolute path starts with a slash; slashes part it into pieces. `join`
appends one path to another, and `parent?` takes the last piece away, where repeated slashes and
pieces `.` behind the first do not count as pieces.

* `length_parent?`: a parent is shorter, so that going up ends.
-/

set_option autoImplicit false

namespace SoundChange

/-- The text of a path. -/
structure Path where
  text : List Char
  deriving DecidableEq, Repr

namespace Path

/-- Whether the path starts at the root. -/
def isAbsolute (p : Path) : Bool :=
  p.text.head? == some '/'

/-- The path `q` seen from `p`: `q` itself if it is absolute, else `q` behind `p`, with a slash
between them unless `p` is empty or ends with one. -/
def join (p q : Path) : Path :=
  if q.isAbsolute then q
  else if p.text.isEmpty || p.text.getLast? == some '/' then ⟨p.text ++ q.text⟩
  else ⟨p.text ++ '/' :: q.text⟩

/-- The pieces of the path between slashes. -/
def pieces (p : Path) : List (List Char) :=
  p.text.splitOn '/'

/-- A piece that names no file: nothing between two slashes, or a dot. -/
def isIdle (piece : List Char) : Bool :=
  piece.isEmpty || piece == ['.']

/-- The text without the idle pieces at its end. -/
def dropIdle (text : List Char) : List Char :=
  List.intercalate ['/'] ((text.splitOn '/').reverse.dropWhile isIdle).reverse

/-- The text without its last piece. -/
def dropPiece (text : List Char) : List Char :=
  List.intercalate ['/'] (text.splitOn '/').dropLast

/-- A leading slash, or a dot that is a piece of its own, and the text behind it. -/
def splitHead : List Char → List Char × List Char
  | '/' :: rest => (['/'], rest)
  | ['.'] => (['.'], [])
  | '.' :: '/' :: rest => (['.'], '/' :: rest)
  | text => ([], text)

/-- The path without its last piece, if it has one. -/
def parent? (p : Path) : Option Path :=
  let (head, body) := splitHead p.text
  match dropIdle body with
  | [] => if head = ['.'] then some ⟨[]⟩ else none
  | body => some ⟨head ++ dropIdle (dropPiece body)⟩

/-! ## A parent is shorter -/

theorem length_intercalate_append (xs ys : List (List Char)) :
    (List.intercalate ['/'] xs).length ≤ (List.intercalate ['/'] (xs ++ ys)).length := by
  induction xs with
  | nil => simp
  | cons x xs ih =>
    cases xs with
    | nil => cases ys <;> simp [List.intercalate_cons_cons]
    | cons x' xs =>
      simp only [List.cons_append, List.intercalate_cons_cons, List.length_append] at ih ⊢
      omega

theorem length_dropIdle (text : List Char) : (dropIdle text).length ≤ text.length := by
  obtain ⟨dropped, h⟩ := List.dropWhile_suffix isIdle (l := (text.splitOn '/').reverse)
  have hs : text.splitOn '/' =
      ((text.splitOn '/').reverse.dropWhile isIdle).reverse ++ dropped.reverse := by
    rw [← List.reverse_append, h, List.reverse_reverse]
  have := length_intercalate_append
    ((text.splitOn '/').reverse.dropWhile isIdle).reverse dropped.reverse
  rw [← hs, List.intercalate_splitOn] at this
  exact this

theorem length_intercalate_dropLast {pieces : List (List Char)}
    (h : List.intercalate ['/'] pieces ≠ []) :
    (List.intercalate ['/'] pieces.dropLast).length < (List.intercalate ['/'] pieces).length := by
  induction pieces with
  | nil => simp at h
  | cons x xs ih =>
    cases xs with
    | nil => simpa [List.length_pos_iff] using h
    | cons x' xs =>
      cases xs with
      | nil => simp [List.intercalate_cons_cons]
      | cons x'' xs =>
        simp only [List.dropLast_cons_cons, List.intercalate_cons_cons, List.length_append,
          List.length_cons] at ih ⊢
        have := ih (by simp)
        omega

theorem length_dropPiece {text : List Char} (h : text ≠ []) :
    (dropPiece text).length < text.length := by
  have hp : List.intercalate ['/'] (text.splitOn '/') ≠ [] := by rwa [List.intercalate_splitOn]
  have := length_intercalate_dropLast hp
  rwa [List.intercalate_splitOn] at this

theorem length_splitHead (text : List Char) :
    (splitHead text).1.length + (splitHead text).2.length = text.length := by
  unfold splitHead
  split <;> simp <;> omega

theorem length_parent? {p q : Path} (h : p.parent? = some q) : q.text.length < p.text.length := by
  have hsplit := length_splitHead p.text
  unfold parent? at h
  split at h
  rename_i head body heq
  rw [heq] at hsplit
  split at h
  · split at h
    · obtain rfl := Option.some.inj h
      simp_all
      omega
    · simp at h
  · rename_i hne
    obtain rfl := Option.some.inj h
    have h₁ := length_dropIdle (dropPiece (dropIdle body))
    have h₂ := length_dropPiece hne
    have h₃ := length_dropIdle body
    simp only [List.length_append] at hsplit ⊢
    omega

end Path

end SoundChange
