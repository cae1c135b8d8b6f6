import SoundChange.Json
import SoundChange.Json.Lexeme

/-!
# Reading JSON values

Readers go through the lexemes of a text and return what they read with the lexemes that are left.
`value?` reads any value, with a stack of the arrays and objects that are still open; `strings?`
and `stringLists?` read the two forms of which categories are made.

What becomes of a string without text is the caller's choice: `parse?`, which reads a whole text,
refuses it, and `skip?`, which reads a value only to pass over it, does not mind.
-/

set_option autoImplicit false

namespace SoundChange.Json

/-- An array or object that is still open: what it has so far, the newest first, and, in an object,
the key of the member that is being read. -/
inductive Frame where
  | items (done : List Json)
  | members (done : List (List Char × Json)) (key : List Char)

/-- What may come next. -/
inductive State where
  /-- A value. -/
  | value (stack : List Frame)
  /-- The first item of an array, or its end. -/
  | firstItem (stack : List Frame)
  /-- The first key of an object, or its end. -/
  | firstKey (stack : List Frame)
  /-- The key of a further member. -/
  | key (done : List (List Char × Json)) (stack : List Frame)
  /-- The colon behind a key. -/
  | colon (done : List (List Char × Json)) (key : List Char) (stack : List Frame)
  /-- Whatever may follow a value that is complete. -/
  | after (j : Json) (stack : List Frame)

/-- A value starts. -/
def startValue (text? : Option (List Char) → Option (List Char)) (stack : List Frame) :
    Lexeme → Option State
  | .null => some (.after .null stack)
  | .bool b => some (.after (.bool b) stack)
  | .num digits => some (.after (.num digits) stack)
  | .str s => (fun s => .after (.str s) stack) <$> text? s
  | .openArray => some (.firstItem stack)
  | .openObject => some (.firstKey stack)
  | _ => none

/-- A key is read, or is refused. -/
def startMember (text? : Option (List Char) → Option (List Char))
    (done : List (List Char × Json)) (stack : List Frame) : Lexeme → Option State
  | .str s => (fun key => .colon done key stack) <$> text? s
  | _ => none

/-- What may come after one more lexeme. -/
def step (text? : Option (List Char) → Option (List Char)) : State → Lexeme → Option State
  | .value stack, l => startValue text? stack l
  | .firstItem stack, .closeArray => some (.after (.arr []) stack)
  | .firstItem stack, l => startValue text? (.items [] :: stack) l
  | .firstKey stack, .closeObject => some (.after (.obj []) stack)
  | .firstKey stack, l => startMember text? [] stack l
  | .key done stack, l => startMember text? done stack l
  | .colon done key stack, .colon => some (.value (.members done key :: stack))
  | .after j (.items done :: stack), .comma => some (.value (.items (j :: done) :: stack))
  | .after j (.items done :: stack), .closeArray => some (.after (.arr (j :: done).reverse) stack)
  | .after j (.members done key :: stack), .comma => some (.key ((key, j) :: done) stack)
  | .after j (.members done key :: stack), .closeObject =>
    some (.after (.obj ((key, j) :: done).reverse) stack)
  | _, _ => none

/-- Reads on until a value is complete and nothing is open. -/
def readOn (text? : Option (List Char) → Option (List Char)) :
    State → List Lexeme → Option (Json × List Lexeme)
  | .after j [], rest => some (j, rest)
  | _, [] => none
  | s, l :: rest =>
    match step text? s l with
    | some s' => readOn text? s' rest
    | none => none

/-- Reads a value. -/
def value? (text? : Option (List Char) → Option (List Char)) (ls : List Lexeme) :
    Option (Json × List Lexeme) :=
  readOn text? (.value []) ls

/-- The value of a whole text. -/
def parse? (text : List Char) : Option Json :=
  match value? id (lexemes text) with
  | some (j, []) => some j
  | _ => none

/-- The lexemes behind a value. -/
def skip? (ls : List Lexeme) : Option (List Lexeme) :=
  Prod.snd <$> value? (fun s => some (s.getD [])) ls

theorem length_readOn {text? : Option (List Char) → Option (List Char)} {s : State}
    {ls rest : List Lexeme} {j : Json} (h : readOn text? s ls = some (j, rest)) :
    rest.length ≤ ls.length := by
  fun_induction readOn text? s ls with
  | case1 => simp_all
  | case2 => simp at h
  | case3 s l ls _ s' _ ih =>
    have := ih h
    simp
    omega
  | case4 => simp at h

theorem length_skip? {ls rest : List Lexeme} (h : skip? ls = some rest) :
    rest.length ≤ ls.length := by
  obtain ⟨⟨j, r⟩, hr, rfl⟩ := Option.map_eq_some_iff.mp h
  exact length_readOn hr

/-! ## Lists of strings -/

/-- Reads strings up to the end of an array, of which there is at least one. -/
def moreStrings? : List Lexeme → Option (List (List Char) × List Lexeme)
  | .str (some s) :: .comma :: rest => (fun (ss, rest) => (s :: ss, rest)) <$> moreStrings? rest
  | .str (some s) :: .closeArray :: rest => some ([s], rest)
  | _ => none

/-- Reads an array of strings. -/
def strings? : List Lexeme → Option (List (List Char) × List Lexeme)
  | .openArray :: .closeArray :: rest => some ([], rest)
  | .openArray :: rest => moreStrings? rest
  | _ => none

theorem length_moreStrings? {ls rest : List Lexeme} {ss : List (List Char)}
    (h : moreStrings? ls = some (ss, rest)) : rest.length < ls.length := by
  fun_induction moreStrings? ls generalizing ss rest with
  | case1 s r ih =>
    obtain ⟨⟨ss', r'⟩, hr, h⟩ := Option.map_eq_some_iff.mp h
    have := ih hr
    simp_all
    omega
  | case2 =>
    cases h
    simp only [List.length_cons]
    omega
  | case3 => simp at h

theorem length_strings? {ls rest : List Lexeme} {ss : List (List Char)}
    (h : strings? ls = some (ss, rest)) : rest.length < ls.length := by
  unfold strings? at h
  split at h
  · cases h
    simp only [List.length_cons]
    omega
  · have := length_moreStrings? h
    simp_all
    omega
  · simp at h

/-- Reads members up to the end of an object, of which there is at least one. -/
def moreStringLists? :
    List Lexeme → Option (List (List Char × List (List Char)) × List Lexeme)
  | .str (some key) :: .colon :: rest =>
    match _hs : strings? rest with
    | some (ss, .comma :: rest) =>
      (fun (members, rest) => ((key, ss) :: members, rest)) <$> moreStringLists? rest
    | some (ss, .closeObject :: rest) => some ([(key, ss)], rest)
    | _ => none
  | _ => none
termination_by ls => ls.length
decreasing_by
  have := length_strings? _hs
  simp_all
  omega

/-- Reads an object whose values are arrays of strings. -/
def stringLists? : List Lexeme → Option (List (List Char × List (List Char)) × List Lexeme)
  | .openObject :: .closeObject :: rest => some ([], rest)
  | .openObject :: rest => moreStringLists? rest
  | _ => none

theorem length_moreStringLists? {ls rest : List Lexeme}
    {members : List (List Char × List (List Char))}
    (h : moreStringLists? ls = some (members, rest)) : rest.length < ls.length := by
  fun_induction moreStringLists? ls generalizing members rest with
  | case1 key r ss r' hs ih =>
    obtain ⟨⟨ms, r''⟩, hr, h⟩ := Option.map_eq_some_iff.mp h
    have := length_strings? hs
    have := ih hr
    simp_all
    omega
  | case2 key r ss r' hs =>
    have := length_strings? hs
    simp_all
    omega
  | case3 => simp at h
  | case4 => simp at h

theorem length_stringLists? {ls rest : List Lexeme}
    {members : List (List Char × List (List Char))}
    (h : stringLists? ls = some (members, rest)) : rest.length < ls.length := by
  unfold stringLists? at h
  split at h
  · cases h
    simp only [List.length_cons]
    omega
  · have := length_moreStringLists? h
    simp_all
    omega
  · simp at h

end SoundChange.Json
