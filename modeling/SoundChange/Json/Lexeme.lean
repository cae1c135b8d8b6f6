/-!
# JSON lexemes

The first step of reading a JSON text cuts it into lexemes: brackets, colons, commas, words,
numbers and strings, with blanks between them dropped. `lexemes` is total. Where the text cannot go
on as JSON it ends with the lexeme `broken`, which no reader accepts; so a reader that goes through
the lexemes from left to right meets the offences of a text in the order they are written.

A string may hold an escape for half of a surrogate pair without the other half. It is a lexeme but
has no text.
-/

set_option autoImplicit false

namespace SoundChange.Json

/-- A lexeme of a JSON text. -/
inductive Lexeme where
  | openArray
  | closeArray
  | openObject
  | closeObject
  | colon
  | comma
  | null
  | bool (b : Bool)
  | num (digits : List Char)
  /-- A string, with its text if it has one. -/
  | str (text : Option (List Char))
  /-- What is left of the text is not JSON. -/
  | broken
  deriving DecidableEq, Repr

/-- The four characters that may stand between lexemes. -/
def isSpace (c : Char) : Bool :=
  c == ' ' || c == '\t' || c == '\n' || c == '\r'

/-! ## Strings -/

/-- What one character or escape of a string contributes: a character, or a 16-bit unit. -/
inductive Piece where
  | char (c : Char)
  | unit (n : Nat)
  deriving DecidableEq, Repr

/-- The value of a hexadecimal digit. -/
def hexDigit? (c : Char) : Option Nat :=
  if c.isDigit then some (c.toNat - '0'.toNat)
  else if 'a' ≤ c ∧ c ≤ 'f' then some (c.toNat - 'a'.toNat + 10)
  else if 'A' ≤ c ∧ c ≤ 'F' then some (c.toNat - 'A'.toNat + 10)
  else none

/-- The unit of four hexadecimal digits. -/
def hexUnit? (a b c d : Char) : Option Nat := do
  let a ← hexDigit? a
  let b ← hexDigit? b
  let c ← hexDigit? c
  let d ← hexDigit? d
  pure (((a * 16 + b) * 16 + c) * 16 + d)

/-- The character of a two-character escape. -/
def simpleEscape? : Char → Option Char
  | '"' => some '"'
  | '\\' => some '\\'
  | '/' => some '/'
  | 'b' => some '\x08'
  | 'f' => some '\x0c'
  | 'n' => some '\n'
  | 'r' => some '\r'
  | 't' => some '\t'
  | _ => none

/-- The pieces of a string up to its closing quotation mark, and what is left behind it. -/
def stringPieces? : List Char → Option (List Piece × List Char)
  | [] => none
  | '"' :: rest => some ([], rest)
  | '\\' :: 'u' :: a :: b :: c :: d :: rest => do
    let n ← hexUnit? a b c d
    let (pieces, rest) ← stringPieces? rest
    pure (.unit n :: pieces, rest)
  | '\\' :: e :: rest => do
    let c ← simpleEscape? e
    let (pieces, rest) ← stringPieces? rest
    pure (.char c :: pieces, rest)
  | c :: rest =>
    if c = '\\' ∨ c.toNat < 0x20 then none
    else do
      let (pieces, rest) ← stringPieces? rest
      pure (.char c :: pieces, rest)

/-- The first half of a surrogate pair. -/
def isHighUnit (n : Nat) : Bool :=
  0xD800 ≤ n && n ≤ 0xDBFF

/-- The second half of a surrogate pair. -/
def isLowUnit (n : Nat) : Bool :=
  0xDC00 ≤ n && n ≤ 0xDFFF

/-- The character of a surrogate pair. -/
def pairChar (high low : Nat) : Char :=
  Char.ofNat (0x10000 + (high - 0xD800) * 0x400 + (low - 0xDC00))

/-- The text of a string's pieces, if every half of a surrogate pair has its other half. -/
def textOfPieces? : List Piece → Option (List Char)
  | [] => some []
  | .char c :: rest => (c :: ·) <$> textOfPieces? rest
  | .unit high :: .unit low :: rest =>
    if isHighUnit high then
      if isLowUnit low then (pairChar high low :: ·) <$> textOfPieces? rest else none
    else if isLowUnit high then none
    else (Char.ofNat high :: ·) <$> textOfPieces? (.unit low :: rest)
  | .unit n :: rest =>
    if isHighUnit n || isLowUnit n then none else (Char.ofNat n :: ·) <$> textOfPieces? rest

/-! ## Numbers -/

/-- What is left behind one or more digits. -/
def afterDigits? : List Char → Option (List Char)
  | c :: rest => if c.isDigit then some (rest.dropWhile Char.isDigit) else none
  | [] => none

/-- What is left behind an exponent, if there is one. -/
def afterExponent? : List Char → Option (List Char)
  | c :: rest =>
    if c = 'e' ∨ c = 'E' then
      match rest with
      | '+' :: rest => afterDigits? rest
      | '-' :: rest => afterDigits? rest
      | rest => afterDigits? rest
    else some (c :: rest)
  | [] => some []

/-- What is left behind a fraction and an exponent, if there are any. -/
def afterFraction? : List Char → Option (List Char)
  | '.' :: rest => afterDigits? rest >>= afterExponent?
  | rest => afterExponent? rest

/-- What is left behind a number without its sign. A zero in front stands alone. -/
def afterMagnitude? : List Char → Option (List Char)
  | '0' :: rest =>
    if (rest.head?.map Char.isDigit).getD false then none else afterFraction? rest
  | rest => afterDigits? rest >>= afterFraction?

/-- What is left behind a number. -/
def afterNumber? : List Char → Option (List Char)
  | '-' :: rest => afterMagnitude? rest
  | rest => afterMagnitude? rest

/-! ## What is left is shorter -/

theorem length_stringPieces? {s : List Char} {pieces : List Piece} {rest : List Char}
    (h : stringPieces? s = some (pieces, rest)) : rest.length < s.length := by
  fun_induction stringPieces? s generalizing pieces rest with
  | case1 => simp at h
  | case2 => simp_all
  | case3 a b c d r ih =>
    simp only [Option.bind_eq_bind, Option.bind_eq_some_iff] at h
    obtain ⟨_, _, ⟨p, r'⟩, hr, h⟩ := h
    have := ih hr
    simp_all
    omega
  | case4 e r _ ih =>
    simp only [Option.bind_eq_bind, Option.bind_eq_some_iff] at h
    obtain ⟨_, _, ⟨p, r'⟩, hr, h⟩ := h
    have := ih hr
    simp_all
    omega
  | case5 => simp at h
  | case6 c r _ _ _ _ ih =>
    simp only [Option.bind_eq_bind, Option.bind_eq_some_iff] at h
    obtain ⟨⟨p, r'⟩, hr, h⟩ := h
    have := ih hr
    simp_all
    omega

theorem length_afterDigits? {s rest : List Char} (h : afterDigits? s = some rest) :
    rest.length < s.length := by
  cases s with
  | nil => simp [afterDigits?] at h
  | cons c s =>
    simp only [afterDigits?] at h
    split at h
    · obtain rfl := Option.some.inj h
      have := (List.dropWhile_sublist (l := s) Char.isDigit).length_le
      simp
      omega
    · simp at h

theorem length_afterExponent? {s rest : List Char} (h : afterExponent? s = some rest) :
    rest.length ≤ s.length := by
  unfold afterExponent? at h
  split at h
  · split at h
    · split at h
      all_goals
        have := length_afterDigits? h
        simp_all
        omega
    · simp_all
  · simp_all

theorem length_afterFraction? {s rest : List Char} (h : afterFraction? s = some rest) :
    rest.length ≤ s.length := by
  unfold afterFraction? at h
  split at h
  · obtain ⟨r, hr, h⟩ := Option.bind_eq_some_iff.mp h
    have := length_afterDigits? hr
    have := length_afterExponent? h
    simp
    omega
  · exact length_afterExponent? h

theorem length_afterMagnitude? {s rest : List Char} (h : afterMagnitude? s = some rest) :
    rest.length < s.length := by
  unfold afterMagnitude? at h
  split at h
  · split at h
    · simp at h
    · have := length_afterFraction? h
      simp
      omega
  · obtain ⟨r, hr, h⟩ := Option.bind_eq_some_iff.mp h
    have := length_afterDigits? hr
    have := length_afterFraction? h
    omega

theorem length_afterNumber? {s rest : List Char} (h : afterNumber? s = some rest) :
    rest.length < s.length := by
  unfold afterNumber? at h
  split at h
  · have := length_afterMagnitude? h
    simp
    omega
  · exact length_afterMagnitude? h

/-! ## Lexemes -/

/-- The lexeme of a single character. -/
def mark? : Char → Option Lexeme
  | '[' => some .openArray
  | ']' => some .closeArray
  | '{' => some .openObject
  | '}' => some .closeObject
  | ':' => some .colon
  | ',' => some .comma
  | _ => none

/-- The words of JSON. -/
def words : List (List Char × Lexeme) :=
  [(['n', 'u', 'l', 'l'], .null), (['t', 'r', 'u', 'e'], .bool true),
    (['f', 'a', 'l', 's', 'e'], .bool false)]

/-- The word that a text starts with, and what is left behind it. -/
def word? (s : List Char) : Option (Lexeme × List Char) :=
  words.findSome? fun (spelling, lexeme) =>
    if spelling.isPrefixOf s then some (lexeme, s.drop spelling.length) else none

/-- The first lexeme of a text that starts with no blank, and what is left behind it. -/
def lexeme? (c : Char) (rest : List Char) : Option (Lexeme × List Char) :=
  match mark? c with
  | some mark => some (mark, rest)
  | none =>
    if c = '"' then
      (fun (pieces, rest) => (.str (textOfPieces? pieces), rest)) <$> stringPieces? rest
    else
      match word? (c :: rest) with
      | some found => some found
      | none =>
        (fun left => (.num ((c :: rest).take (rest.length + 1 - left.length)), left)) <$>
          afterNumber? (c :: rest)

theorem length_word? {s rest : List Char} {l : Lexeme} (h : word? s = some (l, rest)) :
    rest.length < s.length := by
  obtain ⟨⟨spelling, lexeme⟩, hm, h⟩ := List.exists_of_findSome?_eq_some h
  have hpos : 0 < spelling.length := by
    simp only [words, List.mem_cons, List.not_mem_nil, or_false, Prod.mk.injEq] at hm
    rcases hm with ⟨rfl, -⟩ | ⟨rfl, -⟩ | ⟨rfl, -⟩ <;> simp
  dsimp only at h
  split at h
  case isTrue hp =>
    have := (List.isPrefixOf_iff_prefix.mp hp).length_le
    cases h
    rw [List.length_drop]
    omega
  case isFalse => cases h

theorem length_lexeme? {c : Char} {rest left : List Char} {l : Lexeme}
    (h : lexeme? c rest = some (l, left)) : left.length < rest.length + 1 := by
  unfold lexeme? at h
  split at h
  · simp_all
  · split at h
    · obtain ⟨⟨pieces, r⟩, hr, h⟩ := Option.map_eq_some_iff.mp h
      have := length_stringPieces? hr
      simp_all
      omega
    · split at h
      · rename_i hw
        rw [h] at hw
        simpa using length_word? hw
      · obtain ⟨r, hr, h⟩ := Option.map_eq_some_iff.mp h
        have := length_afterNumber? hr
        simp_all

/-- The lexemes of a text, up to where it stops being JSON. -/
def lexemes : List Char → List Lexeme
  | [] => []
  | c :: rest =>
    if isSpace c then lexemes rest
    else
      match _hl : lexeme? c rest with
      | some (l, left) => l :: lexemes left
      | none => [.broken]
termination_by s => s.length
decreasing_by
  · simp
  · simpa using length_lexeme? _hl

end SoundChange.Json
