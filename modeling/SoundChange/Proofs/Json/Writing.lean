import Mathlib.Tactic.SplitIfs
import SoundChange.Json
import SoundChange.Json.Lexeme

/-!
# Lexemes of what was written

A JSON value that is written is cut into the lexemes of its parts again, whether it was written with
blanks or without: a quoted text is one lexeme with that text, whatever its characters are, and the
blanks between the parts are none.

* `Json.toLexemes`: the lexemes of a value.
* `lexemes_quote`: a quoted text.
* `lexemes_compact`, `lexemes_prettyAt`: the two ways to write a value, with anything behind it.
* `lexemes_compact_self`, `lexemes_pretty`: whole texts.
-/

set_option autoImplicit false

namespace SoundChange.Json

/-! ## The lexemes of a value -/

mutual

/-- The lexemes of a value. -/
def toLexemes : Json → List Lexeme
  | null => [.null]
  | bool b => [.bool b]
  | num digits => [.num digits]
  | str text => [.str (some text)]
  | arr items => .openArray :: (itemLexemes items ++ [.closeArray])
  | obj members => .openObject :: (memberLexemes members ++ [.closeObject])

/-- The lexemes of items with commas between them. -/
def itemLexemes : List Json → List Lexeme
  | [] => []
  | item :: rest => toLexemes item ++ moreItemLexemes rest

/-- The lexemes of items with a comma before each of them. -/
def moreItemLexemes : List Json → List Lexeme
  | [] => []
  | item :: rest => .comma :: (toLexemes item ++ moreItemLexemes rest)

/-- The lexemes of members with commas between them. -/
def memberLexemes : List (List Char × Json) → List Lexeme
  | [] => []
  | (key, value) :: rest =>
    .str (some key) :: .colon :: (toLexemes value ++ moreMemberLexemes rest)

/-- The lexemes of members with a comma before each of them. -/
def moreMemberLexemes : List (List Char × Json) → List Lexeme
  | [] => []
  | (key, value) :: rest =>
    .comma :: .str (some key) :: .colon :: (toLexemes value ++ moreMemberLexemes rest)

end

mutual

/-- The numbers in a value, as they are written. -/
def numbers : Json → List (List Char)
  | num digits => [digits]
  | arr items => itemNumbers items
  | obj members => memberNumbers members
  | _ => []

/-- The numbers in items. -/
def itemNumbers : List Json → List (List Char)
  | [] => []
  | item :: rest => numbers item ++ itemNumbers rest

/-- The numbers in members. -/
def memberNumbers : List (List Char × Json) → List (List Char)
  | [] => []
  | (_, value) :: rest => numbers value ++ memberNumbers rest

end

/-- Whether a number in front of the text ends there. -/
def endsNumber : List Char → Bool
  | [] => true
  | c :: _ => !(c.isDigit || c == '.' || c == 'e' || c == 'E')

/-- The digits are one lexeme, with anything behind them that a number does not go on with. -/
def IsNumber (digits : List Char) : Prop :=
  ∀ rest, endsNumber rest = true → lexemes (digits ++ rest) = .num digits :: lexemes rest

theorem isNumber_of_numbers_eq_nil {j : Json} (h : numbers j = []) :
    ∀ digits ∈ numbers j, IsNumber digits := by
  simp [h]

/-! ## One lexeme -/

theorem lexemes_of_isSpace {c : Char} (h : isSpace c = true) (rest : List Char) :
    lexemes (c :: rest) = lexemes rest := by
  rw [lexemes, if_pos h]

theorem lexemes_of_lexeme? {c : Char} {rest left : List Char} {l : Lexeme}
    (hspace : isSpace c = false) (h : lexeme? c rest = some (l, left)) :
    lexemes (c :: rest) = l :: lexemes left := by
  rw [lexemes, hspace, if_neg Bool.false_ne_true]
  split
  case h_1 hl =>
    rw [h] at hl
    cases hl
    rfl
  case h_2 hl =>
    rw [h] at hl
    cases hl

theorem isSpace_of_mark? {c : Char} {l : Lexeme} (h : mark? c = some l) : isSpace c = false := by
  unfold mark? at h
  split at h
  all_goals first | rfl | cases h

theorem lexemes_of_mark? {c : Char} {l : Lexeme} (h : mark? c = some l) (rest : List Char) :
    lexemes (c :: rest) = l :: lexemes rest :=
  lexemes_of_lexeme? (isSpace_of_mark? h) (by rw [lexeme?, h])

@[simp] theorem lexemes_nil : lexemes [] = [] := by
  rw [lexemes]

@[simp] theorem lexemes_openArray (rest : List Char) :
    lexemes ('[' :: rest) = .openArray :: lexemes rest :=
  lexemes_of_mark? rfl rest

@[simp] theorem lexemes_closeArray (rest : List Char) :
    lexemes (']' :: rest) = .closeArray :: lexemes rest :=
  lexemes_of_mark? rfl rest

@[simp] theorem lexemes_openObject (rest : List Char) :
    lexemes ('{' :: rest) = .openObject :: lexemes rest :=
  lexemes_of_mark? rfl rest

@[simp] theorem lexemes_closeObject (rest : List Char) :
    lexemes ('}' :: rest) = .closeObject :: lexemes rest :=
  lexemes_of_mark? rfl rest

@[simp] theorem lexemes_colon (rest : List Char) :
    lexemes (':' :: rest) = .colon :: lexemes rest :=
  lexemes_of_mark? rfl rest

@[simp] theorem lexemes_comma (rest : List Char) :
    lexemes (',' :: rest) = .comma :: lexemes rest :=
  lexemes_of_mark? rfl rest

@[simp] theorem lexemes_blank (rest : List Char) : lexemes (' ' :: rest) = lexemes rest :=
  lexemes_of_isSpace rfl rest

@[simp] theorem lexemes_null (rest : List Char) :
    lexemes ('n' :: 'u' :: 'l' :: 'l' :: rest) = .null :: lexemes rest :=
  lexemes_of_lexeme? rfl rfl

@[simp] theorem lexemes_true (rest : List Char) :
    lexemes ('t' :: 'r' :: 'u' :: 'e' :: rest) = .bool true :: lexemes rest :=
  lexemes_of_lexeme? rfl rfl

@[simp] theorem lexemes_false (rest : List Char) :
    lexemes ('f' :: 'a' :: 'l' :: 's' :: 'e' :: rest) = .bool false :: lexemes rest :=
  lexemes_of_lexeme? rfl rfl

@[simp] theorem lexemes_newline (level : Nat) (rest : List Char) :
    lexemes (newline level ++ rest) = lexemes rest := by
  have hblanks (n : Nat) : lexemes (List.replicate n ' ' ++ rest) = lexemes rest := by
    induction n with
    | zero => rfl
    | succ n ih => rw [List.replicate_succ, List.cons_append, lexemes_blank, ih]
  rw [newline, List.cons_append, lexemes_of_isSpace rfl, hblanks]

/-! ## Quoted texts -/

theorem hexUnit?_hexPair {n : Nat} (h : n < 0x20) :
    hexUnit? '0' '0' (Nat.digitChar (n / 16)) (Nat.digitChar (n % 16)) = some n := by
  have hall : ∀ n < 0x20,
      hexUnit? '0' '0' (Nat.digitChar (n / 16)) (Nat.digitChar (n % 16)) = some n := by decide
  exact hall n h

/-- A unit that is no half of a pair is a character, whatever comes behind it. -/
theorem textOfPieces?_unit {n : Nat} (hhigh : isHighUnit n = false) (hlow : isLowUnit n = false)
    (pieces : List Piece) :
    textOfPieces? (.unit n :: pieces) = (Char.ofNat n :: ·) <$> textOfPieces? pieces := by
  match pieces with
  | [] => simp [textOfPieces?, hhigh, hlow]
  | .char c :: rest => simp [textOfPieces?, hhigh, hlow]
  | .unit m :: rest => rw [textOfPieces?, hhigh, hlow]; rfl

/-- The pieces of a string with one more piece in front. -/
def consPiece (piece : Piece) (r : List Piece × List Char) : List Piece × List Char :=
  (piece :: r.1, r.2)

theorem stringPieces?_escape {e c : Char} (h : simpleEscape? e = some c) (rest : List Char) :
    stringPieces? ('\\' :: e :: rest) = consPiece (.char c) <$> stringPieces? rest := by
  have hu : e ≠ 'u' := by
    rintro rfl
    cases h
  rw [stringPieces?, h]
  · cases stringPieces? rest <;> rfl
  · intro _ _ _ _ _ he
    exact absurd he hu

theorem stringPieces?_hexPair {n : Nat} (h : n < 0x20) (rest : List Char) :
    stringPieces? (['\\', 'u', '0', '0'] ++ hexPair n ++ rest) =
      consPiece (.unit n) <$> stringPieces? rest := by
  simp only [hexPair, List.cons_append, List.nil_append]
  rw [stringPieces?, hexUnit?_hexPair h]
  cases stringPieces? rest <;> rfl

theorem stringPieces?_cons {c : Char} (hq : c ≠ '"') (hb : c ≠ '\\') (hc : ¬ c.toNat < 0x20)
    (rest : List Char) :
    stringPieces? (c :: rest) = consPiece (.char c) <$> stringPieces? rest := by
  rw [stringPieces?, if_neg (by simp [hb, hc])]
  · cases stringPieces? rest <;> rfl
  · exact hq
  · rintro a b c d r rfl
    exact absurd rfl hb
  · rintro e r rfl
    exact absurd rfl hb

/-- A character between quotation marks is one piece of a string, and it is that character. -/
theorem exists_piece_escapeChar (c : Char) :
    ∃ piece, (∀ rest, stringPieces? (escapeChar c ++ rest) =
        consPiece piece <$> stringPieces? rest) ∧
      ∀ pieces, textOfPieces? (piece :: pieces) = (c :: ·) <$> textOfPieces? pieces := by
  have hchar : ∀ pieces, textOfPieces? (.char c :: pieces) = (c :: ·) <$> textOfPieces? pieces :=
    fun _ => rfl
  unfold escapeChar
  split_ifs with h₁ h₂ h₃ h₄ h₅ h₆ h₇ h₈
  -- The escapes of two characters.
  iterate 7
    subst_vars
    exact ⟨_, stringPieces?_escape rfl, hchar⟩
  · refine ⟨.unit c.toNat, stringPieces?_hexPair h₈, fun pieces => ?_⟩
    have hhigh : isHighUnit c.toNat = false := by simp [isHighUnit]; omega
    have hlow : isLowUnit c.toNat = false := by simp [isLowUnit]; omega
    rw [textOfPieces?_unit hhigh hlow, Char.ofNat_toNat]
  · exact ⟨.char c, stringPieces?_cons h₁ h₂ h₈, hchar⟩

theorem exists_pieces_quoted (text rest : List Char) :
    ∃ pieces, stringPieces? (text.flatMap escapeChar ++ '"' :: rest) = some (pieces, rest) ∧
      textOfPieces? pieces = some text := by
  induction text with
  | nil => exact ⟨[], rfl, rfl⟩
  | cons c text ih =>
    obtain ⟨pieces, hpieces, htext⟩ := ih
    obtain ⟨piece, hpiece, hchar⟩ := exists_piece_escapeChar c
    refine ⟨piece :: pieces, ?_, ?_⟩
    · rw [List.flatMap_cons, List.append_assoc, hpiece, hpieces]
      rfl
    · rw [hchar, htext]
      rfl

@[simp] theorem lexemes_quote (text rest : List Char) :
    lexemes (quote text ++ rest) = .str (some text) :: lexemes rest := by
  obtain ⟨pieces, hpieces, htext⟩ := exists_pieces_quoted text rest
  rw [quote, List.cons_append, List.append_assoc, List.singleton_append]
  refine lexemes_of_lexeme? rfl ?_
  rw [lexeme?, show mark? '"' = none from rfl, ← htext]
  simp only [if_true, hpieces]
  rfl

/-! ## Values without blanks -/

theorem endsNumber_compactMoreItems (items : List Json) {rest : List Char}
    (h : endsNumber rest = true) : endsNumber (compactMoreItems items ++ rest) = true := by
  cases items with
  | nil => exact h
  | cons item items => rfl

theorem endsNumber_compactMoreMembers (members : List (List Char × Json)) {rest : List Char}
    (h : endsNumber rest = true) : endsNumber (compactMoreMembers members ++ rest) = true := by
  cases members with
  | nil => exact h
  | cons member members => rfl

mutual

/-- A value that is written without blanks has its lexemes. -/
theorem lexemes_compact (j : Json) {rest : List Char} (hj : ∀ digits ∈ numbers j, IsNumber digits)
    (h : endsNumber rest = true) : lexemes (compact j ++ rest) = toLexemes j ++ lexemes rest := by
  match j with
  | null => exact lexemes_null rest
  | bool true => exact lexemes_true rest
  | bool false => exact lexemes_false rest
  | num digits => exact hj digits (.head _) rest h
  | str text => exact lexemes_quote text rest
  | arr [] => simp [compact, compactItems, toLexemes, itemLexemes]
  | arr (item :: items) =>
    have hnumbers := List.forall_mem_append.mp hj
    have hend : endsNumber (']' :: rest) = true := rfl
    have hitem := lexemes_compact item hnumbers.1 (endsNumber_compactMoreItems items hend)
    have hitems := lexemes_compactMoreItems items hnumbers.2 hend
    simp [compact, compactItems, toLexemes, itemLexemes, hitem, hitems]
  | obj [] => simp [compact, compactMembers, toLexemes, memberLexemes]
  | obj ((key, value) :: members) =>
    have hnumbers := List.forall_mem_append.mp hj
    have hend : endsNumber ('}' :: rest) = true := rfl
    have hvalue := lexemes_compact value hnumbers.1 (endsNumber_compactMoreMembers members hend)
    have hmembers := lexemes_compactMoreMembers members hnumbers.2 hend
    simp [compact, compactMembers, toLexemes, memberLexemes, hvalue, hmembers]

theorem lexemes_compactMoreItems (items : List Json) {rest : List Char}
    (hj : ∀ digits ∈ itemNumbers items, IsNumber digits) (h : endsNumber rest = true) :
    lexemes (compactMoreItems items ++ rest) = moreItemLexemes items ++ lexemes rest := by
  match items with
  | [] => rfl
  | item :: items =>
    have hnumbers := List.forall_mem_append.mp hj
    have hitem := lexemes_compact item hnumbers.1 (endsNumber_compactMoreItems items h)
    have hitems := lexemes_compactMoreItems items hnumbers.2 h
    simp [compactMoreItems, moreItemLexemes, hitem, hitems]

theorem lexemes_compactMoreMembers (members : List (List Char × Json)) {rest : List Char}
    (hj : ∀ digits ∈ memberNumbers members, IsNumber digits) (h : endsNumber rest = true) :
    lexemes (compactMoreMembers members ++ rest) = moreMemberLexemes members ++ lexemes rest := by
  match members with
  | [] => rfl
  | (key, value) :: members =>
    have hnumbers := List.forall_mem_append.mp hj
    have hvalue := lexemes_compact value hnumbers.1 (endsNumber_compactMoreMembers members h)
    have hmembers := lexemes_compactMoreMembers members hnumbers.2 h
    simp [compactMoreMembers, moreMemberLexemes, hvalue, hmembers]

end

/-! ## Values with a line for each item -/

theorem endsNumber_newline (level : Nat) (rest : List Char) :
    endsNumber (newline level ++ rest) = true := rfl

theorem endsNumber_prettyMoreItems (level : Nat) (items : List Json) {rest : List Char}
    (h : endsNumber rest = true) : endsNumber (prettyMoreItems level items ++ rest) = true := by
  cases items with
  | nil => exact h
  | cons item items => rfl

theorem endsNumber_prettyMoreMembers (level : Nat) (members : List (List Char × Json))
    {rest : List Char} (h : endsNumber rest = true) :
    endsNumber (prettyMoreMembers level members ++ rest) = true := by
  cases members with
  | nil => exact h
  | cons member members => rfl

mutual

/-- A value that is written with a line for each item has its lexemes, at any level. -/
theorem lexemes_prettyAt (level : Nat) (j : Json) {rest : List Char}
    (hj : ∀ digits ∈ numbers j, IsNumber digits) (h : endsNumber rest = true) :
    lexemes (prettyAt level j ++ rest) = toLexemes j ++ lexemes rest := by
  match j with
  | null => exact lexemes_null rest
  | bool true => exact lexemes_true rest
  | bool false => exact lexemes_false rest
  | num digits => exact hj digits (.head _) rest h
  | str text => exact lexemes_quote text rest
  | arr [] => simp [prettyAt, toLexemes, itemLexemes]
  | arr (item :: items) =>
    have hnumbers := List.forall_mem_append.mp hj
    have hend := endsNumber_newline level (']' :: rest)
    have hitem := lexemes_prettyAt (level + 1) item hnumbers.1
      (endsNumber_prettyMoreItems (level + 1) items hend)
    have hitems := lexemes_prettyMoreItems (level + 1) items hnumbers.2 hend
    simp [prettyAt, toLexemes, itemLexemes, hitem, hitems]
  | obj [] => simp [prettyAt, toLexemes, memberLexemes]
  | obj ((key, value) :: members) =>
    have hnumbers := List.forall_mem_append.mp hj
    have hend := endsNumber_newline level ('}' :: rest)
    have hvalue := lexemes_prettyAt (level + 1) value hnumbers.1
      (endsNumber_prettyMoreMembers (level + 1) members hend)
    have hmembers := lexemes_prettyMoreMembers (level + 1) members hnumbers.2 hend
    simp [prettyAt, toLexemes, memberLexemes, hvalue, hmembers]

theorem lexemes_prettyMoreItems (level : Nat) (items : List Json) {rest : List Char}
    (hj : ∀ digits ∈ itemNumbers items, IsNumber digits) (h : endsNumber rest = true) :
    lexemes (prettyMoreItems level items ++ rest) = moreItemLexemes items ++ lexemes rest := by
  match items with
  | [] => rfl
  | item :: items =>
    have hnumbers := List.forall_mem_append.mp hj
    have hitem := lexemes_prettyAt level item hnumbers.1
      (endsNumber_prettyMoreItems level items h)
    have hitems := lexemes_prettyMoreItems level items hnumbers.2 h
    simp [prettyMoreItems, moreItemLexemes, hitem, hitems]

theorem lexemes_prettyMoreMembers (level : Nat) (members : List (List Char × Json))
    {rest : List Char} (hj : ∀ digits ∈ memberNumbers members, IsNumber digits)
    (h : endsNumber rest = true) :
    lexemes (prettyMoreMembers level members ++ rest) =
      moreMemberLexemes members ++ lexemes rest := by
  match members with
  | [] => rfl
  | (key, value) :: members =>
    have hnumbers := List.forall_mem_append.mp hj
    have hvalue := lexemes_prettyAt level value hnumbers.1
      (endsNumber_prettyMoreMembers level members h)
    have hmembers := lexemes_prettyMoreMembers level members hnumbers.2 h
    simp [prettyMoreMembers, moreMemberLexemes, hvalue, hmembers]

end

/-! ## Whole texts -/

theorem lexemes_compact_self {j : Json} (hj : ∀ digits ∈ numbers j, IsNumber digits) :
    lexemes (compact j) = toLexemes j := by
  have h := lexemes_compact j hj (show endsNumber [] = true from rfl)
  simpa using h

theorem lexemes_pretty {j : Json} (hj : ∀ digits ∈ numbers j, IsNumber digits) :
    lexemes (pretty j) = toLexemes j := by
  have h := lexemes_prettyAt 0 j hj (show endsNumber [] = true from rfl)
  simpa [pretty] using h

end SoundChange.Json
