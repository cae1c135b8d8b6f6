import SoundChange.Json.Reader
import SoundChange.Proofs.Json.Writing

/-!
# Values that are written and read

A value that is written without blanks is read back from its text, whatever its texts are. All that
this takes of its numbers is that each is one lexeme, which is so for natural numbers. The text has
no control characters: it stays on one line.

* `isNumber_toDigits`: natural numbers are lexemes.
* `readOn_toLexemes`: a value is read from its lexemes, with anything open around it and anything
  behind it.
* `parse?_compact`: whole texts.
* `printable_compact`: the characters of what is written.
-/

set_option autoImplicit false

namespace SoundChange.Json

/-! ## Natural numbers -/

theorem ne_of_isDigit {c d : Char} (h : c.isDigit = true) (hd : d.isDigit = false) : c ≠ d := by
  intro heq
  simp [← heq, h] at hd

theorem mark?_of_isDigit {c : Char} (h : c.isDigit = true) : mark? c = none := by
  unfold mark?
  split
  all_goals first | rfl | cases h

theorem word?_of_isDigit {c : Char} (h : c.isDigit = true) (rest : List Char) :
    word? (c :: rest) = none := by
  have hne {d : Char} (hd : d.isDigit = false) : d ≠ c := (ne_of_isDigit h hd).symm
  simp [word?, words, hne]

/-- Digits are a lexeme if they are a number in front of every text that no number goes on with. -/
theorem isNumber_of_afterNumber? {c : Char} {digits : List Char} (hc : c.isDigit = true)
    (h : ∀ rest, endsNumber rest = true → afterNumber? (c :: digits ++ rest) = some rest) :
    IsNumber (c :: digits) := by
  intro rest hrest
  have hspace : isSpace c = false := by simp [isSpace, ne_of_isDigit hc]
  have hquote : c ≠ '"' := ne_of_isDigit hc rfl
  have hlength : digits.length + rest.length + 1 - rest.length = digits.length + 1 := by omega
  have hafter := h rest hrest
  rw [List.cons_append] at hafter ⊢
  rw [lexemes_of_lexeme? hspace]
  simp [lexeme?, mark?_of_isDigit hc, hquote, word?_of_isDigit hc, hafter, hlength]

theorem afterFraction?_of_endsNumber {rest : List Char} (h : endsNumber rest = true) :
    afterFraction? rest = some rest := by
  cases rest with
  | nil => rfl
  | cons c rest =>
    simp only [endsNumber, Bool.not_eq_true', Bool.or_eq_false_iff, beq_eq_false_iff_ne] at h
    obtain ⟨⟨⟨-, hdot⟩, he⟩, hE⟩ := h
    unfold afterFraction?
    split
    · simp_all
    · simp [afterExponent?, he, hE]

theorem dropWhile_isDigit {digits rest : List Char} (h : ∀ c ∈ digits, c.isDigit = true)
    (hrest : endsNumber rest = true) : (digits ++ rest).dropWhile Char.isDigit = rest := by
  rw [List.dropWhile_append_of_pos h]
  cases rest with
  | nil => rfl
  | cons c rest =>
    simp only [endsNumber, Bool.not_eq_true', Bool.or_eq_false_iff] at hrest
    simp [hrest]

theorem isDigit_of_mem_toDigits {n : Nat} {c : Char} (h : c ∈ Nat.toDigits 10 n) :
    c.isDigit = true :=
  Nat.isDigit_of_mem_toDigits (by decide) (by decide) h

/-- Only zero is written with a zero in front. -/
theorem exists_toDigits_eq_cons {n : Nat} (h : 0 < n) :
    ∃ c digits, Nat.toDigits 10 n = c :: digits ∧ c ≠ '0' := by
  induction n using Nat.strongRecOn with
  | ind n ih =>
    rw [Nat.toDigits_eq_if (by decide)]
    split
    case isTrue hn =>
      refine ⟨n.digitChar, [], rfl, fun hzero => ?_⟩
      rw [Nat.digitChar_eq_zero] at hzero
      omega
    case isFalse hn =>
      obtain ⟨c, digits, hdigits, hc⟩ := ih (n / 10) (by omega) (by omega)
      exact ⟨c, digits ++ [(n % 10).digitChar], by rw [hdigits, List.cons_append], hc⟩

theorem isNumber_toDigits (n : Nat) : IsNumber (Nat.toDigits 10 n) := by
  rcases Nat.eq_zero_or_pos n with rfl | hn
  · refine isNumber_of_afterNumber? rfl fun rest hrest => ?_
    have hhead : (rest.head?.map Char.isDigit).getD false = false := by
      cases rest <;> simp_all [endsNumber]
    show afterMagnitude? ('0' :: rest) = some rest
    rw [afterMagnitude?, hhead]
    exact afterFraction?_of_endsNumber hrest
  · obtain ⟨c, digits, hdigits, hzero⟩ := exists_toDigits_eq_cons hn
    have hall : ∀ d ∈ c :: digits, d.isDigit = true := fun d hd =>
      isDigit_of_mem_toDigits (hdigits ▸ hd)
    obtain ⟨hc, hall⟩ := List.forall_mem_cons.mp hall
    rw [hdigits]
    refine isNumber_of_afterNumber? hc fun rest hrest => ?_
    have hminus : c ≠ '-' := ne_of_isDigit hc rfl
    -- A digit in front is no sign, and one that is not zero starts a run of digits.
    rw [List.cons_append, afterNumber?]
    · rw [afterMagnitude?]
      · simp [afterDigits?, hc, dropWhile_isDigit hall hrest, afterFraction?_of_endsNumber hrest]
      · simpa using hzero
    · simpa using hminus

/-! ## Reading a value from its lexemes -/

section
variable {text? : Option (List Char) → Option (List Char)}

/-- The first item of an array is read like any other, since no value starts with the end of an
array. -/
theorem readOn_firstItem (j : Json) (stack : List Frame) (rest : List Lexeme) :
    readOn text? (.firstItem stack) (toLexemes j ++ rest) =
      readOn text? (.value (.items [] :: stack)) (toLexemes j ++ rest) := by
  cases j <;> rfl

theorem readOn_str (htext : ∀ s, text? (some s) = some s) (s : List Char) (stack : List Frame)
    (rest : List Lexeme) :
    readOn text? (.value stack) (.str (some s) :: rest) =
      readOn text? (.after (.str s) stack) rest := by
  rw [readOn]
  · simp [step, startValue, htext]
  · nofun

theorem readOn_key (htext : ∀ s, text? (some s) = some s) (done : List (List Char × Json))
    (key : List Char) (stack : List Frame) (rest : List Lexeme) :
    readOn text? (.key done stack) (.str (some key) :: .colon :: rest) =
      readOn text? (.value (.members done key :: stack)) rest := by
  simp [readOn, step, startMember, htext]

theorem readOn_firstKey (htext : ∀ s, text? (some s) = some s) (key : List Char)
    (stack : List Frame) (rest : List Lexeme) :
    readOn text? (.firstKey stack) (.str (some key) :: .colon :: rest) =
      readOn text? (.value (.members [] key :: stack)) rest :=
  readOn_key htext [] key stack rest

mutual

/-- A value is read from its lexemes, and what is open around it stays open. -/
theorem readOn_toLexemes (htext : ∀ s, text? (some s) = some s) (j : Json) (stack : List Frame)
    (rest : List Lexeme) :
    readOn text? (.value stack) (toLexemes j ++ rest) = readOn text? (.after j stack) rest := by
  match j with
  | null | bool _ | num _ => rfl
  | str s => exact readOn_str htext s stack rest
  | arr [] => rfl
  | arr (item :: items) =>
    have hitem := readOn_toLexemes htext item (.items [] :: stack)
      (moreItemLexemes items ++ .closeArray :: rest)
    have hitems := readOn_moreItemLexemes htext items item [] stack rest
    simp only [toLexemes, itemLexemes, List.cons_append, List.append_assoc, List.nil_append]
    exact (readOn_firstItem item stack _).trans (hitem.trans hitems)
  | obj [] => rfl
  | obj ((key, value) :: members) =>
    have hvalue := readOn_toLexemes htext value (.members [] key :: stack)
      (moreMemberLexemes members ++ .closeObject :: rest)
    have hmembers := readOn_moreMemberLexemes htext members key value [] stack rest
    simp only [toLexemes, memberLexemes, List.cons_append, List.append_assoc, List.nil_append]
    exact (readOn_firstKey htext key stack _).trans (hvalue.trans hmembers)

/-- The items behind the first ones of an array are read up to its end. -/
theorem readOn_moreItemLexemes (htext : ∀ s, text? (some s) = some s) (items : List Json)
    (j : Json) (done : List Json) (stack : List Frame) (rest : List Lexeme) :
    readOn text? (.after j (.items done :: stack))
        (moreItemLexemes items ++ .closeArray :: rest) =
      readOn text? (.after (.arr (done.reverse ++ j :: items)) stack) rest := by
  match items with
  | [] => simp [moreItemLexemes, readOn, step]
  | item :: items =>
    have hitem := readOn_toLexemes htext item (.items (j :: done) :: stack)
      (moreItemLexemes items ++ .closeArray :: rest)
    have hitems := readOn_moreItemLexemes htext items item (j :: done) stack rest
    simp only [List.reverse_cons, List.append_assoc, List.singleton_append] at hitems
    simp only [moreItemLexemes, List.cons_append, List.append_assoc]
    exact Eq.trans rfl (hitem.trans hitems)

/-- The members behind the first ones of an object are read up to its end. -/
theorem readOn_moreMemberLexemes (htext : ∀ s, text? (some s) = some s)
    (members : List (List Char × Json)) (key : List Char) (j : Json)
    (done : List (List Char × Json)) (stack : List Frame) (rest : List Lexeme) :
    readOn text? (.after j (.members done key :: stack))
        (moreMemberLexemes members ++ .closeObject :: rest) =
      readOn text? (.after (.obj (done.reverse ++ (key, j) :: members)) stack) rest := by
  match members with
  | [] => simp [moreMemberLexemes, readOn, step]
  | (key', value) :: members =>
    have hkey := readOn_key htext ((key, j) :: done) key' stack
      (toLexemes value ++ (moreMemberLexemes members ++ .closeObject :: rest))
    have hvalue := readOn_toLexemes htext value (.members ((key, j) :: done) key' :: stack)
      (moreMemberLexemes members ++ .closeObject :: rest)
    have hmembers := readOn_moreMemberLexemes htext members key' value ((key, j) :: done) stack rest
    simp only [List.reverse_cons, List.append_assoc, List.singleton_append] at hmembers
    simp only [moreMemberLexemes, List.cons_append, List.append_assoc]
    exact Eq.trans rfl (hkey.trans (hvalue.trans hmembers))

end

theorem value?_toLexemes (htext : ∀ s, text? (some s) = some s) (j : Json) (rest : List Lexeme) :
    value? text? (toLexemes j ++ rest) = some (j, rest) := by
  rw [value?, readOn_toLexemes htext, readOn]

end

/-- A value that is written without blanks is the value of its text. -/
theorem parse?_compact {j : Json} (hj : ∀ digits ∈ numbers j, IsNumber digits) :
    parse? (compact j) = some j := by
  have hvalue : value? id (toLexemes j ++ []) = some (j, []) := value?_toLexemes (fun _ => rfl) j []
  rw [List.append_nil] at hvalue
  rw [parse?, lexemes_compact_self hj, hvalue]

/-! ## Characters that are written -/

/-- None of the characters is one of the control characters below U+0020. -/
def Printable (text : List Char) : Prop :=
  ∀ c ∈ text, 0x20 ≤ c.toNat

theorem printable_nil : Printable [] := nofun

theorem printable_cons {c : Char} {text : List Char} :
    Printable (c :: text) ↔ 0x20 ≤ c.toNat ∧ Printable text :=
  List.forall_mem_cons

theorem printable_append {a b : List Char} : Printable (a ++ b) ↔ Printable a ∧ Printable b :=
  List.forall_mem_append

theorem Printable.newline_not_mem {text : List Char} (h : Printable text) : '\n' ∉ text := by
  intro hmem
  have := h '\n' hmem
  simp at this

theorem printable_toDigits (n : Nat) : Printable (Nat.toDigits 10 n) := by
  intro c hc
  have hdigit := isDigit_of_mem_toDigits hc
  simp only [Char.isDigit, Bool.and_eq_true, decide_eq_true_eq] at hdigit
  have := UInt32.le_iff_toNat_le.mp hdigit.1
  exact Nat.le_trans (by decide) this

theorem printable_hexPair {n : Nat} (h : n < 0x20) : Printable (hexPair n) := by
  have hdigit : ∀ d < 16, 0x20 ≤ (Nat.digitChar d).toNat := by decide
  exact printable_cons.mpr ⟨hdigit _ (by omega), printable_cons.mpr
    ⟨hdigit _ (by omega), printable_nil⟩⟩

theorem printable_escapeChar (c : Char) : Printable (escapeChar c) := by
  unfold escapeChar
  split_ifs with h₁ h₂ h₃ h₄ h₅ h₆ h₇ h₈
  -- The escapes of two characters.
  iterate 7
    simp [Printable]
  · exact printable_append.mpr ⟨by simp [Printable], printable_hexPair h₈⟩
  · simpa [Printable] using h₈

theorem printable_quote (text : List Char) : Printable (quote text) := by
  have htext : Printable (text.flatMap escapeChar) := by
    intro d hd
    obtain ⟨c, -, hd⟩ := List.mem_flatMap.mp hd
    exact printable_escapeChar c d hd
  exact printable_cons.mpr ⟨by decide, printable_append.mpr ⟨htext, by simp [Printable]⟩⟩

mutual

/-- A value that is written without blanks is printable if its numbers are. -/
theorem printable_compact (j : Json) (hj : ∀ digits ∈ numbers j, Printable digits) :
    Printable (compact j) := by
  match j with
  | null | bool true | bool false => simp [compact, Printable]
  | num digits => exact hj digits (.head _)
  | str text => exact printable_quote text
  | arr [] => simp [compact, compactItems, Printable]
  | arr (item :: items) =>
    have hnumbers := List.forall_mem_append.mp hj
    have hitem := printable_compact item hnumbers.1
    have hitems := printable_compactMoreItems items hnumbers.2
    simp [compact, compactItems, printable_cons, printable_append, printable_nil, hitem, hitems]
  | obj [] => simp [compact, compactMembers, Printable]
  | obj ((key, value) :: members) =>
    have hnumbers := List.forall_mem_append.mp hj
    have hvalue := printable_compact value hnumbers.1
    have hmembers := printable_compactMoreMembers members hnumbers.2
    simp [compact, compactMembers, printable_cons, printable_append, printable_nil,
      printable_quote, hvalue, hmembers]

theorem printable_compactMoreItems (items : List Json)
    (hj : ∀ digits ∈ itemNumbers items, Printable digits) :
    Printable (compactMoreItems items) := by
  match items with
  | [] => exact printable_nil
  | item :: items =>
    have hnumbers := List.forall_mem_append.mp hj
    have hitem := printable_compact item hnumbers.1
    have hitems := printable_compactMoreItems items hnumbers.2
    simp [compactMoreItems, printable_cons, printable_append, hitem, hitems]

theorem printable_compactMoreMembers (members : List (List Char × Json))
    (hj : ∀ digits ∈ memberNumbers members, Printable digits) :
    Printable (compactMoreMembers members) := by
  match members with
  | [] => exact printable_nil
  | (key, value) :: members =>
    have hnumbers := List.forall_mem_append.mp hj
    have hvalue := printable_compact value hnumbers.1
    have hmembers := printable_compactMoreMembers members hnumbers.2
    simp [compactMoreMembers, printable_cons, printable_append, printable_quote, hvalue, hmembers]

end

end SoundChange.Json
