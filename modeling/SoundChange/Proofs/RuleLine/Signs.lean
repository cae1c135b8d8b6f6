import SoundChange.Proofs.RuleLine.Reading

/-!
# The signs of a rule line

A line is read sign by sign: a sign is a character by itself, or an escape with the character that
it takes. Separators, commas and all other marks are signs of the first kind. What stands between
the separators of a line are its fields, and a line that is read has the patterns that the signs of
its fields stand for.

* `signs`: the signs of a line; `escapeInduction`: induction along them.
* `isRule_iff_hasSeparator`: a line is a rule if one of its signs is a separator.
* `eq_map_symbol_of_read`, `length_of_read`: what is read of a line, field by field, and how many
  patterns that are.
-/

set_option autoImplicit false

namespace SoundChange.RuleLine

/-! ## Signs -/

/-- What a line is made of. -/
inductive Sign where
  /-- A character by itself. -/
  | plain (c : Char)
  /-- A character that an escape takes. -/
  | escaped (c : Char)
  /-- An escape that has nothing to take. -/
  | dangling
  deriving DecidableEq, Repr

/-- The signs of a line, from left to right. -/
def signs : List Char → List Sign
  | [] => []
  | '!' :: [] => [.dangling]
  | '!' :: c :: rest => .escaped c :: signs rest
  | c :: rest => .plain c :: signs rest

/-- Induction along a line, an escape character together with what it escapes. -/
@[elab_as_elim]
theorem escapeInduction {motive : List Char → Prop} (nil : motive []) (dangling : motive ['!'])
    (escape : ∀ c rest, motive rest → motive ('!' :: c :: rest))
    (char : ∀ c rest, c ≠ '!' → motive rest → motive (c :: rest)) (line : List Char) :
    motive line := by
  fun_induction isRule line with
  | case1 => exact nil
  | case2 => exact dangling
  | case3 c rest ih => exact escape c rest ih
  | case4 c rest h₁ h₂ ih => exact char c rest (ne_escape h₁ h₂) ih

theorem isRule_escape (c : Char) (rest : List Char) : isRule ('!' :: c :: rest) = isRule rest := by
  rw [isRule]

theorem isRule_char {c : Char} (he : c ≠ '!') (rest : List Char) :
    isRule (c :: rest) = (c == '/' || isRule rest) := by
  rw [isRule]
  · simp [he]
  · simp [he]

theorem signs_escape (c : Char) (rest : List Char) :
    signs ('!' :: c :: rest) = .escaped c :: signs rest := by
  rw [signs]

theorem signs_char {c : Char} (he : c ≠ '!') (rest : List Char) :
    signs (c :: rest) = .plain c :: signs rest := by
  rw [signs]
  · simp [he]
  · simp [he]

/-- Whether one of the signs of a line is a separator. -/
def HasSeparator (line : List Char) : Prop :=
  .plain '/' ∈ signs line

instance : DecidablePred HasSeparator :=
  fun _ => inferInstanceAs (Decidable (_ ∈ _))

theorem isRule_iff_hasSeparator (line : List Char) : isRule line = true ↔ HasSeparator line := by
  unfold HasSeparator
  induction line using escapeInduction with
  | nil => simp [isRule, signs]
  | dangling => simp [isRule, signs]
  | escape c rest ih => simp [isRule_escape, signs_escape, ih]
  | char c rest he ih =>
    rw [isRule_char he, signs_char he, Bool.or_eq_true, beq_iff_eq, List.mem_cons, ih,
      Sign.plain.injEq]
    exact or_congr_left eq_comm

/-! ## Fields -/

/-- The fields of a line: what stands between its separators. -/
def fields (line : List Char) : List (List Sign) :=
  (signs line).splitOn (.plain '/')

/-- The symbol that a sign stands for; an escape with nothing to take is a literal here. -/
def Sign.symbol : Sign → Symbol
  | plain c => symbolOfChar c
  | escaped c => .literal c
  | dangling => .literal '!'

theorem symbol_of_symbolOf {field : Field} {progress next : Progress} {c : Char} {t : Symbol}
    (h : symbolOf field progress c = .ok (t, next)) : (Sign.plain c).symbol = t :=
  (symbolOf_eq_ok_iff.mp h).1

theorem map_splitOn_cons {s : Sign} (hs : s ≠ .plain '/') {l : List Sign} {p : Pattern}
    {ps : List Pattern}
    (h : p :: ps = (l.splitOn (.plain '/')).map (List.map Sign.symbol)) :
    (s.symbol :: p) :: ps = ((s :: l).splitOn (.plain '/')).map (List.map Sign.symbol) := by
  obtain ⟨first, others, hl, hsl⟩ := exists_splitOn_cons hs l
  rw [hl, List.map_cons] at h
  obtain ⟨rfl, rfl⟩ := List.cons.inj h
  rw [hsl]
  rfl

/-- The patterns that are read are what the signs between separators stand for. -/
theorem eq_map_symbol_of_readFrom {field : Field} {progress : Progress} {line : List Char}
    {p : Pattern} {ps : List Pattern} (h : readFrom field progress line = .ok (p, ps)) :
    p :: ps = (fields line).map (List.map Sign.symbol) := by
  unfold fields
  fun_induction readFrom field progress line generalizing p ps with
  | case1 =>
    obtain ⟨_, -, h⟩ := bind_eq_ok_iff.mp h
    cases h
    simp [signs]
  | case2 => simp at h
  | case3 field progress c rest ih =>
    obtain ⟨⟨q, qs⟩, hr, h⟩ := map_eq_ok_iff.mp h
    cases h
    rw [signs_escape]
    exact map_splitOn_cons (s := .escaped c) (by simp) (ih hr)
  | case4 field progress rest _ _ ih =>
    obtain ⟨_, -, h⟩ := bind_eq_ok_iff.mp h
    split at h
    · simp at h
    · rename_i next _
      obtain ⟨⟨q, qs⟩, hr, h⟩ := map_eq_ok_iff.mp h
      cases h
      rw [signs_char (by decide), splitOn_mark_cons, List.map_cons, ← ih next hr]
      rfl
  | case5 field progress c rest h₁ h₂ hs ih =>
    obtain ⟨⟨t, next⟩, ht, h⟩ := bind_eq_ok_iff.mp h
    obtain ⟨⟨q, qs⟩, hr, h⟩ := map_eq_ok_iff.mp h
    cases h
    rw [signs_char (ne_escape h₁ h₂), ← symbol_of_symbolOf ht]
    exact map_splitOn_cons (by simpa using hs) (ih next hr)

theorem length_fields (line : List Char) :
    (fields line).length = 1 + (signs line).count (.plain '/') :=
  length_splitOn (signs line)

/-- The patterns of a line, field by field. -/
theorem eq_map_symbol_of_read {line : List Char} {ps : List Pattern} (h : read line = .ok ps) :
    ps = (fields line).map (List.map Sign.symbol) := by
  obtain ⟨⟨first, others⟩, hr, h⟩ := bind_eq_ok_iff.mp h
  obtain ⟨_, -, h⟩ := bind_eq_ok_iff.mp h
  cases h
  exact eq_map_symbol_of_readFrom hr

theorem length_of_read {line : List Char} {ps : List Pattern} (h : read line = .ok ps) :
    ps.length = 1 + (signs line).count (.plain '/') := by
  rw [eq_map_symbol_of_read h, List.length_map, length_fields]

/-- A line that is read has two patterns or more if and only if it has a separator. -/
theorem two_le_length_iff {line : List Char} {ps : List Pattern} (h : read line = .ok ps) :
    2 ≤ ps.length ↔ HasSeparator line := by
  rw [length_of_read h, HasSeparator, ← List.count_pos_iff]
  omega

end SoundChange.RuleLine
