import Mathlib.Data.List.Forall2
import Mathlib.Tactic.MkIffOfInductiveProp
import SoundChange.RuleLine

/-!
# The spellings of a rule line

What a rule line says, without a reader. A line spells patterns if it is their spellings with a
separator between them, and a literal that a reader would take for something else has one spelling
only, the escaped one. `RuleLine.WellFormed` tells the patterns that can stand on a line at all.

* `spells_end`, `spells_separator`, `spells_symbol`: what the first character of a line can be, by
  what the first pattern begins with.
* `spells_write`: the line that escapes all literals is a spelling.
-/

set_option autoImplicit false

namespace SoundChange

/-! ## Spellings -/

/-- The characters that a rule line reads as something else than themselves. -/
def RuleLine.marks : List Char := ['!', '/', ',', '#', '|', '_']

/-- The ways to write a symbol: a literal can always be escaped and often stand for itself. -/
inductive Symbol.Spells : Symbol → List Char → Prop where
  | escaped (c : Char) : Spells (literal c) ['!', c]
  | plain {c : Char} : c ∉ RuleLine.marks → Text.isUppercase c = false → Spells (literal c) [c]
  | category (letter : Char) : Spells (category letter) [letter]
  | comma : Spells comma [',']
  | edge : Spells edge ['#']
  | bar : Spells bar ['|']
  | locus : Spells locus ['_']

/-- A pattern is written symbol by symbol. -/
def Pattern.Spells (p : Pattern) (text : List Char) : Prop :=
  ∃ pieces, List.Forall₂ Symbol.Spells p pieces ∧ text = pieces.flatten

/-- Patterns are written with a separator between them. -/
def RuleLine.Spells (ps : List Pattern) (line : List Char) : Prop :=
  ∃ fields, List.Forall₂ Pattern.Spells ps fields ∧ line = ['/'].intercalate fields

/-- A symbol as it can be written everywhere, with literals escaped. -/
def Symbol.write : Symbol → List Char
  | literal c => ['!', c]
  | category letter => [letter]
  | comma => [',']
  | edge => ['#']
  | bar => ['|']
  | locus => ['_']

/-- The line of patterns, with all literals escaped. -/
def RuleLine.write (ps : List Pattern) : List Char :=
  ['/'].intercalate (ps.map fun p => p.flatMap Symbol.write)

/-! ## Patterns that a line can hold -/

/-- The fields of a rule in the order they are written. -/
def Field.all : List Field := [.target, .change, .environment, .exception, .elseChange]

/-- The fields behind a field. -/
def Field.behind : Field → List Field
  | target => [change, environment, exception, elseChange]
  | change => [environment, exception, elseChange]
  | environment => [exception, elseChange]
  | exception => [elseChange]
  | elseChange => []

/-- Whether a category symbol has an uppercase letter. -/
def Symbol.isProper : Symbol → Bool
  | category letter => Text.isUppercase letter
  | _ => true

/-- An alternative that can stand beside others: it is not empty and has at most one locus. -/
def Alternative.Fits (alt : Alternative) : Prop :=
  alt ≠ [] ∧ alt.count .locus ≤ 1

/-- The patterns for a condition: there is no comma, and the pattern is empty or each of its
alternatives fits. -/
def Pattern.FitsCondition (p : Pattern) : Prop :=
  .comma ∉ p ∧ (p = [] ∨ ∀ alt ∈ alternatives p, alt.Fits)

/-- The patterns for the other fields: no bar and no locus, and with a comma nothing but texts
between the commas, none of them empty. -/
def Pattern.FitsOther (p : Pattern) : Prop :=
  .bar ∉ p ∧ .locus ∉ p ∧
    (.comma ∈ p → ∀ member ∈ p.splitOn .comma, member ≠ [] ∧ isText member = true)

/-- The patterns that can stand in a field. -/
def Pattern.Fits (field : Field) (p : Pattern) : Prop :=
  if field.isCondition then p.FitsCondition else p.FitsOther

/-- The patterns that a rule line can hold. -/
@[mk_iff]
structure RuleLine.WellFormed (ps : List Pattern) : Prop where
  nonempty : ps ≠ []
  atMostFive : ps.length ≤ 5
  fits : ∀ q ∈ Field.all.zip ps, Pattern.Fits q.1 q.2
  proper : ∀ p ∈ ps, ∀ t ∈ p, Symbol.isProper t = true

instance (alt : Alternative) : Decidable alt.Fits :=
  inferInstanceAs (Decidable (_ ∧ _))

instance (p : Pattern) : Decidable p.FitsCondition :=
  inferInstanceAs (Decidable (_ ∧ (_ ∨ _)))

instance (p : Pattern) : Decidable p.FitsOther :=
  inferInstanceAs (Decidable (_ ∧ _ ∧ (_ → _)))

instance (field : Field) (p : Pattern) : Decidable (p.Fits field) :=
  inferInstanceAs (Decidable (if field.isCondition then p.FitsCondition else p.FitsOther))

instance (ps : List Pattern) : Decidable (RuleLine.WellFormed ps) :=
  decidable_of_iff' _ (RuleLine.wellFormed_iff ps)

/-! ## Spelling in parts -/

theorem Symbol.spells_write (t : Symbol) : t.Spells t.write := by
  cases t <;> constructor

theorem Pattern.spells_flatMap_write (p : Pattern) : p.Spells (p.flatMap Symbol.write) :=
  ⟨p.map Symbol.write, List.forall₂_map_right_iff.mpr <| List.forall₂_same.mpr fun t _ =>
    t.spells_write, rfl⟩

theorem Pattern.spells_nil {text : List Char} : Pattern.Spells [] text ↔ text = [] := by
  simp [Pattern.Spells]

theorem Pattern.spells_cons {t : Symbol} {p : Pattern} {text : List Char} :
    Pattern.Spells (t :: p) text ↔ ∃ s rest, t.Spells s ∧ p.Spells rest ∧ text = s ++ rest := by
  constructor
  · rintro ⟨_, h, rfl⟩
    obtain ⟨s, pieces, ht, hp, rfl⟩ := List.forall₂_cons_left_iff.mp h
    exact ⟨s, pieces.flatten, ht, ⟨pieces, hp, rfl⟩, rfl⟩
  · rintro ⟨s, _, ht, ⟨pieces, hp, rfl⟩, rfl⟩
    exact ⟨s :: pieces, .cons ht hp, rfl⟩

namespace RuleLine

theorem intercalate_append_head (sep s f : List Char) (fs : List (List Char)) :
    sep.intercalate ((s ++ f) :: fs) = s ++ sep.intercalate (f :: fs) := by
  cases fs with
  | nil => simp
  | cons g fs => simp [List.intercalate_cons_cons]

/-- The end of a line spells the end of the last pattern. -/
theorem spells_end {line : List Char} : Spells [[]] line ↔ line = [] := by
  constructor
  · rintro ⟨_, h, rfl⟩
    obtain ⟨f, _, hf, hfs, rfl⟩ := List.forall₂_cons_left_iff.mp h
    rw [List.forall₂_nil_left_iff.mp hfs, List.intercalate_singleton, Pattern.spells_nil.mp hf]
  · rintro rfl
    exact ⟨[[]], .cons (Pattern.spells_nil.mpr rfl) .nil, rfl⟩

/-- Between two patterns stands a separator. -/
theorem spells_separator {p : Pattern} {ps : List Pattern} {line : List Char} :
    Spells ([] :: p :: ps) line ↔ ∃ rest, line = '/' :: rest ∧ Spells (p :: ps) rest := by
  constructor
  · rintro ⟨_, h, rfl⟩
    obtain ⟨f, _, hf, hgs, rfl⟩ := List.forall₂_cons_left_iff.mp h
    obtain ⟨g, fs, hg, hfs, rfl⟩ := List.forall₂_cons_left_iff.mp hgs
    rw [Pattern.spells_nil.mp hf, List.intercalate_cons_cons]
    exact ⟨['/'].intercalate (g :: fs), rfl, g :: fs, .cons hg hfs, rfl⟩
  · rintro ⟨_, rfl, fields, h, rfl⟩
    obtain ⟨g, fs, hg, hfs, rfl⟩ := List.forall₂_cons_left_iff.mp h
    refine ⟨[] :: g :: fs, .cons (Pattern.spells_nil.mpr rfl) (.cons hg hfs), ?_⟩
    rw [List.intercalate_cons_cons]
    rfl

/-- The first symbol of a pattern is spelled in front of the others. -/
theorem spells_symbol {t : Symbol} {p : Pattern} {ps : List Pattern} {line : List Char} :
    Spells ((t :: p) :: ps) line ↔
      ∃ s rest, t.Spells s ∧ line = s ++ rest ∧ Spells (p :: ps) rest := by
  constructor
  · rintro ⟨_, h, rfl⟩
    obtain ⟨_, fs, hf, hfs, rfl⟩ := List.forall₂_cons_left_iff.mp h
    obtain ⟨s, f, ht, hp, rfl⟩ := Pattern.spells_cons.mp hf
    exact ⟨s, ['/'].intercalate (f :: fs), ht, intercalate_append_head .., f :: fs,
      .cons hp hfs, rfl⟩
  · rintro ⟨s, _, ht, rfl, fields, h, rfl⟩
    obtain ⟨f, fs, hp, hfs, rfl⟩ := List.forall₂_cons_left_iff.mp h
    exact ⟨(s ++ f) :: fs, .cons (Pattern.spells_cons.mpr ⟨s, f, ht, hp, rfl⟩) hfs,
      (intercalate_append_head ..).symm⟩

theorem spells_write (ps : List Pattern) : Spells ps (write ps) :=
  ⟨_, List.forall₂_map_right_iff.mpr <| List.forall₂_same.mpr fun p _ => p.spells_flatMap_write,
    rfl⟩

end RuleLine

end SoundChange
