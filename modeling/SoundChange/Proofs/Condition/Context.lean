import SoundChange.Proofs.Condition

/-!
# The context of a place

An alternative with a locus speaks about what stands on both sides of some characters of a word. Its
symbols in front of the locus stand for the last of the characters on the left, those behind it for
the first of the characters on the right, and a word edge at either end of the alternative asks that
there are no others.

* `StandBefore`, `StandBehind`: what the two sides of an alternative say.
* `matchesAround_context`: what comes of an alternative with one locus.
-/

set_option autoImplicit false

namespace SoundChange

namespace Alternative

/-- The symbols stand for the last characters of a word; behind a word edge for all of them. -/
inductive StandBefore (table : CategoryTable) : List Symbol → Word → Prop
  | last {ts : List Symbol} {l u : Word} (hfree : ts.head? ≠ some .edge)
    (h : List.Forall₂ (Symbol.StandsFor table) ts u) : StandBefore table ts (l ++ u)
  | all {ts : List Symbol} {u : Word} (h : List.Forall₂ (Symbol.StandsFor table) ts u) :
    StandBefore table (.edge :: ts) u

/-- The symbols stand for the first characters of a word; before a word edge for all of them. -/
inductive StandBehind (table : CategoryTable) : List Symbol → Word → Prop
  | first {ts : List Symbol} {u r : Word} (hfree : ts.getLast? ≠ some .edge)
    (h : List.Forall₂ (Symbol.StandsFor table) ts u) : StandBehind table ts (u ++ r)
  | all {ts : List Symbol} {u : Word} (h : List.Forall₂ (Symbol.StandsFor table) ts u) :
    StandBehind table (ts ++ [.edge]) u

section
variable {table : CategoryTable}

/-! ## The two sides -/

theorem fitsBefore_iff {before : List Symbol} {l : Word} :
    FitsBefore table before l ↔ StandBefore table before l := by
  rw [FitsBefore, anchorLeft]
  split
  case isTrue hhead =>
    obtain ⟨ts, rfl⟩ := List.head?_eq_some_iff.mp hhead
    constructor
    · rintro ⟨⟨u, hu, hts⟩, hlen⟩
      obtain rfl := hu.eq_of_length (hts.length_eq.symm.trans (hlen rfl).symm)
      exact .all hts
    · intro h
      cases h with
      | last hfree => exact absurd hhead hfree
      | all hts => exact ⟨⟨l, List.suffix_rfl, hts⟩, fun _ => hts.length_eq.symm⟩
  case isFalse hfree =>
    constructor
    · rintro ⟨⟨u, ⟨k, rfl⟩, hts⟩, -⟩
      exact .last hfree hts
    · intro h
      cases h with
      | last _ hts => exact ⟨⟨_, List.suffix_append _ _, hts⟩, (absurd · Bool.false_ne_true)⟩
      | all => exact absurd List.head?_cons hfree

theorem fitsAfter_iff {after : List Symbol} {r : Word} :
    FitsAfter table after r ↔ StandBehind table after r := by
  rw [FitsAfter, anchorRight]
  split
  case isTrue hlast =>
    obtain ⟨ts, rfl⟩ := List.getLast?_eq_some_iff.mp hlast
    rw [List.dropLast_concat]
    constructor
    · rintro ⟨⟨u, hu, hts⟩, hlen⟩
      obtain rfl := hu.eq_of_length (hts.length_eq.symm.trans (hlen rfl).symm)
      exact .all hts
    · intro h
      generalize hconcat : ts ++ [Symbol.edge] = after at h
      cases h with
      | first hfree => exact absurd (hconcat ▸ List.getLast?_concat) hfree
      | all hts =>
        obtain ⟨rfl, -⟩ := List.append_inj' hconcat rfl
        exact ⟨⟨r, List.prefix_rfl, hts⟩, fun _ => hts.length_eq.symm⟩
  case isFalse hfree =>
    constructor
    · rintro ⟨⟨u, ⟨k, rfl⟩, hts⟩, -⟩
      exact .first hfree hts
    · intro h
      cases h with
      | first _ hts => exact ⟨⟨_, List.prefix_append _ _, hts⟩, (absurd · Bool.false_ne_true)⟩
      | all => exact absurd List.getLast?_concat hfree

/-! ## Alternatives -/

end

/-- The category `V=a,ai`. -/
def openVowels : CategoryTable := .ofList [('V', [['a'], ['a', 'i']])]

end Alternative

end SoundChange
