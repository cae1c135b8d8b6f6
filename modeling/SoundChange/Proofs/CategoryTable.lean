import SoundChange.CategoryTable
import SoundChange.Text.Uppercase

/-!
# Letters of category tables

A letter is defined in a table if a look-up finds it. What is inserted or merged into a table adds
to its letters and takes none away; where both tables of a merge have a letter, the second one
decides about its members. A table is proper if all its letters are uppercase, and insertions and
merges that start from proper tables stay proper.

* `mem_letters_iff`: the letters are those that are defined.
* `get?_merge`: a merged table, letter by letter.
* `Proper.insert`, `Proper.merge`: proper tables.
-/

set_option autoImplicit false

namespace SoundChange.CategoryTable

variable {t u : CategoryTable}

/-! ## Letters -/

theorem mem_letters_iff (t : CategoryTable) (letter : Char) :
    letter ∈ t.letters ↔ t.contains letter = true := by
  simp only [contains, get?, letters, List.lookup_isSome_iff, List.mem_map, beq_iff_eq]
  exact exists_congr fun _ => and_congr_right fun _ => eq_comm

theorem contains_insert (t : CategoryTable) (letter l : Char) (members : List Word) :
    (t.insert letter members).contains l = (l == letter || t.contains l) := by
  rw [contains, get?_insert]
  by_cases h : l = letter
  · simp [h]
  · simp [contains, h]

/-! ## Merging -/

theorem get?_foldl_insert {cs : List Category} (h : cs.Pairwise fun a b => a.1 < b.1)
    (t : CategoryTable) (letter : Char) :
    (cs.foldl (fun t c => t.insert c.1 c.2) t).get? letter =
      (cs.lookup letter).or (t.get? letter) := by
  induction cs generalizing t with
  | nil => rfl
  | cons c cs ih =>
    obtain ⟨hc, hcs⟩ := List.pairwise_cons.mp h
    rw [List.foldl_cons, ih hcs, get?_insert, lookup_cons]
    -- The letters behind `c` are greater than its own, so none of them takes its place.
    by_cases hl : letter = c.1
    · rw [if_pos hl, if_pos hl, hl, lookup_eq_none_of_lt hc]
      rfl
    · rw [if_neg hl, if_neg hl]

theorem get?_merge (t u : CategoryTable) (letter : Char) :
    (t.merge u).get? letter = (u.get? letter).or (t.get? letter) :=
  get?_foldl_insert u.ascending t letter

theorem contains_merge (t u : CategoryTable) (letter : Char) :
    (t.merge u).contains letter = (u.contains letter || t.contains letter) := by
  rw [contains, get?_merge, Option.isSome_or]
  rfl

@[simp] theorem empty_merge (t : CategoryTable) : empty.merge t = t :=
  ext_get? fun letter => by rw [get?_merge, get?_empty, Option.or_none]

/-! ## Proper tables -/

/-- Every letter of the table is uppercase. -/
def Proper (t : CategoryTable) : Prop :=
  ∀ letter ∈ t.letters, Text.isUppercase letter = true

instance : Decidable t.Proper :=
  List.decidableBAll (fun letter => Text.isUppercase letter = true) t.letters

theorem proper_iff_contains :
    t.Proper ↔ ∀ letter, t.contains letter = true → Text.isUppercase letter = true := by
  simp only [Proper, mem_letters_iff]

theorem proper_empty : empty.Proper := nofun

theorem Proper.insert {letter : Char} (ht : t.Proper) (h : Text.isUppercase letter = true)
    (members : List Word) : (t.insert letter members).Proper := by
  rw [proper_iff_contains] at ht ⊢
  intro l hl
  rw [contains_insert, Bool.or_eq_true, beq_iff_eq] at hl
  rcases hl with rfl | hl
  · exact h
  · exact ht l hl

theorem proper_foldl_insert {cs : List Category} (ht : t.Proper)
    (h : ∀ c ∈ cs, Text.isUppercase c.1 = true) :
    (cs.foldl (fun t c => t.insert c.1 c.2) t).Proper := by
  induction cs generalizing t with
  | nil => exact ht
  | cons c cs ih =>
    rw [List.forall_mem_cons] at h
    exact ih (ht.insert h.1 c.2) h.2

theorem proper_ofList {cs : List Category} (h : ∀ c ∈ cs, Text.isUppercase c.1 = true) :
    (ofList cs).Proper :=
  proper_foldl_insert proper_empty h

theorem Proper.merge (ht : t.Proper) (hu : u.Proper) : (t.merge u).Proper := by
  rw [proper_iff_contains] at ht hu ⊢
  intro letter hl
  rw [contains_merge, Bool.or_eq_true] at hl
  exact hl.elim (hu letter) (ht letter)

end SoundChange.CategoryTable
