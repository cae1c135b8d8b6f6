import SoundChange.Symbol

/-!
# Category tables

A category is a letter with an ordered list of members; the order pairs the members of two
categories. A table keeps its categories in ascending order of their letters, one for each letter,
so that two tables with the same categories are equal whatever the order they were filled in.

* `get?_insert`: an insertion is seen at its letter and nowhere else.
* `ext_get?`: a table is determined by its members.
-/

set_option autoImplicit false

namespace SoundChange

/-- One category: its letter and its members. -/
abbrev Category := Char × List Word

/-- Categories in ascending order of their letters. -/
structure CategoryTable where
  categories : List Category
  ascending : categories.Pairwise fun a b => a.1 < b.1
  deriving DecidableEq

namespace CategoryTable

/-- The table without categories. -/
def empty : CategoryTable := ⟨[], .nil⟩

instance : Inhabited CategoryTable := ⟨empty⟩

/-- Puts a category in its place, over one of the same letter if there is one. -/
def insertInto (letter : Char) (members : List Word) : List Category → List Category
  | [] => [(letter, members)]
  | (l, ms) :: rest =>
    if letter < l then (letter, members) :: (l, ms) :: rest
    else if letter = l then (letter, members) :: rest
    else (l, ms) :: insertInto letter members rest

theorem mem_insertInto {letter : Char} {members : List Word} {cs : List Category} {c : Category}
    (h : c ∈ insertInto letter members cs) : c = (letter, members) ∨ c ∈ cs := by
  induction cs with
  | nil => simpa [insertInto] using h
  | cons d rest ih =>
    simp only [insertInto] at h
    grind

theorem ascending_insertInto (letter : Char) (members : List Word) {cs : List Category}
    (h : cs.Pairwise fun a b => a.1 < b.1) :
    (insertInto letter members cs).Pairwise fun a b => a.1 < b.1 := by
  induction cs with
  | nil => simp [insertInto]
  | cons d rest ih =>
    obtain ⟨hd, hrest⟩ := List.pairwise_cons.mp h
    simp only [insertInto]
    split
    · rename_i hlt
      refine List.pairwise_cons.mpr ⟨fun c hc => ?_, h⟩
      rcases List.mem_cons.mp hc with rfl | hc
      · exact hlt
      · exact Char.lt_trans hlt (hd c hc)
    · split
      · rename_i heq
        exact List.pairwise_cons.mpr ⟨fun c hc => heq ▸ hd c hc, hrest⟩
      · rename_i hge hne
        refine List.pairwise_cons.mpr ⟨fun c hc => ?_, ih hrest⟩
        rcases mem_insertInto hc with rfl | hc
        · exact Std.lt_of_le_of_ne (Char.not_lt.mp hge) (Ne.symm hne)
        · exact hd c hc

/-- The table with the members of one letter replaced. -/
def insert (t : CategoryTable) (letter : Char) (members : List Word) : CategoryTable :=
  ⟨insertInto letter members t.categories, ascending_insertInto letter members t.ascending⟩

/-- The members of a letter, if it is defined. -/
def get? (t : CategoryTable) (letter : Char) : Option (List Word) :=
  t.categories.lookup letter

/-- Whether a letter is defined. -/
def contains (t : CategoryTable) (letter : Char) : Bool :=
  (t.get? letter).isSome

/-- The number of categories. -/
def size (t : CategoryTable) : Nat :=
  t.categories.length

/-- Whether the table has no categories. -/
def isEmpty (t : CategoryTable) : Bool :=
  t.categories.isEmpty

/-- The defined letters, ascending. -/
def letters (t : CategoryTable) : List Char :=
  t.categories.map Prod.fst

/-- The table of a list of categories; of two with the same letter the later one stays. -/
def ofList (cs : List Category) : CategoryTable :=
  cs.foldl (fun t c => t.insert c.1 c.2) empty

/-- The categories of both tables; where both define a letter, `other` decides. -/
def merge (t other : CategoryTable) : CategoryTable :=
  other.categories.foldl (fun t c => t.insert c.1 c.2) t

/-! ## What a look-up sees -/

@[simp] theorem get?_empty (letter : Char) : empty.get? letter = none := rfl

theorem lookup_cons (c : Category) (cs : List Category) (letter : Char) :
    (c :: cs).lookup letter = if letter = c.1 then some c.2 else cs.lookup letter := by
  obtain ⟨l, ms⟩ := c
  rw [List.lookup_cons]
  by_cases h : letter = l
  · simp [h]
  · simp [beq_eq_false_iff_ne.mpr h, h]

theorem lookup_insertInto (letter l : Char) (members : List Word) (cs : List Category) :
    (insertInto letter members cs).lookup l =
      if l = letter then some members else cs.lookup l := by
  induction cs with
  | nil => rw [insertInto, lookup_cons]
  | cons d rest ih =>
    simp only [insertInto]
    grind [lookup_cons]

theorem get?_insert (t : CategoryTable) (letter l : Char) (members : List Word) :
    (t.insert letter members).get? l = if l = letter then some members else t.get? l :=
  lookup_insertInto letter l members t.categories

theorem lookup_eq_none_of_lt {letter : Char} {cs : List Category}
    (h : ∀ c ∈ cs, letter < c.1) : cs.lookup letter = none := by
  induction cs with
  | nil => rfl
  | cons c rest ih =>
    rw [lookup_cons, if_neg (Char.ne_of_lt (h c (.head _))), ih fun d hd => h d (.tail _ hd)]

theorem head_letter_le {c d : Category} {cs ds : List Category}
    (hd : (d :: ds).Pairwise fun a b => a.1 < b.1)
    (h : ∀ l, (c :: cs).lookup l = (d :: ds).lookup l) : d.1 ≤ c.1 := by
  refine Char.not_lt.mp fun hlt => ?_
  have hnone : (d :: ds).lookup c.1 = none :=
    lookup_eq_none_of_lt fun e he => by
      rcases List.mem_cons.mp he with rfl | he
      · exact hlt
      · exact Char.lt_trans hlt ((List.pairwise_cons.mp hd).1 e he)
  simp [← h, lookup_cons] at hnone

theorem ext_lookup {cs ds : List Category} (hc : cs.Pairwise fun a b => a.1 < b.1)
    (hd : ds.Pairwise fun a b => a.1 < b.1) (h : ∀ l, cs.lookup l = ds.lookup l) : cs = ds := by
  induction cs generalizing ds with
  | nil =>
    cases ds with
    | nil => rfl
    | cons d ds => simpa [lookup_cons] using h d.1
  | cons c cs ih =>
    cases ds with
    | nil => simpa [lookup_cons] using h c.1
    | cons d ds =>
      have hl : c.1 = d.1 :=
        Char.le_antisymm (head_letter_le hc fun l => (h l).symm) (head_letter_le hd h)
      have hm : c.2 = d.2 := by simpa [lookup_cons, hl] using h c.1
      obtain ⟨hcs, hc⟩ := List.pairwise_cons.mp hc
      obtain ⟨hds, hd⟩ := List.pairwise_cons.mp hd
      have hrest : cs = ds := ih hc hd fun l => by
        by_cases hlc : l = c.1
        · rw [hlc, lookup_eq_none_of_lt hcs, hl, lookup_eq_none_of_lt hds]
        · simpa [lookup_cons, hlc, ← hl] using h l
      rw [hrest, Prod.ext hl hm]

/-- A table is determined by its members. -/
theorem ext_get? {t u : CategoryTable} (h : ∀ l, t.get? l = u.get? l) : t = u := by
  cases t; cases u
  congr
  exact ext_lookup ‹_› ‹_› h

end CategoryTable

end SoundChange
