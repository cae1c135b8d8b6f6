import SoundChange.Proofs.CategoryTable.Document

/-!
# Tables and how they were put together

A table is put together by giving members to letters, one letter after the other, and by merging
other tables into it, which gives all their letters their members there. What it is in the end
hangs on the last of these writes to each letter alone. Tables that answer alike are equal, and so
are tables with the same document.

* `Edit`, `edited`: what is done to a table, and what a list of such edits makes of the empty table.
* `lastWrite`, `get?_edited`: what was written last to a letter, and that this is what stays.
* `toDocument_injective`: the document of a table says all there is to say of it.
* `edited_follows_last_writes`: the answers of a table, and when two tables are equal.
-/

set_option autoImplicit false

namespace SoundChange.CategoryTable

/-! ## Edits -/

/-- What is done to a table. Any character can be a letter here. -/
inductive Edit where
  /-- A letter is given its members, be it in the table or in a copy of it. -/
  | insert (letter : Char) (members : List Word)
  /-- The letters of another table are given the members that they have there. -/
  | merge (other : CategoryTable)

namespace Edit

/-- The table after the edit. -/
def applyTo (t : CategoryTable) : Edit → CategoryTable
  | insert letter members => t.insert letter members
  | merge other => t.merge other

/-- The members that the edit gives to a letter, if it writes to it. -/
def written? : Edit → Char → Option (List Word)
  | insert letter members, l => if l = letter then some members else none
  | merge other, l => other.get? l

end Edit

/-- The empty table after edits, one after the other. -/
def edited (edits : List Edit) : CategoryTable :=
  edits.foldl Edit.applyTo empty

/-- The members that were given to a letter last, if any were. -/
def lastWrite (edits : List Edit) (letter : Char) : Option (List Word) :=
  edits.reverse.findSome? fun e => e.written? letter

/-! ## What stays -/

theorem get?_applyTo (t : CategoryTable) (e : Edit) (letter : Char) :
    (e.applyTo t).get? letter = (e.written? letter).or (t.get? letter) := by
  cases e with
  | insert l members =>
    simp only [Edit.applyTo, Edit.written?, get?_insert]
    split <;> rfl
  | merge other => exact get?_merge t other letter

theorem lastWrite_cons (e : Edit) (edits : List Edit) (letter : Char) :
    lastWrite (e :: edits) letter = (lastWrite edits letter).or (e.written? letter) := by
  simp [lastWrite, List.findSome?_append]

theorem get?_foldl_applyTo (edits : List Edit) (t : CategoryTable) (letter : Char) :
    (edits.foldl Edit.applyTo t).get? letter = (lastWrite edits letter).or (t.get? letter) := by
  induction edits generalizing t with
  | nil => rfl
  | cons e edits ih => rw [List.foldl_cons, ih, get?_applyTo, lastWrite_cons, Option.or_assoc]

theorem get?_edited (edits : List Edit) (letter : Char) :
    (edited edits).get? letter = lastWrite edits letter := by
  rw [edited, get?_foldl_applyTo, get?_empty, Option.or_none]

theorem isSome_lastWrite_iff {edits : List Edit} {letter : Char} :
    (lastWrite edits letter).isSome = true ↔ ∃ e ∈ edits, ∃ members,
      e.written? letter = some members := by
  rw [lastWrite, List.findSome?_isSome_iff]
  simp [Option.isSome_iff_exists]

/-! ## What is seen of a table -/

theorem pairwise_letters (t : CategoryTable) : t.letters.Pairwise (· < ·) :=
  List.pairwise_map.mpr t.ascending

theorem size_eq_length_letters (t : CategoryTable) : t.size = t.letters.length := by
  simp [size, letters]

theorem isEmpty_iff_size_eq_zero (t : CategoryTable) : t.isEmpty = true ↔ t.size = 0 := by
  simp [isEmpty, size]

/-- Tables with the same document are equal, whatever their letters and members are. -/
theorem toDocument_injective {t u : CategoryTable} (h : t.toDocument = u.toDocument) : t = u := by
  have hlexemes : t.toJson.toLexemes = u.toJson.toLexemes := by
    rw [← lexemes_toDocument, ← lexemes_toDocument, h]
  -- The categories are read back from the lexemes, letters that are no names among them.
  have ht := Json.stringLists?_toLexemes (named t.categories) []
  rw [← toJson_eq, hlexemes, toJson_eq, Json.stringLists?_toLexemes] at ht
  have hnamed : named u.categories = named t.categories := by simpa using ht
  have hinjective : Function.Injective fun c : Category => ([c.1], c.2) := by
    intro c d hcd
    simpa [Prod.ext_iff] using hcd
  have hcategories : u.categories = t.categories := List.map_injective_iff.mpr hinjective hnamed
  exact ext_get? fun letter => by rw [get?, get?, hcategories]

/-! ## Tables that were edited -/

/-- After edits of any kind, a table gives for a letter what was written to it last and nothing if
nothing was; its letters are those that were written to, each once and in ascending order, and it
has as many categories as letters. Two such tables are equal if and only if they give the same for
every letter, and if and only if their documents are the same text, whatever the edits were. -/
theorem edited_follows_last_writes :
    (∀ edits : List Edit,
      (∀ letter, (edited edits).get? letter = lastWrite edits letter) ∧
      (∀ letter, (edited edits).contains letter = ((edited edits).get? letter).isSome) ∧
      (edited edits).letters.Pairwise (· < ·) ∧
      (∀ letter, letter ∈ (edited edits).letters ↔ ∃ e ∈ edits, ∃ members,
        e.written? letter = some members) ∧
      (edited edits).size = (edited edits).letters.length ∧
      ((edited edits).isEmpty = true ↔ (edited edits).size = 0)) ∧
    ∀ edits edits' : List Edit,
      (edited edits = edited edits' ↔
        ∀ letter, (edited edits).get? letter = (edited edits').get? letter) ∧
      (edited edits = edited edits' ↔
        (edited edits).toDocument = (edited edits').toDocument) := by
  refine ⟨fun edits => ?_, fun edits edits' => ⟨⟨fun h letter => by rw [h], ext_get?⟩,
    ⟨fun h => by rw [h], toDocument_injective⟩⟩⟩
  have hletters : ∀ letter, letter ∈ (edited edits).letters ↔ ∃ e ∈ edits, ∃ members,
      e.written? letter = some members := by
    intro letter
    rw [mem_letters_iff, contains, get?_edited, isSome_lastWrite_iff]
  exact ⟨get?_edited edits, fun _ => rfl, pairwise_letters _, hletters, size_eq_length_letters _,
    isEmpty_iff_size_eq_zero _⟩

/-- A merge writes over what was inserted, and what is inserted later over both; small letters sort
behind capital ones. -/
example :
    edited [.insert 'v' [['a']], .insert 'C' [['t']],
        .merge (ofList [('v', []), ('C', [['p']])]), .insert 'v' [['o']]] =
      edited [.insert 'C' [['p']], .insert 'v' [['o']]] := by
  decide

end SoundChange.CategoryTable
