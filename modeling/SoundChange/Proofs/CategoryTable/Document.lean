import SoundChange.CategoryTable.Document
import SoundChange.Proofs.CategoryTable.Definitions
import SoundChange.Proofs.Json.Reading

/-!
# Documents of category tables

The document of a table is read back as that table if every letter is uppercase, and is refused for
the names of the letters that are not. Whatever a table is read from, be it a document, a plain text
or a file, its letters are uppercase, and merging such tables does not change that.

* `read_toLexemes`, `read_toLexemes_of_badLetters`: the lexemes of a table's document, with
  anything behind them.
* `Given`, `Given.proper`: the tables that are read and merged.
* `ofDocument_toDocument`: tables that are written and read.
-/

set_option autoImplicit false

namespace SoundChange.CategoryTable

variable {t u : CategoryTable}

/-! ## What is read is proper -/

theorem isUppercase_of_mem_goodCategories {members : List (List Char × List Word)} {c : Category}
    (h : c ∈ goodCategories members) : Text.isUppercase c.1 = true := by
  obtain ⟨member, -, h⟩ := List.mem_filterMap.mp h
  obtain ⟨letter, hletter, rfl⟩ := Option.map_eq_some_iff.mp h
  exact (letterOf?_eq_some_iff.mp hletter).2

theorem proper_of_ofNamed {members : List (List Char × List Word)}
    (h : ofNamed members = .ok t) : t.Proper := by
  unfold ofNamed at h
  split at h
  case h_1 =>
    cases h
    exact proper_ofList fun _ => isUppercase_of_mem_goodCategories
  case h_2 => cases h

theorem proper_of_read {ls rest : List Json.Lexeme} (h : read ls = .ok (t, rest)) : t.Proper := by
  unfold read at h
  split at h
  case h_1 => cases h
  case h_2 members left hs =>
    obtain ⟨u, hu, h⟩ := bind_eq_ok_iff.mp h
    cases h
    exact proper_of_ofNamed hu

theorem parseDocument_eq_ok_iff {text : List Char} :
    parseDocument text = .ok t ↔ read (Json.lexemes text) = .ok (t, []) :=
  bind_isEmpty_eq_ok_iff

theorem ofDocument_eq_ok_iff {text : List Char} :
    ofDocument text = .ok t ↔ read (Json.lexemes text) = .ok (t, []) :=
  mapError_eq_ok_iff.trans parseDocument_eq_ok_iff

theorem proper_of_ofDocument {text : List Char} (h : ofDocument text = .ok t) : t.Proper :=
  proper_of_read (ofDocument_eq_ok_iff.mp h)

theorem isUppercase_of_define {line : List Char} {c : Category} (h : define line = .ok c) :
    Text.isUppercase c.1 = true := by
  unfold define at h
  split at h
  case h_1 => cases h
  case h_2 name members _ =>
    split at h
    case h_1 => cases h
    case h_2 letter hletter =>
      cases h
      exact (letterOf?_eq_some_iff.mp hletter).2

theorem Proper.defineLine {line : List Char × Nat} (ht : t.Proper)
    (h : t.defineLine line = .ok u) : u.Proper := by
  simp only [CategoryTable.defineLine] at h
  split at h
  · cases h
    exact ht
  · obtain ⟨c, hc, h⟩ := bind_eq_ok_iff.mp h
    cases h
    exact ht.insert (isUppercase_of_define (mapError_eq_ok_iff.mp hc)) c.2

theorem proper_of_ofPlainText {text : List Char} (h : ofPlainText text = .ok t) : t.Proper :=
  foldlM_eq_ok_induction (fun _ _ _ => Proper.defineLine) proper_empty h

theorem proper_of_load {disk : Disk} {p : Path} (h : load disk p = .ok t) : t.Proper := by
  unfold load at h
  split at h
  · exact proper_of_ofDocument h
  · cases h
  · cases h

/-- The tables that are read from documents, plain texts and files, and what merging makes of
them. -/
inductive Given : CategoryTable → Prop where
  | document {text : List Char} {t : CategoryTable} (h : ofDocument text = .ok t) : Given t
  | plainText {text : List Char} {t : CategoryTable} (h : ofPlainText text = .ok t) : Given t
  | file {disk : Disk} {p : Path} {t : CategoryTable} (h : load disk p = .ok t) : Given t
  | merge {t u : CategoryTable} (ht : Given t) (hu : Given u) : Given (t.merge u)

theorem Given.proper (h : Given t) : t.Proper := by
  induction h with
  | document h => exact proper_of_ofDocument h
  | plainText h => exact proper_of_ofPlainText h
  | file h => exact proper_of_load h
  | merge _ _ iht ihu => exact iht.merge ihu

/-! ## Reading what was written -/

/-- The categories under the names that they have in a document. -/
def named (cs : List Category) : List (List Char × List Word) :=
  cs.map fun c => ([c.1], c.2)

theorem toJson_eq (t : CategoryTable) : t.toJson = Json.ofStringLists (named t.categories) := by
  simp [toJson, Json.ofStringLists, Json.stringListMembers, Json.ofStrings, named]

theorem numbers_toJson (t : CategoryTable) : t.toJson.numbers = [] := by
  rw [toJson_eq, Json.numbers_ofStringLists]

/-- The names that no category can have are those of the letters that are not uppercase. -/
theorem badNames_named (cs : List Category) :
    badNames (named cs) =
      ((cs.map Prod.fst).filter fun letter => !Text.isUppercase letter).map fun letter =>
        [letter] := by
  have hname : ∀ letter, (letterOf? [letter]).isNone = !Text.isUppercase letter := by
    intro letter
    cases hl : Text.isUppercase letter <;> simp [letterOf?, hl]
  simp only [badNames, named, List.map_map, List.filter_map, Function.comp_def, hname]

theorem goodCategories_named {cs : List Category} (h : ∀ c ∈ cs, Text.isUppercase c.1 = true) :
    goodCategories (named cs) = cs := by
  rw [goodCategories, named, List.filterMap_map]
  refine (List.filterMap_congr fun c hc => ?_).trans List.filterMap_some
  simp [letterOf?, h c hc]

/-- The letters of a table that are not uppercase. -/
def badLetters (t : CategoryTable) : List Char :=
  t.letters.filter fun letter => !Text.isUppercase letter

theorem badLetters_eq_nil_iff : t.badLetters = [] ↔ t.Proper := by
  simp [badLetters, Proper]

theorem exists_badLetters (ht : ¬ t.Proper) :
    ∃ letter others, t.badLetters = letter :: others :=
  List.exists_cons_of_ne_nil (mt badLetters_eq_nil_iff.mp ht)

/-- The document of a proper table is read, whatever comes behind it. -/
theorem read_toLexemes (ht : t.Proper) (rest : List Json.Lexeme) :
    read (t.toJson.toLexemes ++ rest) = .ok (t, rest) := by
  have hbad : badNames (named t.categories) = [] := by
    rw [badNames_named, List.map_eq_nil_iff]
    exact badLetters_eq_nil_iff.mpr ht
  have hgood : goodCategories (named t.categories) = t.categories :=
    goodCategories_named fun c hc => ht c.1 (List.mem_map_of_mem hc)
  have hlist : ofList t.categories = t := empty_merge t
  rw [read, toJson_eq, Json.stringLists?_toLexemes]
  simp only [ofNamed, hbad, hgood, hlist]
  rfl

/-- The document of any other table is refused for all its letters that are not uppercase. -/
theorem read_toLexemes_of_badLetters {letter : Char} {others : List Char}
    (h : t.badLetters = letter :: others) (rest : List Json.Lexeme) :
    read (t.toJson.toLexemes ++ rest) =
      .error (.badNames [letter] (others.map fun other => [other])) := by
  have hbad : badNames (named t.categories) = [letter] :: others.map fun other => [other] := by
    rw [badNames_named]
    exact congrArg (List.map fun l => [l]) h
  rw [read, toJson_eq, Json.stringLists?_toLexemes]
  simp only [ofNamed, hbad]
  rfl

theorem lexemes_toDocument (t : CategoryTable) :
    Json.lexemes t.toDocument = t.toJson.toLexemes :=
  Json.lexemes_compact_self (Json.isNumber_of_numbers_eq_nil (numbers_toJson t))

/-! ## Writing and reading -/

theorem ofDocument_toDocument_of_proper (ht : t.Proper) : ofDocument t.toDocument = .ok t := by
  rw [ofDocument_eq_ok_iff, lexemes_toDocument]
  simpa using read_toLexemes ht []

theorem ofDocument_toDocument_of_badLetters {letter : Char} {others : List Char}
    (h : t.badLetters = letter :: others) :
    ofDocument t.toDocument =
      .error (.malformed (.badNames [letter] (others.map fun other => [other]))) := by
  have hread := read_toLexemes_of_badLetters h []
  rw [List.append_nil] at hread
  rw [ofDocument, parseDocument, lexemes_toDocument, hread]
  rfl

/-- A table of uppercase letters is read back from its document, whatever its members are. Tables
that are read from documents, plain texts and files have no other letters, nor have merges of them;
so what is read once is read again. A table with any other letter has a document that is refused for
the names of all such letters. -/
theorem ofDocument_toDocument :
    (∀ t : CategoryTable, t.Proper → ofDocument t.toDocument = .ok t) ∧
    (∀ t, Given t → t.Proper ∧ ofDocument t.toDocument = .ok t) ∧
    (∀ text t, ofDocument text = .ok t → ofDocument t.toDocument = .ok t) ∧
    ∀ t : CategoryTable, ¬ t.Proper → ∃ letter others,
      (t.letters.filter fun l => !Text.isUppercase l) = letter :: others ∧
      ofDocument t.toDocument =
        .error (.malformed (.badNames [letter] (others.map fun other => [other]))) := by
  refine ⟨fun t => ofDocument_toDocument_of_proper, fun t ht => ?_, fun text t h => ?_,
    fun t ht => ?_⟩
  · exact ⟨ht.proper, ofDocument_toDocument_of_proper ht.proper⟩
  · exact ofDocument_toDocument_of_proper (proper_of_ofDocument h)
  · obtain ⟨letter, others, h⟩ := exists_badLetters ht
    exact ⟨letter, others, h, ofDocument_toDocument_of_badLetters h⟩

/-- A table with an empty member and members that have to be escaped. -/
def escapedMembers : CategoryTable :=
  ofList [('C', [[], ['"', '\\'], ['\n', '\x01'], ['😀']]), ('Ⓐ', [])]

/-- A table with a digraph whose first half alone is uppercase. -/
def digraph : CategoryTable :=
  ofList [('V', ["a".toList]), ('ǅ', ["b".toList])]

/-- Members that have to be escaped come back, and so do those of a plain text merged with the last
ones of a name that a document repeats; a digraph is no name. -/
theorem ofDocument_toDocument_escapedMembers :
    (escapedMembers.Proper ∧ ofDocument escapedMembers.toDocument = .ok escapedMembers) ∧
    (∃ t u, ofPlainText "V=ae".toList = .ok t ∧
      ofDocument "\x7b\"C\": [], \"C\": [\"\\u0070\"]\x7d".toList = .ok u ∧
      (t.merge u).Proper ∧ ofDocument (t.merge u).toDocument = .ok (t.merge u) ∧
      ofDocument u.toDocument = .ok u) ∧
    ¬ digraph.Proper ∧
      ofDocument digraph.toDocument = .error (.malformed (.badNames ['ǅ'] [])) := by
  obtain ⟨hproper, hgiven, hagain, himproper⟩ := ofDocument_toDocument
  have hescaped : escapedMembers.Proper := by decide
  have hdigraph : ¬ digraph.Proper := by decide
  have ht : ofPlainText "V=ae".toList = .ok (ofList [('V', ["a".toList, "e".toList])]) := rfl
  have hu : ofDocument "\x7b\"C\": [], \"C\": [\"\\u0070\"]\x7d".toList =
      .ok (ofList [('C', ["p".toList])]) := by
    decide +kernel
  obtain ⟨hmerged, hread⟩ := hgiven _ (.merge (.plainText ht) (.document hu))
  refine ⟨⟨hescaped, hproper _ hescaped⟩, ⟨_, _, ht, hu, hmerged, hread, hagain _ _ hu⟩, hdigraph,
    ?_⟩
  obtain ⟨letter, others, hl, herror⟩ := himproper digraph hdigraph
  have hbad : (digraph.letters.filter fun l => !Text.isUppercase l) = ['ǅ'] := by decide
  obtain ⟨rfl, rfl⟩ := List.cons.inj (hbad.symm.trans hl)
  exact herror

end SoundChange.CategoryTable
