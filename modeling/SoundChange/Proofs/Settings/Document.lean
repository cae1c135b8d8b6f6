import SoundChange.Proofs.CategoryTable.Document
import SoundChange.Settings.Document

/-!
# Documents of settings

Settings are read one by one, and what the document of some settings holds under a name is what the
settings have there. A path that is not there is not written, and is not there again when the
document is read, since that is its default; an empty path is written like any other.

* `readSetting_entries`: each setting.
* `readMembers_entries`: the members of a document, with anything behind them.
* `parseDocument_toDocument`: whole documents.
* `proper_of_parseDocument`: the categories of settings that were read.
-/

set_option autoImplicit false

namespace SoundChange.Settings

open Json (Lexeme)

/-! ## Categories that are read -/

section
variable {s s' : Settings} {ls rest : List Lexeme}

theorem proper_of_readSetting {k : Key} (hs : s.categories.Proper)
    (h : readSetting s k ls = .ok (s', rest)) : s'.categories.Proper := by
  unfold readSetting at h
  split at h
  case h_1 =>
    obtain ⟨⟨t, left⟩, hread, h⟩ := bind_eq_ok_iff.mp h
    cases h
    exact CategoryTable.proper_of_read hread
  case h_2 | h_4 =>
    obtain ⟨_, -, h⟩ := bind_eq_ok_iff.mp h
    cases h
    exact hs
  case h_3 | h_5 =>
    split at h
    · cases h
      exact hs
    · cases h

theorem proper_of_readMember {seen seen' : List Key} {name : List Char}
    (hs : s.categories.Proper) (h : readMember s seen name ls = .ok ((s', seen'), rest)) :
    s'.categories.Proper := by
  unfold readMember at h
  split at h
  · split at h
    · cases h
    · obtain ⟨⟨s₁, left⟩, hread, h⟩ := bind_eq_ok_iff.mp h
      cases h
      exact proper_of_readSetting hs hread
  · split at h
    · cases h
      exact hs
    · cases h

theorem proper_of_readMembers {seen : List Key} (hs : s.categories.Proper)
    (h : readMembers s seen ls = .ok (s', rest)) : s'.categories.Proper := by
  fun_induction readMembers s seen ls with
  | case1 s seen name ls s₁ seen₁ left hr ih => exact ih (proper_of_readMember hs hr) h
  | case2 s seen name ls s₁ seen₁ left hr =>
    cases h
    exact proper_of_readMember hs hr
  | case3 | case4 | case5 => cases h

theorem proper_of_readValues {ks : List Key} (hs : s.categories.Proper)
    (h : readValues s ks ls = .ok (s', rest)) : s'.categories.Proper := by
  induction ks generalizing s ls with
  | nil => cases h
  | cons k ks ih =>
    obtain ⟨⟨s₁, left⟩, hread, h⟩ := bind_eq_ok_iff.mp h
    have hs₁ := proper_of_readSetting hs hread
    simp only at h
    split at h
    · exact ih hs₁ h
    · cases h
      exact hs₁
    · cases h

theorem proper_of_read (h : read ls = .ok (s, rest)) : s.categories.Proper := by
  unfold read at h
  split at h
  case h_1 | h_3 =>
    cases h
    exact CategoryTable.proper_empty
  case h_2 => exact proper_of_readMembers CategoryTable.proper_empty h
  case h_4 => exact proper_of_readValues CategoryTable.proper_empty h
  case h_5 => cases h

end

theorem parseDocument_eq_ok_iff {s : Settings} {text : List Char} :
    parseDocument text = .ok s ↔ read (Json.lexemes text) = .ok (s, []) :=
  bind_isEmpty_eq_ok_iff

theorem proper_of_parseDocument {s : Settings} {text : List Char}
    (h : parseDocument text = .ok s) : s.categories.Proper :=
  proper_of_read (parseDocument_eq_ok_iff.mp h)

/-! ## Settings that are written -/

/-- The settings with one of them as in `source`. -/
def copy (source : Settings) (s : Settings) : Key → Settings
  | .categories => { s with categories := source.categories }
  | .categoriesPath => { s with categoriesPath := source.categoriesPath }
  | .rules => { s with rules := source.rules }
  | .rulesPath => { s with rulesPath := source.rulesPath }
  | .trace => { s with trace := source.trace }

/-- The settings that are written, with their values. -/
def entries (s : Settings) : List (Key × Json) :=
  [(.categories, s.categories.toJson)] ++
  (s.categoriesPath.toList.map fun p => (.categoriesPath, pathJson p)) ++
  [(.rules, .str s.rules)] ++
  (s.rulesPath.toList.map fun p => (.rulesPath, pathJson p)) ++
  [(.trace, .bool s.trace)]

/-- Settings under their names. -/
def named (es : List (Key × Json)) : List (List Char × Json) :=
  es.map fun e => (e.1.name, e.2)

theorem toJson_eq (s : Settings) : s.toJson = .obj (named s.entries) := by
  simp only [toJson, entries, named, List.map_append, List.map_map]
  rfl

theorem Key.ofName?_name (k : Key) : Key.ofName? k.name = some k := by
  cases k <;> rfl

variable {s : Settings}

/-- The value that is written for a setting is read for it, whatever comes behind it. -/
theorem readSetting_entries (hs : s.categories.Proper) {e : Key × Json} (he : e ∈ s.entries)
    (s₀ : Settings) (rest : List Lexeme) :
    readSetting s₀ e.1 (e.2.toLexemes ++ rest) = .ok (s.copy s₀ e.1, rest) := by
  simp only [entries, List.mem_append, List.mem_singleton, List.mem_map, Option.mem_toList] at he
  obtain (((rfl | ⟨p, hp, rfl⟩) | rfl) | ⟨p, hp, rfl⟩) | rfl := he
  · simp only [readSetting, CategoryTable.read_toLexemes hs]
    rfl
  · rw [copy, hp]
    rfl
  · rfl
  · rw [copy, hp]
    rfl
  · rfl

theorem readMember_name {k : Key} {seen : List Key} {ls rest : List Lexeme} {s₀ s₁ : Settings}
    (hseen : k ∉ seen) (h : readSetting s₀ k ls = .ok (s₁, rest)) :
    readMember s₀ seen k.name ls = .ok ((s₁, k :: seen), rest) := by
  rw [readMember, Key.ofName?_name]
  simp only [List.contains_iff_mem, hseen, if_false, h]
  rfl

theorem memberLexemes_named_cons (e : Key × Json) (es : List (Key × Json)) (rest : List Lexeme) :
    Json.memberLexemes (named (e :: es)) ++ rest =
      .str (some e.1.name) :: .colon :: (e.2.toLexemes ++
        (Json.moreMemberLexemes (named es) ++ rest)) := by
  simp [named, Json.memberLexemes]

/-- Reading a member for a setting not seen before, and what it leaves to be read. -/
theorem readMembers_named_cons {e : Key × Json} {seen : List Key} {s₀ s₁ : Settings}
    (hseen : e.1 ∉ seen)
    (h : ∀ left, readSetting s₀ e.1 (e.2.toLexemes ++ left) = .ok (s₁, left))
    (es : List (Key × Json)) (rest : List Lexeme) :
    readMembers s₀ seen (Json.memberLexemes (named (e :: es)) ++ .closeObject :: rest) =
      match es with
      | [] => .ok (s₁, rest)
      | e' :: es => readMembers s₁ (e.1 :: seen)
          (Json.memberLexemes (named (e' :: es)) ++ .closeObject :: rest) := by
  have hmember (left : List Lexeme) : readMember s₀ seen e.1.name (e.2.toLexemes ++ left) =
      .ok ((s₁, e.1 :: seen), left) :=
    readMember_name hseen (h left)
  cases es with
  | nil =>
    rw [memberLexemes_named_cons, readMembers, hmember]
    rfl
  | cons e' es =>
    have hmore : Json.moreMemberLexemes (named (e' :: es)) =
        .comma :: Json.memberLexemes (named (e' :: es)) := rfl
    rw [memberLexemes_named_cons, hmore, readMembers, hmember]
    rfl

/-- Members for settings not seen before are read one after the other. -/
theorem readMembers_entries {e : Key × Json} {es : List (Key × Json)}
    (hread : ∀ d ∈ e :: es, ∀ s₀ rest,
      readSetting s₀ d.1 (d.2.toLexemes ++ rest) = .ok (s.copy s₀ d.1, rest))
    (hkeys : ((e :: es).map Prod.fst).Nodup) {seen : List Key}
    (hseen : ∀ d ∈ e :: es, d.1 ∉ seen) (s₀ : Settings) (rest : List Lexeme) :
    readMembers s₀ seen (Json.memberLexemes (named (e :: es)) ++ .closeObject :: rest) =
      .ok ((e :: es).foldl (fun s₀ d => s.copy s₀ d.1) s₀, rest) := by
  induction es generalizing e s₀ seen with
  | nil => exact readMembers_named_cons (hseen e (.head _)) (hread e (.head _) s₀) [] rest
  | cons e' es ih =>
    obtain ⟨hread₀, hread⟩ := List.forall_mem_cons.mp hread
    obtain ⟨hseen₀, hseen⟩ := List.forall_mem_cons.mp hseen
    obtain ⟨hkey, hkeys⟩ := List.nodup_cons.mp hkeys
    -- What was read is among the settings seen, but no later member is for it.
    have hseen' : ∀ d ∈ e' :: es, d.1 ∉ e.1 :: seen := by
      intro d hd hmem
      rcases List.mem_cons.mp hmem with heq | hmem
      · exact hkey (heq ▸ List.mem_map_of_mem hd)
      · exact hseen d hd hmem
    rw [readMembers_named_cons hseen₀ (hread₀ s₀)]
    exact ih hread hkeys hseen' (s.copy s₀ e.1)

theorem foldl_copy_entries (s : Settings) :
    s.entries.foldl (fun s₀ e => s.copy s₀ e.1) {} = s := by
  obtain ⟨categories, categoriesPath, rules, rulesPath, trace⟩ := s
  cases categoriesPath <;> cases rulesPath <;> rfl

theorem nodup_entries (s : Settings) : (s.entries.map Prod.fst).Nodup := by
  obtain ⟨categories, categoriesPath, rules, rulesPath, trace⟩ := s
  cases categoriesPath <;> cases rulesPath <;> simp [entries]

theorem numbers_toJson (s : Settings) : s.toJson.numbers = [] := by
  obtain ⟨categories, categoriesPath, rules, rulesPath, trace⟩ := s
  have hcategories := CategoryTable.numbers_toJson categories
  cases categoriesPath <;> cases rulesPath <;>
    simp [toJson, Json.numbers, Json.memberNumbers, pathJson, hcategories]

/-- The document of settings with proper categories is read, whatever comes behind it. -/
theorem read_toLexemes (hs : s.categories.Proper) (rest : List Lexeme) :
    read (s.toJson.toLexemes ++ rest) = .ok (s, rest) := by
  obtain ⟨e, es, hes⟩ : ∃ e es, s.entries = e :: es := ⟨_, _, rfl⟩
  have hunseen : ∀ d ∈ e :: es, d.1 ∉ ([] : List Key) := fun _ _ => List.not_mem_nil
  have hmembers := readMembers_entries (hes ▸ fun d => readSetting_entries hs)
    (hes ▸ nodup_entries s) hunseen {} rest
  rw [← hes, foldl_copy_entries] at hmembers
  rw [toJson_eq, Json.toLexemes, List.cons_append, List.append_assoc, List.singleton_append]
  exact hmembers

theorem parseDocument_toDocument (hs : s.categories.Proper) :
    parseDocument s.toDocument = .ok s := by
  have hlexemes : Json.lexemes s.toDocument = s.toJson.toLexemes :=
    Json.lexemes_pretty (Json.isNumber_of_numbers_eq_nil (numbers_toJson s))
  rw [parseDocument_eq_ok_iff, hlexemes]
  simpa using read_toLexemes hs []

end SoundChange.Settings
