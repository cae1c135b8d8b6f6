import SoundChange.Proofs.CommandLine.Run

/-!
# Categories and rules in files

Where settings name a file for their categories and one for their rules, the rules of the file are
used, and of two categories of one letter that of the file. So whatever settings have can be moved
into files, and no run shows it, neither in what it writes nor in what it warns a log of.

* `Settings.filed`: settings that name two files.
* `rulesToUse_filed`, `tableToUse_filed`: what they give.
* `run_eq_of_filed`: runs with and without the files.
* `run_filed`: both.
-/

set_option autoImplicit false

namespace SoundChange

variable {disk : Disk} {base : Option Path} {p q : Path}

/-! ## What the files give -/

/-- The file at a path, seen from a base directory, holds a text. -/
def Disk.Holds (disk : Disk) (base : Option Path) (p : Path) (text : List Char) : Prop :=
  disk (p.from? base) = .ok (Bytes.encode text)

theorem CategoryTable.load_of_holds {t : CategoryTable} (ht : t.Proper)
    (h : disk.Holds base p t.toDocument) : load disk (p.from? base) = .ok t := by
  have hread : disk (p.from? base) = .ok (Bytes.encode t.toDocument) := h
  rw [load, hread]
  show ofDocument (Bytes.markedText (Bytes.encode t.toDocument)) = .ok t
  rw [Bytes.markedText_encode, ofDocument_toDocument_of_proper ht]

namespace Settings

variable {s : Settings} {rules text : List Char} {t : CategoryTable}

/-- The settings with rules that are written out, and with a file for their categories and one for
their rules. -/
def filed (s : Settings) (rules : List Char) (p q : Path) : Settings :=
  { s with rules, categoriesPath := some p, rulesPath := some q }

theorem rulesToUse_filed (h : disk.Holds base q text) :
    (s.filed rules p q).rulesToUse disk base = .ok text := by
  have htext : disk.readText (q.from? base) = .ok text :=
    readText_eq_ok_iff.mpr ⟨_, h, Bytes.text?_encode _⟩
  show (disk.readText (q.from? base)).mapError _ = _
  rw [htext]
  rfl

theorem tableToUse_filed (ht : t.Proper) (h : disk.Holds base p t.toDocument) :
    (s.filed rules p q).tableToUse disk base = .ok (s.categories.merge t) := by
  show ((CategoryTable.load disk (p.from? base)).mapError _ >>= _) = _
  rw [CategoryTable.load_of_holds ht h]
  rfl

/-- A file that tells of letters that are not uppercase gives no categories. -/
theorem tableToUse_filed_of_badLetters (s : Settings) (rules : List Char) (q : Path) {letter : Char}
    {others : List Char} (ht : t.badLetters = letter :: others)
    (h : disk.Holds base p t.toDocument) :
    (s.filed rules p q).tableToUse disk base = .error (.noCategories (p.from? base)
      (.malformed (.badNames [letter] (others.map fun other => [other])))) := by
  have hload : CategoryTable.load disk (p.from? base) =
      .error (.malformed (.badNames [letter] (others.map fun other => [other]))) := by
    rw [CategoryTable.load, show disk (p.from? base) = _ from h]
    show CategoryTable.ofDocument (Bytes.markedText (Bytes.encode t.toDocument)) = _
    rw [Bytes.markedText_encode, CategoryTable.ofDocument_toDocument_of_badLetters ht]
  show ((CategoryTable.load disk (p.from? base)).mapError _ >>= _) = _
  rw [hload]
  rfl

theorem rulesToUse_of_no_path (h : s.rulesPath = none) : s.rulesToUse disk base = .ok s.rules := by
  rw [rulesToUse, h]
  rfl

theorem tableToUse_of_no_path (h : s.categoriesPath = none) :
    s.tableToUse disk base = .ok s.categories := by
  rw [tableToUse, h]
  rfl

end Settings

/-- In a merged table the second table decides about its own letters. -/
theorem CategoryTable.get?_merge_eq_ite (t u : CategoryTable) (letter : Char) :
    (t.merge u).get? letter = if u.contains letter then u.get? letter else t.get? letter := by
  rw [get?_merge, contains]
  cases u.get? letter <;> rfl

/-! ## Runs -/

namespace CommandLine

variable {o o' : Options} {s s' : Surroundings}

/-- Two runs are asked for the same: they may find their settings in different files, and other
things on their disks. -/
structure Alike (o : Options) (s : Surroundings) (o' : Options) (s' : Surroundings) : Prop where
  trace : o'.trace = o.trace
  json : o'.json = o.json
  words : o'.words = o.words
  input : s'.input = s.input

theorem Alike.wordsFor_eq (h : Alike o s o' s') : o'.wordsFor s' = o.wordsFor s := by
  rw [Options.wordsFor, Options.wordsFor, h.words, h.input]

/-- Runs that use the same rules and the same categories are the same. -/
theorem Alike.run_eq_of_same_cascade {settings settings' : Settings} {rules : List Char}
    {table : CategoryTable} (h : Alike o s o' s')
    (hsettings : Settings.loadFrom s.disk (o.settingsFile s) = .ok settings)
    (hsettings' : Settings.loadFrom s'.disk (o'.settingsFile s') = .ok settings')
    (htrace : settings'.trace = settings.trace)
    (hrules : settings.rulesToUse s.disk (o.base s) = .ok rules)
    (hrules' : settings'.rulesToUse s'.disk (o'.base s') = .ok rules)
    (htable : settings.tableToUse s.disk (o.base s) = .ok table)
    (htable' : settings'.tableToUse s'.disk (o'.base s') = .ok table) :
    run o' s' = run o s := by
  refine run_congr h.json ?_ fun failure hfails => ?_
  · rw [derivations_eq hsettings, derivations_eq hsettings', prepare_eq hrules htable,
      prepare_eq hrules' htable', h.wordsFor_eq, h.trace, htrace]
  · -- The documents are read, so that no message is about one of them.
    cases hfails with
    | settings hload => cases hsettings.symm.trans hload
    | rules hload hmissing =>
      cases hsettings.symm.trans hload
      cases hrules.symm.trans hmissing
    | table hload _ hmissing =>
      cases hsettings.symm.trans hload
      cases htable.symm.trans hmissing
    | cascade => rfl
    | input => rfl

theorem run_eq_of_filed {c : Settings} {rules : List Char}
    (hcategories : c.categoriesPath = none) (hrules : c.rulesPath = none) (h : Alike o s o' s')
    (hload : Settings.loadFrom s.disk (o.settingsFile s) = .ok c)
    (hfiled : Settings.loadFrom s'.disk (o'.settingsFile s') =
      .ok ({ c with categories := .empty }.filed rules p q))
    (htable : s'.disk.Holds (o'.base s') p c.categories.toDocument)
    (htext : s'.disk.Holds (o'.base s') q c.rules) : run o' s' = run o s := by
  have hproper := Settings.proper_of_loadFrom hload
  have htable' : ({ c with categories := .empty }.filed rules p q).tableToUse s'.disk (o'.base s') =
      .ok (CategoryTable.empty.merge c.categories) := Settings.tableToUse_filed hproper htable
  rw [CategoryTable.empty_merge] at htable'
  exact h.run_eq_of_same_cascade hload hfiled rfl (Settings.rulesToUse_of_no_path hrules)
    (Settings.rulesToUse_filed htext) (Settings.tableToUse_of_no_path hcategories) htable'

/-- Settings without files are given two. Then the rules are those of the one, and the categories
are those of the other and, for letters that it does not have, their own. If all their categories
and all their rules are moved into the files, no run shows it, neither in what it writes nor in what
it warns a log of, be the rules ones that can be read or not. -/
theorem run_filed {c : Settings} (hcategories : c.categoriesPath = none)
    (hrules : c.rulesPath = none) (rules : List Char) (p q : Path) :
    (∀ disk base (table : CategoryTable) text, table.Proper →
      disk.Holds base p table.toDocument → disk.Holds base q text →
      (c.filed rules p q).rulesToUse disk base = .ok text ∧
      ∃ used, (c.filed rules p q).tableToUse disk base = .ok used ∧
        (∀ letter, used.get? letter =
          if table.contains letter then table.get? letter else c.categories.get? letter) ∧
        ∀ letter, letter ∈ used.letters ↔ letter ∈ table.letters ∨ letter ∈ c.categories.letters) ∧
    ∀ o s o' s', Alike o s o' s' →
      Settings.loadFrom s.disk (o.settingsFile s) = .ok c →
      Settings.loadFrom s'.disk (o'.settingsFile s') =
        .ok ({ c with categories := .empty }.filed rules p q) →
      s'.disk.Holds (o'.base s') p c.categories.toDocument →
      s'.disk.Holds (o'.base s') q c.rules → run o' s' = run o s := by
  refine ⟨fun disk base table text hproper htable htext => ?_, fun o s o' s' halike hload hfiled =>
    run_eq_of_filed hcategories hrules halike hload hfiled⟩
  refine ⟨Settings.rulesToUse_filed htext, _, Settings.tableToUse_filed hproper htable,
    c.categories.get?_merge_eq_ite table, fun letter => ?_⟩
  simp only [CategoryTable.mem_letters_iff, CategoryTable.contains_merge, Bool.or_eq_true]

/-! ## Settings with two files -/

/-- Settings with a category. -/
def vowels : Settings where
  categories := .ofList [('V', ["a".toList])]

/-- A table with a letter that is not uppercase. -/
def lowercase : CategoryTable :=
  .ofList [('a', ["x".toList])]

/-- A disk with that table and a rule in two files. -/
def diskOfLowercase : Disk := fun r =>
  if r = ⟨"./f.json".toList⟩ then .ok (Bytes.encode lowercase.toDocument)
  else if r = ⟨"./r.txt".toList⟩ then .ok (Bytes.encode "x/y".toList)
  else .error .notFound

/-- A table with a letter that is not uppercase is no table to use from a file, even if its document
is there. -/
theorem tableToUse_lowercase :
    vowels.categoriesPath = none ∧ vowels.rulesPath = none ∧ vowels.categories.Proper ∧
    diskOfLowercase.Holds (some ⟨".".toList⟩) ⟨"f.json".toList⟩ lowercase.toDocument ∧
    diskOfLowercase.Holds (some ⟨".".toList⟩) ⟨"r.txt".toList⟩ "x/y".toList ∧
    ¬ ∃ used, (vowels.filed [] ⟨"f.json".toList⟩ ⟨"r.txt".toList⟩).tableToUse diskOfLowercase
      (some ⟨".".toList⟩) = .ok used := by
  have hholds : diskOfLowercase.Holds (some ⟨".".toList⟩) ⟨"f.json".toList⟩
      lowercase.toDocument := rfl
  refine ⟨rfl, rfl, by decide, hholds, rfl, ?_⟩
  rintro ⟨used, hused⟩
  have hbad : lowercase.badLetters = ['a'] := by decide
  cases hused.symm.trans
    (vowels.tableToUse_filed_of_badLetters [] ⟨"r.txt".toList⟩ hbad hholds)

/-- Settings with a category and with rules. -/
def written (rules : List Char) : Settings where
  categories := .ofList [('K', ["k".toList])]
  rules := rules

theorem proper_written (rules : List Char) : (written rules).categories.Proper := by
  show (CategoryTable.ofList [('K', ["k".toList])]).Proper
  decide

/-- The rule `a,e/o/_K` and that category. -/
def raisesBeforeVelar : Cascade where
  table := .ofList [('K', ["k".toList])]
  entries := some [.rule ⟨[.literal 'a', .comma, .literal 'e'], [.literal 'o'],
    some [.locus, .category 'K'], none, none⟩]

theorem run_raises : run twoWords (surroundingsOf (written "a,e/o/_K".toList)) =
    ⟨0, "o -> o\nak -> ok\n".toList, [], []⟩ := by
  have hcascade : Cascade.withRules { table := (written "a,e/o/_K".toList).categories }
      "a,e/o/_K".toList = .ok raisesBeforeVelar := rfl
  have hready : Ready twoWords (surroundingsOf (written "a,e/o/_K".toList))
      (written "a,e/o/_K".toList) raisesBeforeVelar twoWords.words :=
    .intro (loadFrom_diskOf _ (proper_written _)) (Settings.rulesToUse_of_no_path rfl)
      (Settings.tableToUse_of_no_path rfl) hcascade (.given (by decide))
  rw [run_of_ready hready]
  decide +kernel

theorem run_unreadable : run twoWords (surroundingsOf (written "a/e|o".toList)) =
    ⟨1, [], [], "invalid rule: Pipe outside environment or exception on line 1\n".toList⟩ := by
  have hcascade : Cascade.withRules { table := (written "a/e|o".toList).categories }
      "a/e|o".toList = .error (.unreadable 1 .barOutsideCondition) := rfl
  have hfails : FailsFirst twoWords (surroundingsOf (written "a/e|o".toList))
      (.invalidRule (.unreadable 1 .barOutsideCondition)) :=
    .cascade (loadFrom_diskOf _ (proper_written _)) (Settings.rulesToUse_of_no_path rfl)
      (Settings.tableToUse_of_no_path rfl) hcascade
  rw [run_of_failsFirst hfails]
  decide +kernel

/-- A disk with what settings have in two files, one of them at an absolute path, and settings that
name the two. -/
def diskOfFiled (c : Settings) : Disk := fun r =>
  if r = ⟨"s/c".toList⟩ then
    .ok (Bytes.encode
      ({ c with categories := .empty }.filed [] ⟨"k".toList⟩ ⟨"/r".toList⟩).toDocument)
  else if r = ⟨"s/k".toList⟩ then .ok (Bytes.encode c.categories.toDocument)
  else if r = ⟨"/r".toList⟩ then .ok (Bytes.encode c.rules)
  else .error .notFound

/-- The same two words, with the settings in a directory. -/
def filedWords : Options :=
  { twoWords with config := some ⟨"s/c".toList⟩ }

/-- Surroundings with such a disk. -/
def surroundingsOfFiled (c : Settings) : Surroundings where
  disk := diskOfFiled c
  environment := {}
  input := .empty
  readers _ := silentReader

/-- Settings with a category of the same letter and one of another. -/
def voiced : Settings where
  categories := .ofList [('K', ["g".toList]), ('V', ["a".toList])]

/-- The category in the file is the one that counts, and so are the rules in the other file, whether
they can be read or not. -/
theorem run_filed_written :
    (∃ used, (voiced.filed "g/k".toList ⟨"k".toList⟩ ⟨"/r".toList⟩).tableToUse
        (diskOfFiled (written "a,e/o/_K".toList)) (some ⟨"s".toList⟩) = .ok used ∧
      used.get? 'K' = some ["k".toList] ∧ used.get? 'V' = some ["a".toList] ∧
      used.get? 'N' = none) ∧
    run filedWords (surroundingsOfFiled (written "a,e/o/_K".toList)) =
      ⟨0, "o -> o\nak -> ok\n".toList, [], []⟩ ∧
    run filedWords (surroundingsOfFiled (written "a/e|o".toList)) =
      ⟨1, [], [], "invalid rule: Pipe outside environment or exception on line 1\n".toList⟩ := by
  have hparent : (⟨"s/c".toList⟩ : Path).parent? = some ⟨"s".toList⟩ := by decide
  have hrun : ∀ rules, run filedWords (surroundingsOfFiled (written rules)) =
      run twoWords (surroundingsOf (written rules)) := by
    intro rules
    obtain ⟨-, hsame⟩ := run_filed (c := written rules) rfl rfl [] ⟨"k".toList⟩ ⟨"/r".toList⟩
    have hbase : filedWords.base (surroundingsOfFiled (written rules)) = some ⟨"s".toList⟩ :=
      hparent
    refine hsame twoWords (surroundingsOf (written rules)) filedWords
      (surroundingsOfFiled (written rules)) ⟨rfl, rfl, rfl, rfl⟩ ?_ ?_ ?_ ?_
    · exact loadFrom_diskOf _ (proper_written rules)
    · exact Settings.loadFrom_of_holds CategoryTable.proper_empty rfl
    · rw [hbase]
      rfl
    · rw [hbase]
      rfl
  obtain ⟨hused, -⟩ := run_filed (c := voiced) rfl rfl "g/k".toList ⟨"k".toList⟩ ⟨"/r".toList⟩
  obtain ⟨-, used, htable, hget, -⟩ := hused (diskOfFiled (written "a,e/o/_K".toList))
    (some ⟨"s".toList⟩) _ _ (proper_written "a,e/o/_K".toList) rfl rfl
  refine ⟨⟨used, htable, ?_, ?_, ?_⟩, (hrun _).trans run_raises, (hrun _).trans run_unreadable⟩
  · rw [hget]
    rfl
  · rw [hget]
    rfl
  · rw [hget]
    rfl

end CommandLine

end SoundChange
