import SoundChange.CommandLine.Run
import SoundChange.Proofs.Cascade.Batch
import SoundChange.Proofs.Settings.Saving

/-!
# Runs of the command

A run either fails in the first thing that it cannot do, and then writes the message of that failure
and nothing else, or it gets ready for its words. From then on nothing makes it fail: what becomes
of a word shows in what is written for the word alone, and in the warning that a log is given.

* `FailsFirst`, `Ready`: the two ways that a run can go.
* `failsFirst_or_ready`: there is no third one.
* `Cascade.warning?`: what a log is warned of.
* `run_of_failsFirst`, `run_of_ready`: what is left of the run.
* `run_congr`: two runs with the same left of them.
* `run_all_or_nothing`: all of it, with the plain lines that are written for a word.
-/

set_option autoImplicit false

namespace SoundChange

/-! ## Warnings -/

namespace Cascade

/-- What a log is warned of for a word: why the rules make nothing of it, if they do not. -/
def warning? (c : Cascade) (w : Word) : Option (List Char) :=
  match c.apply w with
  | .ok _ => none
  | .error fault => some ("'".toList ++ w ++ "' 적용 실패: ".toList ++ fault.message.toList)

theorem warning?_derive (c : Cascade) (withSteps : Bool) (w : Word) :
    (c.derive withSteps w).warning? = c.warning? w := by
  rw [warning?, apply, derive]
  cases c.run w <;> rfl

theorem filterMap_warning?_deriveEach (c : Cascade) (withSteps : Bool) (ws : List Word) :
    (c.deriveEach withSteps ws).filterMap Derivation.warning? = ws.filterMap c.warning? := by
  rw [deriveEach, List.filterMap_map]
  exact List.filterMap_congr fun w _ => c.warning?_derive withSteps w

end Cascade

/-! ## The two ways of a run -/

namespace CommandLine

/-- The directory from which the paths in the settings of a run are seen. -/
def Options.base (o : Options) (s : Surroundings) : Option Path :=
  (o.settingsFile s).parent?

/-- The first thing that a run cannot do, everything before it being done. -/
inductive FailsFirst (o : Options) (s : Surroundings) : Failure → Prop where
  /-- The settings cannot be loaded. -/
  | settings {cause : SettingsFault}
      (h : Settings.loadFrom s.disk (o.settingsFile s) = .error cause) :
      FailsFirst o s (.settings cause)
  /-- The text of the rules cannot be had. -/
  | rules {settings : Settings} {cause : SettingsFault}
      (hsettings : Settings.loadFrom s.disk (o.settingsFile s) = .ok settings)
      (h : settings.rulesToUse s.disk (o.base s) = .error cause) :
      FailsFirst o s (.settings cause)
  /-- The categories cannot be had. -/
  | table {settings : Settings} {rules : List Char} {cause : SettingsFault}
      (hsettings : Settings.loadFrom s.disk (o.settingsFile s) = .ok settings)
      (hrules : settings.rulesToUse s.disk (o.base s) = .ok rules)
      (h : settings.tableToUse s.disk (o.base s) = .error cause) :
      FailsFirst o s (.settings cause)
  /-- A rule cannot be read. -/
  | cascade {settings : Settings} {rules : List Char} {table : CategoryTable}
      {cause : CascadeFault}
      (hsettings : Settings.loadFrom s.disk (o.settingsFile s) = .ok settings)
      (hrules : settings.rulesToUse s.disk (o.base s) = .ok rules)
      (htable : settings.tableToUse s.disk (o.base s) = .ok table)
      (h : Cascade.withRules { table } rules = .error cause) :
      FailsFirst o s (.invalidRule cause)
  /-- The words have to be read, and what they would be read from is no text. -/
  | input {settings : Settings} {rules : List Char} {table : CategoryTable} {cascade : Cascade}
      (hsettings : Settings.loadFrom s.disk (o.settingsFile s) = .ok settings)
      (hrules : settings.rulesToUse s.disk (o.base s) = .ok rules)
      (htable : settings.tableToUse s.disk (o.base s) = .ok table)
      (hcascade : Cascade.withRules { table } rules = .ok cascade)
      (hwords : o.words = []) (h : Bytes.text? s.input = none) :
      FailsFirst o s (.noInput .notText)

/-- The words of a run: those that it is given, or those of a text if it is given none. -/
inductive HasWords (o : Options) (s : Surroundings) : List Word → Prop where
  | given (h : o.words ≠ []) : HasWords o s o.words
  | read {text : List Char} (h : o.words = []) (htext : Bytes.text? s.input = some text) :
      HasWords o s (wordsOf text)

/-- Everything that a run needs before it writes is there. -/
inductive Ready (o : Options) (s : Surroundings) : Settings → Cascade → List Word → Prop where
  | intro {settings : Settings} {rules : List Char} {table : CategoryTable} {cascade : Cascade}
      {words : List Word}
      (hsettings : Settings.loadFrom s.disk (o.settingsFile s) = .ok settings)
      (hrules : settings.rulesToUse s.disk (o.base s) = .ok rules)
      (htable : settings.tableToUse s.disk (o.base s) = .ok table)
      (hcascade : Cascade.withRules { table } rules = .ok cascade)
      (hwords : HasWords o s words) : Ready o s settings cascade words

variable {o : Options} {s : Surroundings}

/-- A run that has not failed by then is ready. -/
theorem failsFirst_or_ready (o : Options) (s : Surroundings) :
    (∃ failure, FailsFirst o s failure) ∨
      ∃ settings cascade words, Ready o s settings cascade words := by
  cases hsettings : Settings.loadFrom s.disk (o.settingsFile s) with
  | error cause => exact .inl ⟨_, .settings hsettings⟩
  | ok settings =>
  cases hrules : settings.rulesToUse s.disk (o.base s) with
  | error cause => exact .inl ⟨_, .rules hsettings hrules⟩
  | ok rules =>
  cases htable : settings.tableToUse s.disk (o.base s) with
  | error cause => exact .inl ⟨_, .table hsettings hrules htable⟩
  | ok table =>
  cases hcascade : Cascade.withRules { table } rules with
  | error cause => exact .inl ⟨_, .cascade hsettings hrules htable hcascade⟩
  | ok cascade =>
  by_cases hgiven : o.words = []
  · cases htext : Bytes.text? s.input with
    | none => exact .inl ⟨_, .input hsettings hrules htable hcascade hgiven htext⟩
    | some text =>
      exact .inr ⟨_, _, _, .intro hsettings hrules htable hcascade (.read hgiven htext)⟩
  · exact .inr ⟨_, _, _, .intro hsettings hrules htable hcascade (.given hgiven)⟩

/-! ## What is left of a run -/

section
variable {settings : Settings} {rules : List Char} {table : CategoryTable} {cascade : Cascade}
  {words : List Word}

theorem derivations_eq (hsettings : Settings.loadFrom s.disk (o.settingsFile s) = .ok settings) :
    derivations o s = prepare o s settings >>= fun cascade => o.wordsFor s >>= fun words =>
      pure (cascade.deriveEach (o.trace || settings.trace) words) := by
  rw [derivations, loadSettings, hsettings]
  rfl

theorem prepare_eq (hrules : settings.rulesToUse s.disk (o.base s) = .ok rules)
    (htable : settings.tableToUse s.disk (o.base s) = .ok table) :
    prepare o s settings = (Cascade.withRules { table } rules).mapError .invalidRule := by
  rw [Options.base] at hrules htable
  rw [prepare, hrules, htable]
  rfl

theorem prepare_eq_ok (hrules : settings.rulesToUse s.disk (o.base s) = .ok rules)
    (htable : settings.tableToUse s.disk (o.base s) = .ok table)
    (hcascade : Cascade.withRules { table } rules = .ok cascade) :
    prepare o s settings = .ok cascade := by
  rw [prepare_eq hrules htable, hcascade]
  rfl

theorem HasWords.wordsFor_eq (h : HasWords o s words) : o.wordsFor s = .ok words := by
  unfold Options.wordsFor
  cases h with
  | given hgiven => simp [hgiven]
  | read hgiven htext => simp [hgiven, htext]

/-- Once there is a cascade, only the words can still be missing. -/
theorem derivations_of_prepare
    (hsettings : Settings.loadFrom s.disk (o.settingsFile s) = .ok settings)
    (hcascade : prepare o s settings = .ok cascade) :
    derivations o s = cascade.deriveEach (o.trace || settings.trace) <$> o.wordsFor s := by
  rw [derivations_eq hsettings, hcascade]
  show (o.wordsFor s >>= _) = _
  cases o.wordsFor s <;> rfl

theorem derivations_of_ready (h : Ready o s settings cascade words) :
    derivations o s = .ok (cascade.deriveEach (o.trace || settings.trace) words) := by
  obtain ⟨hsettings, hrules, htable, hcascade, hwords⟩ := h
  rw [derivations_of_prepare hsettings (prepare_eq_ok hrules htable hcascade), hwords.wordsFor_eq]
  rfl

theorem run_of_ready (h : Ready o s settings cascade words) :
    run o s = ⟨0, render o (cascade.deriveEach (o.trace || settings.trace) words),
      words.filterMap cascade.warning?, []⟩ := by
  rw [run, derivations_of_ready h, ← cascade.filterMap_warning?_deriveEach]

end

theorem derivations_of_failsFirst {failure : Failure} (h : FailsFirst o s failure) :
    derivations o s = .error failure := by
  cases h with
  | settings h =>
    rw [derivations, loadSettings, h]
    rfl
  | rules hsettings h =>
    rw [Options.base] at h
    rw [derivations_eq hsettings, prepare, h]
    rfl
  | table hsettings hrules h =>
    rw [Options.base] at hrules h
    rw [derivations_eq hsettings, prepare, hrules, h]
    rfl
  | cascade hsettings hrules htable h =>
    rw [derivations_eq hsettings, prepare_eq hrules htable, h]
    rfl
  | input hsettings hrules htable hcascade hwords h =>
    rw [derivations_of_prepare hsettings (prepare_eq_ok hrules htable hcascade),
      Options.wordsFor, hwords, h]
    rfl

theorem run_of_failsFirst {failure : Failure} (h : FailsFirst o s failure) :
    run o s = ⟨1, [], [], (failure.message s.readers).toList ++ ['\n']⟩ := by
  rw [run, derivations_of_failsFirst h]

theorem failsFirst_iff {failure : Failure} :
    FailsFirst o s failure ↔ derivations o s = .error failure := by
  refine ⟨derivations_of_failsFirst, fun h => ?_⟩
  rcases failsFirst_or_ready o s with ⟨failure', hfails⟩ | ⟨settings, cascade, words, hready⟩
  · cases (derivations_of_failsFirst hfails).symm.trans h
    exact hfails
  · cases (derivations_of_ready hready).symm.trans h

/-- Runs in which the same becomes of each word, or which fail in the same and say the same of it,
are the same. -/
theorem run_congr {o' : Options} {s' : Surroundings} (hjson : o'.json = o.json)
    (hderivations : derivations o' s' = derivations o s)
    (hmessage : ∀ failure, FailsFirst o s failure →
      failure.message s'.readers = failure.message s.readers) : run o' s' = run o s := by
  rw [run, run, hderivations]
  cases h : derivations o s with
  | error failure => simp only [hmessage failure (failsFirst_iff.mpr h)]
  | ok ds => simp only [render, hjson]

end CommandLine

/-! ## Plain lines -/

/-- What is written in plain lines for a word: what the rules make of it with the steps if they are
asked for, or why they make nothing of it. -/
inductive Cascade.Reports (c : Cascade) (withSteps : Bool) (w : Word) : List Char → Prop where
  | output {output : Word} {steps : List Step} (h : c.apply w = .ok output)
      (hsteps : c.steps w = .ok steps) :
      Reports c withSteps w (w ++ " -> ".toList ++ output ++ ['\n'] ++
        if withSteps then steps.flatMap Step.plain else [])
  | failure {fault : CascadeFault} (h : c.apply w = .error fault) :
      Reports c withSteps w (w ++ " -> ERROR: ".toList ++ fault.message.toList ++ ['\n'])

theorem Cascade.reports_iff {c : Cascade} {withSteps : Bool} {w : Word} {report : List Char} :
    c.Reports withSteps w report ↔ report = (c.derive withSteps w).plain := by
  cases hrun : c.run w with
  | ok run =>
    obtain ⟨output, steps⟩ := run
    have happly : c.apply w = .ok output := by rw [apply, hrun]; rfl
    have hsteps : c.steps w = .ok steps := by rw [Cascade.steps, hrun]; rfl
    have hplain : (c.derive withSteps w).plain = w ++ " -> ".toList ++ output ++ ['\n'] ++
        if withSteps then steps.flatMap Step.plain else [] := by
      rw [derive, hrun]
      cases withSteps <;> simp [Derivation.plain, Derivation.plainOutcome]
    rw [hplain]
    constructor
    · intro h
      cases h with
      | output h hs =>
        cases happly.symm.trans h
        cases hsteps.symm.trans hs
        rfl
      | failure h => cases happly.symm.trans h
    · rintro rfl
      exact .output happly hsteps
  | error fault =>
    have happly : c.apply w = .error fault := by rw [apply, hrun]; rfl
    have hplain : (c.derive withSteps w).plain =
        w ++ " -> ERROR: ".toList ++ fault.message.toList ++ ['\n'] := by
      rw [derive, hrun]
      simp [Derivation.plain, Derivation.plainOutcome]
    rw [hplain]
    constructor
    · intro h
      cases h with
      | output h _ => cases happly.symm.trans h
      | failure h =>
        cases happly.symm.trans h
        rfl
    · rintro rfl
      exact .failure happly

namespace CommandLine

/-- Without JSON, what is written are the reports on the words, in their order. -/
theorem exists_reports_render {o : Options} (hjson : o.json = false) (c : Cascade)
    (withSteps : Bool) (ws : List Word) :
    ∃ reports, List.Forall₂ (c.Reports withSteps) ws reports ∧
      render o (c.deriveEach withSteps ws) = reports.flatten := by
  refine ⟨ws.map fun w => (c.derive withSteps w).plain, ?_, ?_⟩
  · exact List.forall₂_map_right_iff.mpr (List.forall₂_same.mpr fun w _ => c.reports_iff.mpr rfl)
  · simp [render, hjson, Cascade.deriveEach, List.flatMap, Function.comp_def]

/-- A run that fails writes the message of its first failure and nothing else. A run that does not
fail by the time it has its words does not fail at all, whatever becomes of them: it warns a log of
those that fail, and unless it is to write JSON it writes what is to be said of each word, in their
order. -/
theorem run_all_or_nothing (o : Options) (s : Surroundings) :
    (∀ failure, FailsFirst o s failure →
      run o s = ⟨1, [], [], (failure.message s.readers).toList ++ ['\n']⟩) ∧
    (∀ settings cascade words, Ready o s settings cascade words →
      (run o s).exitCode = 0 ∧ (run o s).errors = [] ∧
      (run o s).warnings = words.filterMap cascade.warning? ∧
      (o.json = false → ∃ reports,
        List.Forall₂ (cascade.Reports (o.trace || settings.trace)) words reports ∧
        (run o s).output = reports.flatten)) ∧
    ((∃ failure, FailsFirst o s failure) ∨
      ∃ settings cascade words, Ready o s settings cascade words) := by
  refine ⟨fun failure => run_of_failsFirst, fun settings cascade words h => ?_,
    failsFirst_or_ready o s⟩
  rw [run_of_ready h]
  exact ⟨rfl, rfl, rfl, fun hjson => exists_reports_render hjson cascade _ words⟩

/-! ## Two runs -/

/-- A disk with one file, which holds settings. -/
def diskOf (p : Path) (settings : Settings) : Disk := fun q =>
  if q = p then .ok (Bytes.encode settings.toDocument) else .error .notFound

theorem loadFrom_diskOf (p : Path) {settings : Settings} (h : settings.categories.Proper) :
    Settings.loadFrom (diskOf p settings) p = .ok settings :=
  Settings.loadFrom_of_holds h (if_pos rfl)

/-- Settings with rules that refer to a category that is not defined. -/
def affixSettings : Settings where
  rules := "#/un#\na,e/o/_V".toList
  trace := true

theorem withRules_affix : Cascade.withRules {} affixSettings.rules = .ok Cascade.unknownVowel :=
  rfl

/-- Settings that name two files. -/
def filedSettings : Settings where
  categoriesPath := some ⟨"t".toList⟩
  rulesPath := some ⟨"r".toList⟩

/-- Two words, with the settings in a file. -/
def twoWords : Options where
  config := some ⟨"c".toList⟩
  words := ["o".toList, "ak".toList]

/-- A reader that has nothing to say of a document. -/
def silentReader : DocumentReader where
  malformed := ""

/-- Surroundings with settings in that file, and with no other file. -/
def surroundingsOf (settings : Settings) : Surroundings where
  disk := diskOf ⟨"c".toList⟩ settings
  environment := {}
  input := .empty
  readers _ := silentReader

/-- Of two words the second one fails, which is no failure of the run. Where two files are missing,
the run fails with the one that it needs first. -/
theorem run_twoWords :
    (Ready twoWords (surroundingsOf affixSettings) affixSettings Cascade.unknownVowel
        twoWords.words ∧
      (run twoWords (surroundingsOf affixSettings)).exitCode = 0 ∧
      (run twoWords (surroundingsOf affixSettings)).errors = [] ∧
      (run twoWords (surroundingsOf affixSettings)).warnings =
        ["'ak' 적용 실패: Unknown category 'V' on line 2".toList] ∧
      (run twoWords (surroundingsOf affixSettings)).output = ("o -> uno\n" ++
        "    line 1: o -> uno\n" ++ "ak -> ERROR: Unknown category 'V' on line 2\n").toList) ∧
    FailsFirst twoWords (surroundingsOf filedSettings)
        (.settings (.rulesUnreadable ⟨"r".toList⟩ .notFound)) ∧
      run twoWords (surroundingsOf filedSettings) = ⟨1, [], [],
        "failed to read rules file r: No such file or directory (os error 2)\n".toList⟩ := by
  have hready : Ready twoWords (surroundingsOf affixSettings) affixSettings Cascade.unknownVowel
      twoWords.words :=
    .intro (loadFrom_diskOf _ CategoryTable.proper_empty) rfl rfl withRules_affix
      (.given (by decide))
  have hmissing : FailsFirst twoWords (surroundingsOf filedSettings)
      (.settings (.rulesUnreadable ⟨"r".toList⟩ .notFound)) :=
    .rules (loadFrom_diskOf _ CategoryTable.proper_empty) rfl
  obtain ⟨-, hruns, -⟩ := run_all_or_nothing twoWords (surroundingsOf affixSettings)
  obtain ⟨hfails, -, -⟩ := run_all_or_nothing twoWords (surroundingsOf filedSettings)
  obtain ⟨hcode, herrors, hwarnings, hplain⟩ := hruns _ _ _ hready
  refine ⟨⟨hready, hcode, herrors, hwarnings.trans (by decide +kernel), ?_⟩, hmissing,
    (hfails _ hmissing).trans (by decide +kernel)⟩
  obtain ⟨reports, hreports, houtput⟩ := hplain rfl
  obtain ⟨_, _, hfirst, hrest, rfl⟩ := List.forall₂_cons_left_iff.mp hreports
  obtain ⟨_, _, hsecond, hnil, rfl⟩ := List.forall₂_cons_left_iff.mp hrest
  obtain rfl := List.forall₂_nil_left_iff.mp hnil
  rw [houtput, Cascade.reports_iff.mp hfirst, Cascade.reports_iff.mp hsecond]
  decide +kernel

end CommandLine

end SoundChange
