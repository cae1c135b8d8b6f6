import SoundChange.Proofs.CommandLine.Run
import SoundChange.Proofs.Json.Values

/-!
# JSON lines

The JSON that a run writes is one line for each word, whatever characters the words hold, since
every control character is escaped. A line is the text of an object, from which all that was to be
said of the word can be read back.

* `Record`: what an object says of a word, and `Record.ofJson?`, which reads it.
* `Record.ofJson?_toJson`: nothing is lost where it is written.
* `jsonLines_framed`: the lines of a run.
-/

set_option autoImplicit false

namespace SoundChange

/-! ## Reading objects -/

namespace Json

/-- The text that a value is. -/
def asText? : Json → Option (List Char)
  | str text => some text
  | _ => none

/-- The text that a value is, unless it is null. -/
def asTextOrNull? : Json → Option (Option (List Char))
  | null => some none
  | str text => some (some text)
  | _ => none

/-- The natural number that a value is. -/
def asNat? : Json → Option Nat
  | num digits => if digits.all Char.isDigit then some (Nat.ofDigitChars 10 digits 0) else none
  | _ => none

/-- The items that a value has. -/
def asItems? : Json → Option (List Json)
  | arr items => some items
  | _ => none

theorem asNat?_nat (n : Nat) : (nat n).asNat? = some n := by
  have hall : (Nat.toDigits 10 n).all Char.isDigit = true :=
    List.all_eq_true.mpr fun c => isDigit_of_mem_toDigits
  rw [nat, asNat?, if_pos hall, Nat.ofDigitChars_ten_toDigits]

end Json

/-- The step that a value tells of. -/
def Step.ofJson? : Json → Option Step
  | .obj members => do
    let line ← members.lookup "line".toList >>= Json.asNat?
    let before ← members.lookup "before".toList >>= Json.asText?
    let after ← members.lookup "after".toList >>= Json.asText?
    pure ⟨line, before, after⟩
  | _ => none

theorem Step.ofJson?_toJson (step : Step) : Step.ofJson? step.toJson = some step := by
  show ((Json.nat step.line).asNat? >>= fun line => some (Step.mk line step.before step.after)) = _
  rw [Json.asNat?_nat]
  rfl

theorem Step.mapM_ofJson?_toJson (steps : List Step) :
    (steps.map Step.toJson).mapM Step.ofJson? = some steps := by
  induction steps with
  | nil => rfl
  | cons step steps ih => simp [Step.ofJson?_toJson, ih]

/-- What is said of a word. -/
structure Record where
  input : Word
  output : Option Word
  error : Option (List Char)
  steps : List Step
  deriving DecidableEq

/-- What is to be said of a word. -/
def Derivation.record (d : Derivation) : Record :=
  ⟨d.input, d.output?, d.error?.map String.toList, d.steps⟩

/-- What a value says of a word: without a member for a failure there is none, and without one for
steps there are none. -/
def Record.ofJson? : Json → Option Record
  | .obj members => do
    let input ← members.lookup "input".toList >>= Json.asText?
    let output ← members.lookup "output".toList >>= Json.asTextOrNull?
    let error ← (members.lookup "error".toList).mapM Json.asText?
    let items ← (members.lookup "trace".toList).mapM Json.asItems?
    let steps ← (items.getD []).mapM Step.ofJson?
    pure ⟨input, output, error, steps⟩
  | _ => none

/-- The names of the members for a word: its failure is there if there is one, and so are the
steps. -/
def Derivation.memberNames (d : Derivation) : List (List Char) :=
  ["input".toList, "output".toList] ++ (if d.isOk then [] else ["error".toList]) ++
    if d.steps = [] then [] else ["trace".toList]

theorem Record.ofJson?_toJson (d : Derivation) : Record.ofJson? d.toJson = some d.record := by
  obtain ⟨input, outcome, steps⟩ := d
  have hsteps := Step.mapM_ofJson?_toJson steps
  cases steps with
  | nil => cases outcome <;> rfl
  | cons step steps =>
    cases outcome with
    | ok output =>
      show (((step :: steps).map Step.toJson).mapM Step.ofJson? >>= fun steps =>
        some (Record.mk input (some output) none steps)) = _
      rw [hsteps]
      rfl
    | error fault =>
      show (((step :: steps).map Step.toJson).mapM Step.ofJson? >>= fun steps =>
        some (Record.mk input none (some fault.message.toList) steps)) = _
      rw [hsteps]
      rfl

/-- The members for a word have the names that they should have. -/
theorem Derivation.toJson_eq_obj (d : Derivation) :
    ∃ members, d.toJson = .obj members ∧ members.map Prod.fst = d.memberNames := by
  obtain ⟨input, outcome, steps⟩ := d
  refine ⟨_, rfl, ?_⟩
  cases outcome <;> cases steps <;> rfl

/-! ## Lines -/

theorem Step.itemNumbers_map_toJson (steps : List Step) :
    Json.itemNumbers (steps.map Step.toJson) =
      steps.map fun step => Nat.toDigits 10 step.line := by
  induction steps with
  | nil => rfl
  | cons step steps ih =>
    rw [List.map_cons, Json.itemNumbers, ih]
    rfl

/-- The only numbers that are written for a word are those of the lines in its steps. -/
theorem Derivation.numbers_toJson (d : Derivation) :
    Json.numbers d.toJson = d.steps.map fun step => Nat.toDigits 10 step.line := by
  obtain ⟨input, outcome, steps⟩ := d
  have hsteps := Step.itemNumbers_map_toJson steps
  cases steps with
  | nil => cases outcome <;> rfl
  | cons step steps =>
    cases outcome
    all_goals exact (List.append_nil _).trans hsteps

/-- A line is the text of an object with the members that there should be for a word, and all that
is to be said of the word can be read from it. -/
def Derivation.ToldBy (d : Derivation) (line : List Char) : Prop :=
  ∃ members, Json.parse? line = some (.obj members) ∧ members.map Prod.fst = d.memberNames ∧
    Record.ofJson? (.obj members) = some d.record

theorem Derivation.toldBy_compact (d : Derivation) : d.ToldBy d.toJson.compact := by
  obtain ⟨members, hobj, hnames⟩ := d.toJson_eq_obj
  have hnumbers : ∀ digits ∈ Json.numbers d.toJson, Json.IsNumber digits := by
    rw [d.numbers_toJson]
    exact List.forall_mem_map.mpr fun step _ => Json.isNumber_toDigits step.line
  have hrecord := Record.ofJson?_toJson d
  have hparse := Json.parse?_compact hnumbers
  rw [hobj] at hrecord hparse ⊢
  exact ⟨members, hparse, hnames, hrecord⟩

theorem Derivation.printable_compact (d : Derivation) : Json.Printable d.toJson.compact := by
  refine Json.printable_compact _ ?_
  rw [d.numbers_toJson]
  exact List.forall_mem_map.mpr fun step _ => Json.printable_toDigits step.line

/-- Lines that are each ended by a line feed are what the text splits into, with nothing behind the
last one. -/
theorem splitOn_newline_flatMap {lines : List (List Char)} (h : ∀ line ∈ lines, '\n' ∉ line) :
    (lines.flatMap fun line => line ++ ['\n']).splitOn '\n' = lines ++ [[]] := by
  induction lines with
  | nil => rfl
  | cons line lines ih =>
    obtain ⟨hline, hlines⟩ := List.forall_mem_cons.mp h
    rw [List.flatMap_cons, List.append_assoc, List.singleton_append,
      List.splitOn_append_cons_self, List.splitOn_eq_singleton hline, ih hlines]
    rfl

namespace CommandLine

/-- With JSON, the output of a run is one line for each word, in their order, and each line tells
what became of its word, whatever characters there are in it. -/
theorem jsonLines_framed {o : Options} {s : Surroundings} {settings : Settings}
    {cascade : Cascade} {words : List Word} (hjson : o.json = true)
    (h : Ready o s settings cascade words) :
    ∃ lines : List (List Char), (run o s).output.splitOn '\n' = lines ++ [[]] ∧
      lines.length = words.length ∧
      List.Forall₂ Derivation.ToldBy (cascade.deriveEach (o.trace || settings.trace) words)
        lines := by
  rw [run_of_ready h]
  generalize hds : cascade.deriveEach (o.trace || settings.trace) words = ds
  have hlength : ds.length = words.length := by rw [← hds, Cascade.deriveEach, List.length_map]
  have hrender : render o ds =
      (ds.map fun d => d.toJson.compact).flatMap fun line => line ++ ['\n'] := by
    simp [render, hjson, Derivation.jsonLine, List.flatMap_map]
  refine ⟨ds.map fun d => d.toJson.compact, ?_, by rw [List.length_map, hlength], ?_⟩
  · rw [hrender]
    exact splitOn_newline_flatMap
      (List.forall_mem_map.mpr fun d _ => d.printable_compact.newline_not_mem)
  · exact List.forall₂_map_right_iff.mpr (List.forall₂_same.mpr fun d _ => d.toldBy_compact)

/-- Words that hold a line feed, a quotation mark, a backslash and a control character. -/
def hostileWords : Options where
  config := some ⟨"c".toList⟩
  json := true
  words := ["o\n\"".toList, "a\\\x01".toList]

/-- The line feed in the first word does not end its line, and that the second one fails can be read
from its own line. -/
theorem jsonLines_hostileWords :
    hostileWords.json = true ∧
    Ready hostileWords (surroundingsOf affixSettings) affixSettings Cascade.unknownVowel
      hostileWords.words ∧
    ∃ first second : List Char,
      (run hostileWords (surroundingsOf affixSettings)).output.splitOn '\n' =
        [first, second, []] ∧
      (Json.parse? first >>= Record.ofJson?) = some ⟨"o\n\"".toList, some "uno\n\"".toList, none,
        [⟨1, "o\n\"".toList, "uno\n\"".toList⟩]⟩ ∧
      (Json.parse? second >>= Record.ofJson?) = some ⟨"a\\\x01".toList, none,
        some "Unknown category 'V' on line 2".toList, []⟩ := by
  have hready : Ready hostileWords (surroundingsOf affixSettings) affixSettings
      Cascade.unknownVowel hostileWords.words :=
    .intro (loadFrom_diskOf _ CategoryTable.proper_empty) rfl rfl withRules_affix
      (.given (by decide))
  obtain ⟨lines, hsplit, -, htold⟩ := jsonLines_framed rfl hready
  obtain ⟨first, _, ⟨_, hfirst, -, hfirstRecord⟩, hrest, rfl⟩ :=
    List.forall₂_cons_left_iff.mp htold
  obtain ⟨second, _, ⟨_, hsecond, -, hsecondRecord⟩, hnil, rfl⟩ :=
    List.forall₂_cons_left_iff.mp hrest
  obtain rfl := List.forall₂_nil_left_iff.mp hnil
  refine ⟨rfl, hready, first, second, hsplit, ?_, ?_⟩
  · rw [hfirst]
    exact hfirstRecord
  · rw [hsecond]
    exact hsecondRecord

end CommandLine

end SoundChange
