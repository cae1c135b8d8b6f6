import Mathlib.Data.List.DropRight
import Mathlib.Data.Nat.Find
import Mathlib.Tactic.MkIffOfInductiveProp
import SoundChange.Proofs.RuleLine.Signs

/-!
# The offences of a rule line

What is wrong with a line, sign by sign. Whether a sign is an offence hangs on the signs before it
only: on how many separators there are (`InCondition`), on the last of them, and on what there is of
the current alternative (`alternativeSoFar`). Members of inline categories are no matter of signs;
they are looked at when no sign is an offence.

* `Offence`: the offences, as a list of cases; `Offends` at a place of a line, `FirstOffence` at the
  leftmost one.
* `BadMember`: the members that are refused; `FirstBadMember` is the leftmost one of a line.
* `Stands`: what a reader knows of the signs that it has read; `scan`: the faults of a reader alone.
* `read_leftmost`: the fault of a line is that of its leftmost offence or, without one, that of its
  leftmost bad member; with neither of them the line is read.
-/

set_option autoImplicit false

namespace SoundChange.RuleLine

/-! ## Signs out of place -/

/-- The third and the fourth field of a line are conditions. -/
def InCondition (before : List Sign) : Prop :=
  before.count (.plain '/') = 2 ∨ before.count (.plain '/') = 3

/-- The signs of the current alternative: those behind the last separator and the last bar. -/
def alternativeSoFar (before : List Sign) : List Sign :=
  before.rtakeWhile fun s => s != .plain '/' && s != .plain '|'

/-- What is wrong with a sign, or with the end of the line, behind the signs `before`. -/
@[mk_iff]
inductive Offence (before : List Sign) : Option Sign → LineFault → Prop where
  | escape : Offence before (some .dangling) .danglingEscape
  | fifthSeparator (h : before.count (.plain '/') = 4) :
      Offence before (some (.plain '/')) .tooManyFields
  | comma (h : InCondition before) : Offence before (some (.plain ',')) .commaInCondition
  | barOutside (h : ¬ InCondition before) :
      Offence before (some (.plain '|')) .barOutsideCondition
  | bar (h : InCondition before)
      (hlast : before.getLast? = some (.plain '/') ∨ before.getLast? = some (.plain '|')) :
      Offence before (some (.plain '|')) .emptyAlternative
  | separatorBehindBar (h : InCondition before) (hlast : before.getLast? = some (.plain '|')) :
      Offence before (some (.plain '/')) .emptyAlternative
  | endBehindBar (h : InCondition before) (hlast : before.getLast? = some (.plain '|')) :
      Offence before none .emptyAlternative
  | locusOutside (h : ¬ InCondition before) :
      Offence before (some (.plain '_')) .locusOutsideCondition
  | secondLocus (h : InCondition before) (hlocus : .plain '_' ∈ alternativeSoFar before) :
      Offence before (some (.plain '_')) .secondLocus

/-- There is an offence at the `i`-th sign of a line; the end of the line is the place behind its
last sign. -/
def Offends (line : List Char) (i : Nat) (fault : LineFault) : Prop :=
  i ≤ (signs line).length ∧ Offence ((signs line).take i) (signs line)[i]? fault

/-- The fault of the leftmost offence of a line. -/
def FirstOffence (line : List Char) (fault : LineFault) : Prop :=
  ∃ i, Offends line i fault ∧ ∀ j < i, ∀ other, ¬ Offends line j other

/-! ## Members that are refused -/

/-- What is wrong with a member of an inline category. -/
@[mk_iff]
inductive BadMember : List Sign → LineFault → Prop where
  | empty : BadMember [] .emptyMember
  | edge {member : List Sign} (h : .plain '#' ∈ member) : BadMember member .memberNotText
  | category {member : List Sign} {letter : Char} (hu : Text.isUppercase letter = true)
      (h : .plain letter ∈ member) : BadMember member .memberNotText

/-- The pieces of a field between its commas. -/
def members (field : List Sign) : List (List Sign) :=
  field.splitOn (.plain ',')

/-- A field with a comma lists the members of an inline category; one of them is refused. -/
def HasBadMember (field : List Sign) : Prop :=
  .plain ',' ∈ field ∧ ∃ member ∈ members field, ∃ fault, BadMember member fault

/-- The fault of the leftmost member of a field that is refused. -/
def FirstBadMemberIn (field : List Sign) (fault : LineFault) : Prop :=
  .plain ',' ∈ field ∧ ∃ earlier member later, members field = earlier ++ member :: later ∧
    (∀ m ∈ earlier, ∀ other, ¬ BadMember m other) ∧ BadMember member fault

/-- The fault of the leftmost member that is refused, in the leftmost field that has one. -/
def FirstBadMember (line : List Char) (fault : LineFault) : Prop :=
  ∃ earlier field later, fields line = earlier ++ field :: later ∧
    (∀ f ∈ earlier, ¬ HasBadMember f) ∧ FirstBadMemberIn field fault

/-! ## A reader without patterns -/

/-- Where a reader that stands at `place` is after one more sign. -/
def step (place : Field × Progress) : Sign → Except LineFault (Field × Progress)
  | .dangling => throw .danglingEscape
  | .escaped _ => pure (place.1, .within place.2.hasLocus)
  | .plain c =>
    if c = '/' then do
      checkEnd place.2
      match place.1.next? with
      | none => throw .tooManyFields
      | some next => pure (next, .start)
    else (fun read => (place.1, read.2)) <$> symbolOf place.1 place.2 c

/-- The faults of a reader, and nothing of what it reads. -/
def scan (place : Field × Progress) : List Sign → Except LineFault Unit
  | [] => checkEnd place.2
  | s :: rest => do
    let next ← step place s
    scan next rest

theorem map_const_map {ε α β γ : Type} (f : α → β) (c : γ) (x : Except ε α) :
    (fun _ => c) <$> f <$> x = (fun _ => c) <$> x := by
  cases x <;> rfl

theorem map_readFrom (field : Field) (progress : Progress) (line : List Char) :
    (fun _ => ()) <$> readFrom field progress line = scan (field, progress) (signs line) := by
  fun_induction readFrom field progress line with
  | case1 field progress => cases h : checkEnd progress <;> simp [signs, scan, h]
  | case2 => rfl
  | case3 field progress c rest ih =>
    rw [map_const_map, ih, signs_escape]
    rfl
  | case4 field progress rest _ _ ih =>
    rw [signs_char (by decide), scan, step, if_pos rfl]
    cases checkEnd progress with
    | error _ => rfl
    | ok _ =>
      cases hn : field.next? with
      | none => rfl
      | some next => exact (map_const_map ..).trans (ih next)
  | case5 field progress c rest h₁ h₂ hs ih =>
    rw [signs_char (ne_escape h₁ h₂), scan, step, if_neg hs]
    cases symbolOf field progress c with
    | error _ => rfl
    | ok t => exact (map_const_map ..).trans (ih t.2)

/-! ## The faults of one step -/

theorem checkEnd_eq_error_iff {progress : Progress} {fault : LineFault} :
    checkEnd progress = .error fault ↔ progress = .afterBar ∧ fault = .emptyAlternative := by
  by_cases h : progress = .afterBar
  · simp [checkEnd, h, eq_comm (b := fault)]
  · simp [checkEnd, h]

theorem symbolOf_eq_error_iff {field : Field} {progress : Progress} {c : Char}
    {fault : LineFault} :
    symbolOf field progress c = .error fault ↔
      field.isCondition = true ∧ c = ',' ∧ fault = .commaInCondition ∨
      field.isCondition = false ∧ c = '|' ∧ fault = .barOutsideCondition ∨
      field.isCondition = true ∧ (progress = .start ∨ progress = .afterBar) ∧
        c = '|' ∧ fault = .emptyAlternative ∨
      field.isCondition = false ∧ c = '_' ∧ fault = .locusOutsideCondition ∨
      field.isCondition = true ∧ progress.hasLocus = true ∧ c = '_' ∧ fault = .secondLocus := by
  unfold symbolOf
  split
  case h_1 => cases field.isCondition <;> simp [eq_comm (b := fault)]
  case h_2 => simp
  case h_3 => cases field.isCondition <;> cases progress <;> simp [eq_comm (b := fault)]
  case h_4 => cases field.isCondition <;> cases progress.hasLocus <;> simp [eq_comm (b := fault)]
  case h_5 => simp_all

/-- A reader that goes on is behind a bar of a condition or within an alternative. -/
theorem progress_of_symbolOf {field : Field} {progress next : Progress} {c : Char} {t : Symbol}
    (h : symbolOf field progress c = .ok (t, next)) :
    c = '|' ∧ field.isCondition = true ∧ next = .afterBar ∨
      c ≠ '|' ∧ next = .within (progress.hasLocus || c == '_') := by
  unfold symbolOf at h
  split at h
  case h_1 =>
    cases hc : field.isCondition <;> simp [hc] at h
    simp [h.2]
  case h_2 =>
    cases h
    simp
  case h_3 =>
    cases hc : field.isCondition <;> cases progress <;> simp [hc] at h
    simp [h.2]
  case h_4 =>
    cases hc : field.isCondition <;> cases hl : progress.hasLocus <;> simp [hc, hl] at h
    simp [h.2]
  case h_5 =>
    cases h
    simp_all

theorem step_separator_eq_error_iff {place : Field × Progress} {fault : LineFault} :
    step place (.plain '/') = .error fault ↔
      place.2 = .afterBar ∧ fault = .emptyAlternative ∨
      place.2 ≠ .afterBar ∧ place.1.next? = none ∧ fault = .tooManyFields := by
  rw [step, if_pos rfl]
  by_cases h : place.2 = .afterBar
  · simp [checkEnd, h, bind_eq_error_iff, eq_comm (b := fault)]
  · cases place.1.next? <;> simp [checkEnd, h, eq_comm (b := fault)]

/-! ## What the reader knows -/

theorem isCondition_iff {n : Nat} {field : Field} (h : Field.all[n]? = some field) :
    field.isCondition = true ↔ n = 2 ∨ n = 3 := by
  obtain ⟨hn, rfl⟩ := List.getElem?_eq_some_iff.mp h
  have hall : ∀ i, (Field.all.get i).isCondition = true ↔ i.1 = 2 ∨ i.1 = 3 := by decide
  exact hall ⟨n, hn⟩

theorem next?_eq_getElem? {n : Nat} {field : Field} (h : Field.all[n]? = some field) :
    field.next? = Field.all[n + 1]? := by
  obtain ⟨hn, rfl⟩ := List.getElem?_eq_some_iff.mp h
  have hall : ∀ i, (Field.all.get i).next? = Field.all[i.1 + 1]? := by decide
  exact hall ⟨n, hn⟩

theorem next?_eq_none_iff {n : Nat} {field : Field} (h : Field.all[n]? = some field) :
    field.next? = none ↔ n = 4 := by
  obtain ⟨hn, rfl⟩ := List.getElem?_eq_some_iff.mp h
  have hall : ∀ i, (Field.all.get i).next? = none ↔ i.1 = 4 := by decide
  exact hall ⟨n, hn⟩

/-- What a reader knows that stands at `place` behind the signs `before`: the field, whether nothing
was read since a separator or a bar, and whether the alternative has its locus. -/
structure Stands (before : List Sign) (place : Field × Progress) : Prop where
  field : Field.all[before.count (.plain '/')]? = some place.1
  start : place.2 = .start ↔ before = [] ∨ before.getLast? = some (.plain '/')
  bar : place.2 = .afterBar ↔ before.getLast? = some (.plain '|')
  barInCondition : place.2 = .afterBar → place.1.isCondition = true
  locus : place.2.hasLocus = true ↔ .plain '_' ∈ alternativeSoFar before

theorem stands_target : Stands [] (.target, .start) where
  field := rfl
  start := by simp
  bar := by simp
  barInCondition := nofun
  locus := by simp [Progress.hasLocus, alternativeSoFar]

namespace Stands

variable {before : List Sign} {place : Field × Progress} (h : Stands before place)
include h

theorem inCondition_iff : InCondition before ↔ place.1.isCondition = true :=
  (isCondition_iff h.field).symm

theorem start_iff_of_isCondition (hc : place.1.isCondition = true) :
    place.2 = .start ↔ before.getLast? = some (.plain '/') := by
  rw [h.start, or_iff_right]
  rintro rfl
  exact absurd (h.inCondition_iff.mpr hc) (by simp [InCondition])

theorem afterBar_iff :
    place.2 = .afterBar ↔ InCondition before ∧ before.getLast? = some (.plain '|') := by
  rw [← h.bar, h.inCondition_iff]
  exact (and_iff_right_of_imp h.barInCondition).symm

/-- There is no bar in the last field. -/
theorem count_eq_four_iff :
    before.count (.plain '/') = 4 ↔ place.2 ≠ .afterBar ∧ place.1.next? = none := by
  rw [next?_eq_none_iff h.field]
  refine (and_iff_right_of_imp fun hfour => ?_).symm
  rw [Ne, h.afterBar_iff]
  simp [InCondition, hfour]

theorem checkEnd_eq_error_iff {fault : LineFault} :
    checkEnd place.2 = .error fault ↔ Offence before none fault := by
  simp [RuleLine.checkEnd_eq_error_iff, offence_iff, h.afterBar_iff, and_assoc]

/-- A sign is an offence if and only if the reader stops at it. -/
theorem step_eq_error_iff {s : Sign} {fault : LineFault} :
    step place s = .error fault ↔ Offence before (some s) fault := by
  cases s with
  | dangling => simp [step, offence_iff, eq_comm (b := fault)]
  | escaped c => simp [step, offence_iff]
  | plain c =>
    by_cases hs : c = '/'
    · subst hs
      simp [step_separator_eq_error_iff, offence_iff, h.count_eq_four_iff, h.afterBar_iff,
        and_assoc, or_comm]
    · rw [step, if_neg hs, map_eq_error_iff, symbolOf_eq_error_iff]
      have hstart := h.start_iff_of_isCondition
      cases hc : place.1.isCondition with
      | false => simp [offence_iff, h.inCondition_iff, hc, hs]
      | true => simp [offence_iff, h.inCondition_iff, hc, hs, hstart hc, h.bar, h.locus]

theorem exists_step_eq_ok_iff {s : Sign} :
    (∃ next, step place s = .ok next) ↔ ∀ fault, ¬ Offence before (some s) fault := by
  rw [exists_eq_ok_iff]
  exact forall_congr' fun _ => not_congr h.step_eq_error_iff

/-- All signs but separators and bars are part of an alternative. -/
theorem within {s : Sign} (hs : s ≠ .plain '/') (hb : s ≠ .plain '|') {b : Bool}
    (hl : b = true ↔ place.2.hasLocus = true ∨ s = .plain '_') :
    Stands (before ++ [s]) (place.1, .within b) where
  field := by
    rw [List.count_append, List.count_singleton, if_neg (by simpa using hs)]
    exact h.field
  start := by simp [hs]
  bar := by simp [hb]
  barInCondition := nofun
  locus := by
    rw [alternativeSoFar, List.rtakeWhile_concat_pos _ _ _ (by simp [hs, hb]),
      ← alternativeSoFar, List.mem_append, List.mem_singleton, ← h.locus, eq_comm (b := s)]
    exact hl

theorem separator {field : Field} (hn : place.1.next? = some field) :
    Stands (before ++ [.plain '/']) (field, .start) where
  field := by
    rw [List.count_append, List.count_singleton_self, ← next?_eq_getElem? h.field, hn]
  start := by simp
  bar := by simp
  barInCondition := nofun
  locus := by simp [Progress.hasLocus, alternativeSoFar]

theorem behindBar (hc : place.1.isCondition = true) :
    Stands (before ++ [.plain '|']) (place.1, .afterBar) where
  field := by
    rw [List.count_append, List.count_singleton, if_neg (by simp)]
    exact h.field
  start := by simp
  bar := by simp
  barInCondition _ := hc
  locus := by simp [Progress.hasLocus, alternativeSoFar]

/-- What the reader knows is kept up sign by sign. -/
theorem step {s : Sign} {next : Field × Progress} (hs : RuleLine.step place s = .ok next) :
    Stands (before ++ [s]) next := by
  cases s with
  | dangling => simp [RuleLine.step] at hs
  | escaped c =>
    cases hs
    exact h.within (s := .escaped c) nofun nofun (by simp)
  | plain c =>
    by_cases hc : c = '/'
    · subst hc
      rw [RuleLine.step, if_pos rfl] at hs
      obtain ⟨_, -, hs⟩ := bind_eq_ok_iff.mp hs
      cases hn : place.1.next? with
      | none => simp [hn] at hs
      | some field =>
        rw [hn] at hs
        cases hs
        exact h.separator hn
    · rw [RuleLine.step, if_neg hc] at hs
      obtain ⟨⟨t, progress⟩, ht, rfl⟩ := map_eq_ok_iff.mp hs
      rcases progress_of_symbolOf ht with ⟨rfl, hcond, rfl⟩ | ⟨hb, rfl⟩
      · exact h.behindBar hcond
      · exact h.within (by simpa using hc) (by simpa using hb) (by simp)

end Stands

/-! ## The leftmost offence -/

/-- There is an offence at the `i`-th of the signs `rest` that stand behind `before`. -/
def OffendsBehind (before rest : List Sign) (i : Nat) (fault : LineFault) : Prop :=
  i ≤ rest.length ∧ Offence (before ++ rest.take i) rest[i]? fault

theorem offendsBehind_nil {before : List Sign} {i : Nat} {fault : LineFault} :
    OffendsBehind before [] i fault ↔ i = 0 ∧ Offence before none fault := by
  simp [OffendsBehind]

theorem offendsBehind_zero {before rest : List Sign} {s : Sign} {fault : LineFault} :
    OffendsBehind before (s :: rest) 0 fault ↔ Offence before (some s) fault := by
  simp [OffendsBehind]

theorem offendsBehind_succ {before rest : List Sign} {s : Sign} {i : Nat} {fault : LineFault} :
    OffendsBehind before (s :: rest) (i + 1) fault ↔
      OffendsBehind (before ++ [s]) rest i fault := by
  simp [OffendsBehind]

/-- A reader stops at the first sign that is an offence. -/
theorem scan_eq_error_iff {before rest : List Sign} {place : Field × Progress}
    (h : Stands before place) {fault : LineFault} :
    scan place rest = .error fault ↔ ∃ i, OffendsBehind before rest i fault ∧
      ∀ j < i, ∀ other, ¬ OffendsBehind before rest j other := by
  -- On the signs that are left; what the reader knows of those before is kept by `Stands.step`.
  induction rest generalizing before place with
  | nil =>
    rw [scan, h.checkEnd_eq_error_iff]
    constructor
    · exact fun ho => ⟨0, offendsBehind_nil.mpr ⟨rfl, ho⟩, nofun⟩
    · rintro ⟨i, ho, -⟩
      exact (offendsBehind_nil.mp ho).2
  | cons s rest ih =>
    rw [scan, bind_eq_error_iff, h.step_eq_error_iff]
    constructor
    · rintro (ho | ⟨next, hs, hr⟩)
      · exact ⟨0, offendsBehind_zero.mpr ho, nofun⟩
      · obtain ⟨i, ho, hbefore⟩ := (ih (h.step hs)).mp hr
        refine ⟨i + 1, offendsBehind_succ.mpr ho, fun j hj other => ?_⟩
        cases j with
        | zero => exact mt offendsBehind_zero.mp (h.exists_step_eq_ok_iff.mp ⟨next, hs⟩ other)
        | succ j => exact mt offendsBehind_succ.mp (hbefore j (Nat.lt_of_succ_lt_succ hj) other)
    · rintro ⟨_ | i, ho, hbefore⟩
      · exact .inl (offendsBehind_zero.mp ho)
      · obtain ⟨next, hs⟩ := h.exists_step_eq_ok_iff.mpr fun other =>
          mt offendsBehind_zero.mpr (hbefore 0 i.succ_pos other)
        refine .inr ⟨next, hs, (ih (h.step hs)).mpr ⟨i, offendsBehind_succ.mp ho, ?_⟩⟩
        intro j hj other
        exact mt offendsBehind_succ.mpr (hbefore (j + 1) (Nat.succ_lt_succ hj) other)

theorem firstOffence_iff {line : List Char} {fault : LineFault} :
    FirstOffence line fault ↔ readFrom .target .start line = .error fault := by
  have h := map_readFrom .target .start line
  rw [← map_eq_error_iff (f := fun _ => ()), h, scan_eq_error_iff stands_target]
  rfl

theorem exists_firstOffence {line : List Char} (h : ∃ i fault, Offends line i fault) :
    ∃ fault, FirstOffence line fault := by
  classical
  obtain ⟨fault, hfault⟩ := Nat.find_spec h
  exact ⟨fault, Nat.find h, hfault, fun j hj other ho => Nat.find_min h hj ⟨other, ho⟩⟩

theorem forall_not_offends_iff {line : List Char} :
    (∀ i fault, ¬ Offends line i fault) ↔
      ∃ patterns, readFrom .target .start line = .ok patterns := by
  simp only [exists_eq_ok_iff, Ne, ← firstOffence_iff]
  constructor
  · rintro h fault ⟨i, ho, -⟩
    exact h i fault ho
  · intro h i fault ho
    obtain ⟨first, hfirst⟩ := exists_firstOffence ⟨i, fault, ho⟩
    exact h first hfirst

/-! ## The leftmost bad member -/

theorem isLiteral_symbolOfChar {c : Char} :
    (symbolOfChar c).isLiteral = false ↔
      c = ',' ∨ c = '#' ∨ c = '|' ∨ c = '_' ∨ Text.isUppercase c = true := by
  unfold symbolOfChar
  split
  case h_5 => cases hu : Text.isUppercase c <;> simp_all [Symbol.isLiteral]
  all_goals simp [Symbol.isLiteral]

theorem symbol_eq_comma_iff {s : Sign} : s.symbol = .comma ↔ s = .plain ',' := by
  cases s with
  | dangling => simp [Sign.symbol]
  | escaped c => simp [Sign.symbol]
  | plain c =>
    rw [Sign.symbol, Sign.plain.injEq]
    unfold symbolOfChar
    split
    case h_5 => cases hu : Text.isUppercase c <;> simp_all
    all_goals simp

theorem isText_map_symbol {member : List Sign} (hcomma : .plain ',' ∉ member)
    (hbar : .plain '|' ∉ member) (hlocus : .plain '_' ∉ member) :
    Pattern.isText (member.map Sign.symbol) = false ↔
      .plain '#' ∈ member ∨ ∃ letter, Text.isUppercase letter = true ∧ .plain letter ∈ member := by
  simp only [Pattern.isText, List.all_eq_false, List.mem_map, exists_exists_and_eq_and,
    Bool.not_eq_true]
  constructor
  · rintro ⟨s, hs, hl⟩
    cases s with
    | dangling => simp [Sign.symbol, Symbol.isLiteral] at hl
    | escaped c => simp [Sign.symbol, Symbol.isLiteral] at hl
    | plain c =>
      rcases isLiteral_symbolOfChar.mp hl with rfl | rfl | rfl | rfl | hu
      · exact absurd hs hcomma
      · exact .inl hs
      · exact absurd hs hbar
      · exact absurd hs hlocus
      · exact .inr ⟨c, hu, hs⟩
  · rintro (h | ⟨letter, hu, h⟩)
    · exact ⟨.plain '#', h, rfl⟩
    · exact ⟨.plain letter, h, isLiteral_symbolOfChar.mpr (by simp [hu])⟩

theorem badMember_cons_iff {s : Sign} {member : List Sign} {fault : LineFault} :
    BadMember (s :: member) fault ↔ fault = .memberNotText ∧
      (.plain '#' ∈ s :: member ∨
        ∃ letter, Text.isUppercase letter = true ∧ .plain letter ∈ s :: member) := by
  constructor
  · rintro (_ | h | ⟨hu, h⟩)
    · exact ⟨rfl, .inl h⟩
    · exact ⟨rfl, .inr ⟨_, hu, h⟩⟩
  · rintro ⟨rfl, h | ⟨letter, hu, h⟩⟩
    · exact .edge h
    · exact .category hu h

theorem checkMember_eq_error_iff {member : List Sign} (hcomma : .plain ',' ∉ member)
    (hbar : .plain '|' ∉ member) (hlocus : .plain '_' ∉ member) {fault : LineFault} :
    checkMember (member.map Sign.symbol) = .error fault ↔ BadMember member fault := by
  cases member with
  | nil => simp [checkMember, badMember_iff, eq_comm (b := fault)]
  | cons s member =>
    rw [badMember_cons_iff, ← isText_map_symbol hcomma hbar hlocus, checkMember, List.map_cons]
    cases Pattern.isText (s.symbol :: member.map Sign.symbol) <;> simp [eq_comm (b := fault)]

/-- The fault of a pattern that was read for a field, as the signs of the field tell it. -/
theorem checkMembers_eq_error_iff {field : List Sign}
    (h : .plain ',' ∈ field → .plain '|' ∉ field ∧ .plain '_' ∉ field) {fault : LineFault} :
    checkMembers (field.map Sign.symbol) = .error fault ↔ FirstBadMemberIn field fault := by
  have hsplit : (field.map Sign.symbol).splitOn .comma = (members field).map (List.map _) :=
    splitOn_map fun s _ hs => symbol_eq_comma_iff.mp hs
  have hmem : .comma ∈ field.map Sign.symbol ↔ .plain ',' ∈ field := by
    simp [symbol_eq_comma_iff]
  by_cases hcomma : .plain ',' ∈ field
  · obtain ⟨hbar, hlocus⟩ := h hcomma
    have hmembers : ∀ member ∈ members field, ∀ other,
        checkMember (member.map Sign.symbol) = .error other ↔ BadMember member other := by
      intro member hm other
      exact checkMember_eq_error_iff (not_mem_of_mem_splitOn hm)
        (mt (mem_of_mem_splitOn hm) hbar) (mt (mem_of_mem_splitOn hm) hlocus)
    rw [checkMembers, if_pos (List.contains_iff_mem.mpr (hmem.mpr hcomma)), hsplit,
      List.forM_eq_forM, List.forM_map, forM_eq_error_iff hmembers]
    exact (and_iff_right hcomma).symm
  · have hfalse : ¬ (field.map Sign.symbol).contains .comma = true := by
      rw [List.contains_iff_mem, hmem]
      exact hcomma
    rw [checkMembers, if_neg hfalse]
    simp [FirstBadMemberIn, hcomma]

/-- A field with a comma is no condition, and other fields have neither bars nor loci. -/
theorem not_mem_of_accepts {field : Field} {p : Pattern} (h : Progress.start.Accepts field p)
    (hcomma : .comma ∈ p) : .bar ∉ p ∧ .locus ∉ p := by
  cases hf : field.isCondition with
  | true =>
    have hp : p ≠ [] := List.ne_nil_of_mem hcomma
    exact absurd hcomma ((accepts_condition_iff hf (.inr hp)).mp h).1
  | false =>
    have hstart : Progress.start ≠ .afterBar := nofun
    exact (accepts_other_iff hf hstart).mp h

theorem not_mem_of_mem_fields {line : List Char} {p : Pattern} {ps : List Pattern}
    (h : readFrom .target .start line = .ok (p, ps)) {field : List Sign} (hf : field ∈ fields line)
    (hcomma : .plain ',' ∈ field) : .plain '|' ∉ field ∧ .plain '_' ∉ field := by
  have hc := continues_of_readFrom h
  have hall : ∀ q ∈ p :: ps, .comma ∈ q → .bar ∉ q ∧ .locus ∉ q :=
    List.forall_mem_cons.mpr ⟨not_mem_of_accepts hc.accepted,
      (forall_mem_zip_right hc.behind.1).mp fun q hq => not_mem_of_accepts (hc.behind.2 q hq)⟩
  rw [eq_map_symbol_of_readFrom h] at hall
  obtain ⟨hbar, hlocus⟩ := hall _ (List.mem_map_of_mem hf) (List.mem_map_of_mem hcomma)
  exact ⟨fun hb => hbar (List.mem_map_of_mem hb), fun hl => hlocus (List.mem_map_of_mem hl)⟩

theorem exists_first {α : Type} {P : α → Prop} {l : List α} (h : ∃ a ∈ l, P a) :
    ∃ before a after, l = before ++ a :: after ∧ (∀ b ∈ before, ¬ P b) ∧ P a := by
  classical
  obtain ⟨a, ha, hp⟩ := h
  have hsome : (l.find? (P ·)).isSome := List.find?_isSome.mpr ⟨a, ha, decide_eq_true hp⟩
  obtain ⟨b, hb⟩ := Option.isSome_iff_exists.mp hsome
  obtain ⟨hpb, before, after, hl, hbefore⟩ := List.find?_eq_some_iff_append.mp hb
  exact ⟨before, b, after, hl, by simpa using hbefore, of_decide_eq_true hpb⟩

theorem hasBadMember_iff {field : List Sign} :
    HasBadMember field ↔ ∃ fault, FirstBadMemberIn field fault := by
  constructor
  · rintro ⟨hcomma, hbad⟩
    obtain ⟨earlier, member, later, hl, hearlier, fault, hm⟩ := exists_first hbad
    exact ⟨fault, hcomma, earlier, member, later, hl,
      fun m hm other ho => hearlier m hm ⟨other, ho⟩, hm⟩
  · rintro ⟨fault, hcomma, earlier, member, later, hl, -, hm⟩
    exact ⟨hcomma, member, hl ▸ List.mem_append_right earlier (.head later), fault, hm⟩

theorem exists_firstBadMember_iff {line : List Char} :
    (∃ fault, FirstBadMember line fault) ↔ ∃ field ∈ fields line, HasBadMember field := by
  constructor
  · rintro ⟨fault, earlier, field, later, hl, -, hf⟩
    exact ⟨field, hl ▸ List.mem_append_right earlier (.head later), hasBadMember_iff.mpr ⟨_, hf⟩⟩
  · intro h
    obtain ⟨earlier, field, later, hl, hearlier, hf⟩ := exists_first h
    obtain ⟨fault, hfault⟩ := hasBadMember_iff.mp hf
    exact ⟨fault, earlier, field, later, hl, hearlier, hfault⟩

/-- What the members make of a line whose signs are read. -/
theorem read_eq_error_iff_of_readFrom {line : List Char} {p : Pattern} {ps : List Pattern}
    (h : readFrom .target .start line = .ok (p, ps)) {fault : LineFault} :
    read line = .error fault ↔ FirstBadMember line fault := by
  have hfields : ∀ field ∈ fields line, ∀ other,
      checkMembers (field.map Sign.symbol) = .error other ↔ FirstBadMemberIn field other :=
    fun field hf other => checkMembers_eq_error_iff (not_mem_of_mem_fields h hf)
  have hread : read line = (fun _ => p :: ps) <$> forM (p :: ps) checkMembers := by
    rw [read, h]
    rfl
  rw [hread, map_eq_error_iff, eq_map_symbol_of_readFrom h, List.forM_map,
    forM_eq_error_iff hfields]
  simp only [FirstBadMember, hasBadMember_iff, not_exists]

/-- A line that is not read has the fault of its leftmost offence, whatever is behind it, or, if no
sign is an offence, the fault of its leftmost bad member; a line with neither of them is read. -/
theorem read_leftmost (line : List Char) :
    (∀ fault, read line = .error fault ↔
      FirstOffence line fault ∨
        (∀ i other, ¬ Offends line i other) ∧ FirstBadMember line fault) ∧
    ((∃ ps, read line = .ok ps) ↔
      (∀ i fault, ¬ Offends line i fault) ∧ ∀ field ∈ fields line, ¬ HasBadMember field) := by
  cases h : readFrom .target .start line with
  | error first =>
    have hfirst : FirstOffence line first := firstOffence_iff.mpr h
    have hread : read line = .error first := by
      rw [read, h]
      rfl
    obtain ⟨i, ho, -⟩ := id hfirst
    have hnone : ¬ ∀ i other, ¬ Offends line i other := fun hnone => hnone i first ho
    simp only [hread, hnone, firstOffence_iff, h, false_and, or_false]
    simp
  | ok patterns =>
    have hnone : ∀ i other, ¬ Offends line i other := forall_not_offends_iff.mpr ⟨patterns, h⟩
    have hread : ∀ fault, read line = .error fault ↔ FirstBadMember line fault :=
      fun fault => read_eq_error_iff_of_readFrom h
    refine ⟨fun fault => ?_, ?_⟩
    · rw [hread, firstOffence_iff, h]
      simp [hnone]
    · simp only [exists_eq_ok_iff, Ne, hread, ← not_exists, exists_firstBadMember_iff, hnone]
      simp

/-- Of a second locus, a comma in a condition, an empty alternative and an escape at the end the
locus counts, which is the leftmost one; and of three members that are refused the uppercase one,
which is in the target. -/
theorem read_leftmost_of_many :
    FirstOffence "a/b/x_|_y_,|/c!".toList .secondLocus ∧
      FirstBadMember "t,K,/s,,".toList .memberNotText ∧
      ∃ ps, read "t,k/s,!K".toList = .ok ps := by
  refine ⟨?_, ?_, ?_⟩
  · have hoffends : Offends "a/b/x_|_y_,|/c!".toList 9 .secondLocus :=
      ⟨by decide, .secondLocus (.inl (by decide)) (by decide)⟩
    refine (((read_leftmost _).1 .secondLocus).mp rfl).resolve_right fun h => ?_
    exact h.1 9 .secondLocus hoffends
  · have h := ((read_leftmost "t,K,/s,,".toList).1 .memberNotText).mp rfl
    exact (h.resolve_left fun ho => nomatch firstOffence_iff.mp ho).2
  · exact ⟨_, rfl⟩

end SoundChange.RuleLine
