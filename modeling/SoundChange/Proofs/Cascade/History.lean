import Mathlib.Data.List.DropRight
import SoundChange.Proofs.Cascade.Composition

/-!
# Cascades and what was done with them

A cascade is begun anew with a table, it is given another table or the rules of a text, and it is
asked what becomes of words. What it answers hangs on two things of all that: the table it was given
last, and the last text since it was begun anew that could be read.

* `Cascade.perform`: one operation with its answer; `Cascade.history`: operations one after the
  other.
* `reflects_perform`, `reflects_performAll`: the two things, kept by an operation and by all.
* `performAll_reflects_history`: what a cascade is after any operations.
-/

set_option autoImplicit false

namespace SoundChange.Cascade

/-! ## Operations -/

/-- What a cascade can be told or asked. -/
inductive Operation where
  /-- To begin anew, with a table and without rules. -/
  | create (table : CategoryTable)
  /-- To use another table. -/
  | configure (table : CategoryTable)
  /-- To use the rules of a text. -/
  | setRules (text : List Char)
  /-- What comes out for a word. -/
  | apply (w : Word)
  /-- The steps of a word. -/
  | steps (w : Word)
  /-- What becomes of the words of a list. -/
  | deriveEach (withSteps : Bool) (ws : List Word)
  /-- How many rules there are. -/
  | ruleCount

/-- What comes back from an operation. -/
inductive Answer where
  | done
  | refused (fault : CascadeFault)
  | word (outcome : Except CascadeFault Word)
  | steps (outcome : Except CascadeFault (List Step))
  | derivations (derivations : List Derivation)
  | count (rules : Nat)

/-- An operation and what came back from it. -/
abbrev Event := Operation × Answer

/-- What a cascade answers to an operation, and the cascade after it. -/
def perform (c : Cascade) : Operation → Answer × Cascade
  | .create table => (.done, { table })
  | .configure table => (.done, c.withTable table)
  | .setRules text =>
    match c.withRules text with
    | .ok d => (.done, d)
    | .error fault => (.refused fault, c)
  | .apply w => (.word (c.apply w), c)
  | .steps w => (.steps (c.steps w), c)
  | .deriveEach withSteps ws => (.derivations (c.deriveEach withSteps ws), c)
  | .ruleCount => (.count c.ruleCount, c)

/-- The cascade after operations one after the other. -/
def performAll (c : Cascade) (ops : List Operation) : Cascade :=
  ops.foldl (fun c op => (c.perform op).2) c

/-- Operations one after the other, each with its answer. -/
def history (c : Cascade) : List Operation → List Event
  | [] => []
  | op :: ops => (op, (c.perform op).1) :: history (c.perform op).2 ops

namespace Operation

/-- Whether the operation begins anew. -/
def isCreate : Operation → Bool
  | create _ => true
  | _ => false

/-- The table that the operation gives. -/
def table? : Operation → Option CategoryTable
  | create table | configure table => some table
  | _ => none

/-- Whether the operation only asks. -/
def asks : Operation → Bool
  | apply _ | steps _ | deriveEach _ _ | ruleCount => true
  | _ => false

end Operation

/-- The text of an operation that gave the rules of a text and was not refused. -/
def Event.text? : Event → Option (List Char)
  | (.setRules text, .done) => some text
  | _ => none

/-! ## What counts of a history -/

/-- The table that was given last; the empty one if none was. -/
def lastTable (events : List Event) : CategoryTable :=
  (events.filterMap fun e => e.1.table?).getLastD .empty

/-- The last text, of those that were not refused since the last beginning. -/
def textInUse (events : List Event) : Option (List Char) :=
  ((events.rtakeWhile fun e => !e.1.isCreate).filterMap Event.text?).getLast?

theorem lastTable_concat (events : List Event) (e : Event) :
    lastTable (events ++ [e]) = e.1.table?.getD (lastTable events) := by
  rw [lastTable, lastTable, List.filterMap_append]
  cases h : e.1.table? <;> simp [h]

theorem textInUse_concat (events : List Event) (e : Event) :
    textInUse (events ++ [e]) =
      if e.1.isCreate then none else e.text?.or (textInUse events) := by
  rw [textInUse, textInUse, List.rtakeWhile_concat]
  cases hc : e.1.isCreate with
  | true => simp
  | false => cases h : e.text? <;> simp [h]

/-! ## What operations keep -/

/-- The cascade has the table that was given last, and the entries of the text in use. -/
structure Reflects (events : List Event) (c : Cascade) : Prop where
  table : c.table = lastTable events
  entries : Option.Rel (fun text entries => RuleText.read text = .ok entries)
    (textInUse events) c.entries

theorem reflects_perform {events : List Event} {c : Cascade} (h : Reflects events c)
    (op : Operation) : Reflects (events ++ [(op, (c.perform op).1)]) (c.perform op).2 := by
  obtain ⟨htable, hentries⟩ := h
  constructor
  · rw [lastTable_concat]
    cases op with
    | create table => rfl
    | configure table => rfl
    | setRules text =>
      rw [perform]
      cases hd : c.withRules text with
      | error fault => exact htable
      | ok d =>
        obtain ⟨entries, -, rfl⟩ := withRules_eq_ok_iff.mp hd
        exact htable
    | _ => exact htable
  · rw [textInUse_concat]
    cases op with
    | create table => exact .none
    | setRules text =>
      rw [perform]
      cases hd : c.withRules text with
      | error fault => exact hentries
      | ok d =>
        obtain ⟨entries, hread, rfl⟩ := withRules_eq_ok_iff.mp hd
        exact .some hread
    | _ => exact hentries

theorem reflects_performAll {events : List Event} {c : Cascade} (h : Reflects events c)
    (ops : List Operation) : Reflects (events ++ history c ops) (c.performAll ops) := by
  induction ops generalizing events c with
  | nil =>
    rw [history, List.append_nil]
    exact h
  | cons op ops ih =>
    rw [history, List.append_cons]
    exact ih (reflects_perform h op)

theorem reflects_nil : Reflects [] {} :=
  ⟨rfl, .none⟩

/-- Questions, and texts that are refused, leave a cascade as it is. -/
theorem perform_of_asks_or_refused {c : Cascade} {op : Operation}
    (h : op.asks = true ∨ ∃ fault, (c.perform op).1 = .refused fault) : (c.perform op).2 = c := by
  cases op with
  | setRules text =>
    obtain h | ⟨fault, h⟩ := h
    · cases h
    rw [perform] at h ⊢
    cases hd : c.withRules text with
    | error _ => rfl
    | ok d =>
      rw [hd] at h
      cases h
  | create table => rcases h with h | ⟨fault, h⟩ <;> cases h
  | configure table => rcases h with h | ⟨fault, h⟩ <;> cases h
  | _ => rfl

section
variable {events : List Event} {c : Cascade}

theorem Reflects.eq_new (h : Reflects events c) :
    c = performAll {} (.create (lastTable events) :: (textInUse events).toList.map .setRules) := by
  obtain ⟨table, entries⟩ := c
  obtain ⟨htable, hentries⟩ := h
  obtain rfl : table = lastTable events := htable
  generalize textInUse events = text? at hentries ⊢
  cases hentries with
  | none => rfl
  | @some text entries hread =>
    show _ = (perform { table := lastTable events } (.setRules text)).2
    rw [perform, withRules_eq_ok_iff.mpr ⟨entries, hread, rfl⟩]

theorem Reflects.entries_eq_none (h : Reflects events c) (hnone : textInUse events = none) :
    c.entries = none := by
  have hentries := h.entries
  rw [hnone] at hentries
  generalize c.entries = entries? at hentries ⊢
  cases hentries
  rfl

theorem ruleCount_of_entries_eq_none (h : c.entries = none) : c.ruleCount = 0 := by
  rw [ruleCount, h]

theorem run_of_entries_eq_none (h : c.entries = none) (w : Word) : c.run w = .error .noRules := by
  rw [run, h]
  rfl

end

/-- After any operations a cascade is what a new one is that was given the last table and, if there
is one, the text in use. What is asked of it and what it refuses do not change it, another table
leaves its rules, and without a text in use it has none. -/
theorem performAll_reflects_history (ops : List Operation) :
    let events := history {} ops
    let c := performAll {} ops
    Reflects events c ∧
      c = performAll {}
        (.create (lastTable events) :: (textInUse events).toList.map .setRules) ∧
      (∀ op : Operation, op.asks = true ∨ (∃ fault, (c.perform op).1 = .refused fault) →
        (c.perform op).2 = c) ∧
      (∀ table, (c.perform (.configure table)).2.entries = c.entries) ∧
      (textInUse events = none → c.ruleCount = 0 ∧
        ∀ w, c.apply w = .error .noRules ∧ c.steps w = .error .noRules) := by
  intro events c
  have h : Reflects events c := reflects_performAll reflects_nil ops
  refine ⟨h, h.eq_new, fun op => perform_of_asks_or_refused, fun table => rfl, fun hnone => ?_⟩
  have hentries := h.entries_eq_none hnone
  refine ⟨ruleCount_of_entries_eq_none hentries, fun w => ?_⟩
  rw [apply, steps, run_of_entries_eq_none hentries]
  exact ⟨rfl, rfl⟩

/-- Rules from before the last beginning and rules that were refused do not count. -/
theorem performAll_refusedRules :
    let begun : List Operation := [.setRules "a/e".toList, .create .empty]
    let ops : List Operation := begun ++ [.setRules "V/o".toList, .apply "a".toList,
      .configure (.ofList [('V', ["a".toList])]), .setRules "a_/b".toList]
    (textInUse (history {} begun) = none ∧ (performAll {} begun).ruleCount = 0) ∧
      ((performAll {} ops).perform (.setRules "a_/b".toList)).1 =
        .refused (.unreadable 1 .locusOutsideCondition) ∧
      ((performAll {} ops).perform (.setRules "a_/b".toList)).2 = performAll {} ops ∧
      (performAll {} ops).entries = (performAll {} [.setRules "V/o".toList]).entries ∧
      (performAll {} ops).apply "a".toList = .ok "o".toList := by
  intro begun ops
  obtain ⟨-, -, -, -, hbegun⟩ := performAll_reflects_history begun
  obtain ⟨-, hfresh, hkept, -, -⟩ := performAll_reflects_history ops
  have hrefused : ((performAll {} ops).perform (.setRules "a_/b".toList)).1 =
      .refused (.unreadable 1 .locusOutsideCondition) := rfl
  refine ⟨⟨rfl, (hbegun rfl).1⟩, hrefused, hkept _ (.inr ⟨_, hrefused⟩), ?_, ?_⟩
  · rw [hfresh]
    rfl
  · rw [hfresh]
    rfl

end SoundChange.Cascade
