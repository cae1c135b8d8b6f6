import SoundChange.Cascade
import SoundChange.Proofs.RuleText.Numbering

/-!
# Runs through numbered entries

What one entry does to a run, and from it what a run does through two lists of entries in a row or
through entries with other numbers.

* `runEntries_rule_error`, `runEntries_rule_ok`: a rule ends the run with its fault, or takes the
  word on and records its step if the word changed.
* `runEntries_append`: the second part of the entries starts with the word that the first part
  gives, and its steps come behind those of the first part.
* `runEntries_renumber`: the numbers of the lines show in faults and steps only.
-/

set_option autoImplicit false

namespace SoundChange

/-! ## One entry -/

/-- Records that a line made `next` of the word `w`, in front of what the rest of a run gave. -/
def recordStep (line : Nat) (w next : Word) (run : Word × List Step) : Word × List Step :=
  (run.1, if next = w then run.2 else ⟨line, w, next⟩ :: run.2)

section
variable {table : CategoryTable} {r : Rule} {w : Word}

theorem runEntries_rule_error {cause : RuleFault} (h : r.apply table w = .error cause) (line : Nat)
    (entries : List (RuleText.Entry × Nat)) :
    runEntries table ((.rule r, line) :: entries) w = .error (.inapplicable line cause) := by
  rw [runEntries, h]
  rfl

theorem runEntries_rule_ok {next : Word} (h : r.apply table w = .ok next) (line : Nat)
    (entries : List (RuleText.Entry × Nat)) :
    runEntries table ((.rule r, line) :: entries) w =
      recordStep line w next <$> runEntries table entries next := by
  rw [runEntries, h]
  show (runEntries table entries next >>= fun run => pure (recordStep line w next run)) = _
  rw [bind_pure_comp]

end

/-! ## Two lists of entries in a row -/

theorem recordStep_append (line : Nat) (w next w' output : Word) (steps steps' : List Step) :
    recordStep line w next (output, steps ++ steps') =
      (output, (recordStep line w next (w', steps)).2 ++ steps') := by
  by_cases h : next = w
  · simp [recordStep, h]
  · simp [recordStep, h]

theorem runEntries_append (table : CategoryTable) (first second : List (RuleText.Entry × Nat))
    (w : Word) :
    runEntries table (first ++ second) w = (do
      let (w', steps) ← runEntries table first w
      let (output, steps') ← runEntries table second w'
      pure (output, steps ++ steps')) := by
  induction first generalizing w with
  | nil =>
    show runEntries table second w = (runEntries table second w >>= fun run => pure run)
    rw [bind_pure]
  | cons entry first ih =>
    obtain ⟨entry, line⟩ := entry
    cases entry with
    | comment => exact ih w
    | rule r =>
      rw [List.cons_append]
      cases ha : r.apply table w with
      | error cause =>
        rw [runEntries_rule_error ha, runEntries_rule_error ha]
        rfl
      | ok next =>
        rw [runEntries_rule_ok ha, runEntries_rule_ok ha, ih next]
        cases runEntries table first next with
        | error _ => rfl
        | ok run =>
          obtain ⟨w', steps⟩ := run
          show recordStep line w next <$> (runEntries table second w' >>= _) =
            (runEntries table second w' >>= _)
          cases runEntries table second w' with
          | error _ => rfl
          | ok run' => exact congrArg Except.ok (recordStep_append ..)

/-! ## Other numbers -/

/-- The same step with another number for its line. -/
def Step.renumber (g : Nat → Nat) (s : Step) : Step :=
  { s with line := g s.line }

/-- What a run gives, with other numbers for the lines. -/
def renumberRun (g : Nat → Nat) :
    Except CascadeFault (Word × List Step) → Except CascadeFault (Word × List Step)
  | .ok (output, steps) => .ok (output, steps.map (Step.renumber g))
  | .error fault => .error (fault.renumber g)

theorem renumberRun_recordStep (g : Nat → Nat) (line : Nat) (w next : Word)
    (x : Except CascadeFault (Word × List Step)) :
    renumberRun g (recordStep line w next <$> x) =
      recordStep (g line) w next <$> renumberRun g x := by
  cases x with
  | error _ => rfl
  | ok run =>
    refine congrArg Except.ok (Prod.ext rfl ?_)
    by_cases h : next = w
    · simp [recordStep, h]
    · simp [recordStep, h, Step.renumber]

theorem runEntries_renumber (table : CategoryTable) (g : Nat → Nat)
    (entries : List (RuleText.Entry × Nat)) (w : Word) :
    runEntries table (entries.map (Prod.map id g)) w =
      renumberRun g (runEntries table entries w) := by
  induction entries generalizing w with
  | nil => rfl
  | cons entry entries ih =>
    obtain ⟨entry, line⟩ := entry
    cases entry with
    | comment => exact ih w
    | rule r =>
      rw [List.map_cons]
      cases ha : r.apply table w with
      | error cause =>
        rw [runEntries_rule_error ha]
        exact runEntries_rule_error ha (g line) _
      | ok next =>
        rw [runEntries_rule_ok ha, renumberRun_recordStep, ← ih next]
        exact runEntries_rule_ok ha (g line) _

end SoundChange
