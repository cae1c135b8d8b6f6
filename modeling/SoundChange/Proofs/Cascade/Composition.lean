import SoundChange.Proofs.Cascade.Run

/-!
# Cascades of joined texts

A text behind another one is the same cascade behind the other one, with lines that count on.

* `run_append_entries`: entries behind other entries take what comes out of those, and their faults
  and steps are on lines further down.
* `run_of_joined_texts`: the same for texts with a line feed between them.
-/

set_option autoImplicit false

namespace SoundChange

/-- The same step on a line `n` further down. -/
def Step.shift (n : Nat) (s : Step) : Step :=
  { s with line := s.line + n }

theorem renumberRun_add (n : Nat) (x : Except CascadeFault (Word × List Step)) :
    renumberRun (· + n) x =
      match x with
      | .ok (output, steps) => .ok (output, steps.map (Step.shift n))
      | .error fault => .error (fault.shift n) := by
  rw [← CascadeFault.renumber_add]
  cases x <;> rfl

namespace Cascade

theorem withRules_eq_ok_iff {c d : Cascade} {text : List Char} :
    c.withRules text = .ok d ↔
      ∃ entries, RuleText.read text = .ok entries ∧ d = { c with entries := some entries } := by
  unfold withRules
  rw [bind_eq_ok_iff]
  exact exists_congr fun entries => and_congr_right fun _ => by rw [pure_eq_ok_iff, eq_comm]

/-- The entries of the second list are numbered on behind those of the first. -/
theorem run_append_entries (table : CategoryTable) (first second : List RuleText.Entry)
    (w : Word) :
    run ⟨table, some (first ++ second)⟩ w =
      match run ⟨table, some first⟩ w with
      | .error fault => .error fault
      | .ok (w', steps) =>
        match run ⟨table, some second⟩ w' with
        | .error fault => .error (fault.shift first.length)
        | .ok (output, steps') => .ok (output, steps ++ steps'.map (Step.shift first.length)) := by
  have hzip : second.zipIdx (1 + first.length) =
      (second.zipIdx 1).map (Prod.map id (· + first.length)) := by
    rw [List.map_snd_add_zipIdx_eq_zipIdx, Nat.add_comm]
  show runEntries table ((first ++ second).zipIdx 1) w =
    match runEntries table (first.zipIdx 1) w with
    | .error fault => .error fault
    | .ok (w', steps) =>
      match runEntries table (second.zipIdx 1) w' with
      | .error fault => .error (fault.shift first.length)
      | .ok (output, steps') => .ok (output, steps ++ steps'.map (Step.shift first.length))
  rw [List.zipIdx_append, runEntries_append, hzip]
  cases runEntries table (first.zipIdx 1) w with
  | error _ => rfl
  | ok run =>
    obtain ⟨w', steps⟩ := run
    show (runEntries table ((second.zipIdx 1).map _) w' >>= _) = _
    rw [runEntries_renumber, renumberRun_add]
    dsimp only
    cases runEntries table (second.zipIdx 1) w' <;> rfl

/-- The text `b` on the lines behind a text `a`: the first line that cannot be read is that of `a`
or, counted from the start of `a`, that of `b`, and if both can be read a word goes through the
rules of `a` and what comes out through those of `b`. -/
theorem run_of_joined_texts (c : Cascade) (a b : List Char) :
    (RuleText.read (a ++ '\n' :: b) =
      match RuleText.read a, RuleText.read b with
      | .error fault, _ => .error fault
      | .ok _, .error fault => .error (fault.shift (1 + a.count '\n'))
      | .ok entries, .ok entries' => .ok (entries ++ entries')) ∧
    ∀ ca cb, c.withRules a = .ok ca → c.withRules b = .ok cb →
      ∃ cab, c.withRules (a ++ '\n' :: b) = .ok cab ∧ ∀ w,
        cab.run w =
          match ca.run w with
          | .error fault => .error fault
          | .ok (w', steps) =>
            match cb.run w' with
            | .error fault => .error (fault.shift (1 + a.count '\n'))
            | .ok (output, steps') =>
              .ok (output, steps ++ steps'.map (Step.shift (1 + a.count '\n'))) := by
  constructor
  · rw [RuleText.read_append]
    cases RuleText.read a with
    | error _ => rfl
    | ok _ => cases RuleText.read b <;> rfl
  · intro ca cb ha hb
    obtain ⟨entries, hra, rfl⟩ := withRules_eq_ok_iff.mp ha
    obtain ⟨entries', hrb, rfl⟩ := withRules_eq_ok_iff.mp hb
    have hrab : RuleText.read (a ++ '\n' :: b) = .ok (entries ++ entries') := by
      rw [RuleText.read_append, hra, hrb]
      rfl
    refine ⟨_, withRules_eq_ok_iff.mpr ⟨_, hrab, rfl⟩, fun w => ?_⟩
    rw [run_append_entries, RuleText.length_of_read_eq_ok hra]

/-- A carriage return at the seam is no part of the change, and a comment behind it counts as a
line. -/
theorem run_of_joined_affix_texts :
    ∃ cab, withRules {} ("#/un#\r".toList ++ '\n' :: "# suffix\n#/#s".toList) = .ok cab ∧
      cab.run "cat".toList = .ok ("uncats".toList,
        [⟨1, "cat".toList, "uncat".toList⟩, ⟨3, "uncat".toList, "uncats".toList⟩]) := by
  obtain ⟨cab, h, hr⟩ :=
    (run_of_joined_texts {} "#/un#\r".toList "# suffix\n#/#s".toList).2 _ _ rfl rfl
  exact ⟨cab, h, (hr _).trans rfl⟩

end Cascade

end SoundChange
