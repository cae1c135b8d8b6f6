import SoundChange.Proofs.Cascade.Run

/-!
# Steps as a derivation

The steps of a run tell how its output comes from the word it started with, and leave out nothing
that a rule did. `IsDerivation` says so without the run.

* `isDerivation_rule`: what one rule adds to a derivation by the entries behind it.
* `isDerivation_of_runEntries`: the run through numbered entries.
* `steps_isDerivation`: the steps of a cascade.
-/

set_option autoImplicit false

namespace SoundChange

/-- The word in front of a line: what the last step on a line before it has made of `w`. -/
def wordAt (w : Word) (steps : List Step) (line : Nat) : Word :=
  ((steps.filter (·.line < line)).map Step.after).getLastD w

/-- The steps lead from `w` to `output` by rules among the numbered entries, and the other rules
among them change nothing. -/
structure IsDerivation (table : CategoryTable) (entries : List (RuleText.Entry × Nat)) (w : Word)
    (steps : List Step) (output : Word) : Prop where
  ascending : steps.Pairwise fun s t => s.line < t.line
  changed : ∀ s ∈ steps, s.before ≠ s.after
  applied : ∀ s ∈ steps, ∃ r, (.rule r, s.line) ∈ entries ∧ r.apply table s.before = .ok s.after
  /-- The first step starts with `w`, each other one with what the step before it gives, and
  `output` is what the last one gives, or `w` if there is none. -/
  linked : steps.map Step.before ++ [output] = w :: steps.map Step.after
  idle : ∀ r line, (.rule r, line) ∈ entries → line ∉ steps.map Step.line →
    r.apply table (wordAt w steps line) = .ok (wordAt w steps line)

/-! ## The word in front of a line -/

theorem wordAt_of_le {steps : List Step} {line : Nat} (h : ∀ s ∈ steps, line ≤ s.line) (w : Word) :
    wordAt w steps line = w := by
  have hnil : steps.filter (·.line < line) = [] := by
    simpa [List.filter_eq_nil_iff] using h
  rw [wordAt, hnil]
  rfl

theorem wordAt_cons {s : Step} {line : Nat} (h : s.line < line) (w : Word) (steps : List Step) :
    wordAt w (s :: steps) line = wordAt s.after steps line := by
  rw [wordAt, List.filter_cons_of_pos (by simpa using h), List.map_cons, List.getLastD_cons]
  rfl

/-! ## One entry -/

section
variable {table : CategoryTable} {entries : List (RuleText.Entry × Nat)} {line : Nat} {w : Word}
  {steps : List Step} {output : Word}

theorem isDerivation_nil (table : CategoryTable) (w : Word) : IsDerivation table [] w [] w :=
  ⟨.nil, nofun, nofun, rfl, nofun⟩

theorem isDerivation_comment (h : IsDerivation table entries w steps output) :
    IsDerivation table ((.comment, line) :: entries) w steps output where
  ascending := h.ascending
  changed := h.changed
  applied s hs := by
    obtain ⟨r, hr, ha⟩ := h.applied s hs
    exact ⟨r, .tail _ hr, ha⟩
  linked := h.linked
  idle r l hr := by
    rcases List.mem_cons.mp hr with he | hr
    · cases he
    · exact h.idle r l hr

/-- The steps of a derivation are on the lines of its entries. -/
theorem IsDerivation.lt_line (h : IsDerivation table entries w steps output)
    (hline : ∀ q ∈ entries, line < q.2) : ∀ s ∈ steps, line < s.line := by
  intro s hs
  obtain ⟨r, hr, -⟩ := h.applied s hs
  exact hline _ hr

theorem isDerivation_rule {r : Rule} {next : Word} (ha : r.apply table w = .ok next)
    (hline : ∀ q ∈ entries, line < q.2) (h : IsDerivation table entries next steps output) :
    IsDerivation table ((.rule r, line) :: entries) w
      (recordStep line w next (output, steps)).2 output := by
  have hlt := h.lt_line hline
  have happlied : ∀ s ∈ steps,
      ∃ r', (.rule r', s.line) ∈ (.rule r, line) :: entries ∧
        r'.apply table s.before = .ok s.after := by
    intro s hs
    obtain ⟨r', hr', ha'⟩ := h.applied s hs
    exact ⟨r', .tail _ hr', ha'⟩
  by_cases hn : next = w
  · -- the rule changed nothing, so that the word in front of its line is still `w`
    subst hn
    rw [recordStep, if_pos rfl]
    refine ⟨h.ascending, h.changed, happlied, h.linked, fun r' l hr' hl => ?_⟩
    rcases List.mem_cons.mp hr' with he | hr'
    · cases he
      rw [wordAt_of_le fun s hs => Nat.le_of_lt (hlt s hs)]
      exact ha
    · exact h.idle r' l hr' hl
  · rw [recordStep, if_neg hn]
    refine ⟨List.pairwise_cons.mpr ⟨hlt, h.ascending⟩, ?_, ?_, ?_, fun r' l hr' hl => ?_⟩
    · rw [List.forall_mem_cons]
      exact ⟨Ne.symm hn, h.changed⟩
    · rw [List.forall_mem_cons]
      exact ⟨⟨r, .head _, ha⟩, happlied⟩
    · rw [List.map_cons, List.map_cons, List.cons_append, h.linked]
    · rw [List.map_cons, List.mem_cons, not_or] at hl
      rcases List.mem_cons.mp hr' with he | hr'
      · cases he
        exact absurd rfl hl.1
      · rw [wordAt_cons (hline _ hr')]
        exact h.idle r' l hr' hl.2

end

/-! ## Runs -/

theorem isDerivation_of_runEntries {table : CategoryTable} {entries : List (RuleText.Entry × Nat)}
    (hlines : entries.Pairwise fun p q => p.2 < q.2) {w output : Word} {steps : List Step}
    (h : runEntries table entries w = .ok (output, steps)) :
    IsDerivation table entries w steps output := by
  induction entries generalizing w output steps with
  | nil =>
    cases h
    exact isDerivation_nil table w
  | cons entry entries ih =>
    obtain ⟨entry, line⟩ := entry
    obtain ⟨hline, hrest⟩ := List.pairwise_cons.mp hlines
    cases entry with
    | comment => exact isDerivation_comment (ih hrest h)
    | rule r =>
      cases ha : r.apply table w with
      | error cause =>
        rw [runEntries_rule_error ha] at h
        cases h
      | ok next =>
        rw [runEntries_rule_ok ha] at h
        obtain ⟨run, hrun, hstep⟩ := map_eq_ok_iff.mp h
        cases hstep
        exact isDerivation_rule ha hline (ih hrest hrun)

theorem pairwise_lt_zipIdx {α : Type} (l : List α) (n : Nat) :
    (l.zipIdx n).Pairwise fun p q => p.2 < q.2 := by
  have h : ((l.zipIdx n).map Prod.snd).Pairwise (· < ·) := by
    rw [List.zipIdx_map_snd]
    exact List.pairwise_lt_range'
  exact List.pairwise_map.mp h

namespace Cascade

/-- The steps of a word and the word that the rules make of it fail alike; where they do not, the
steps are a derivation of that word. -/
theorem steps_isDerivation (table : CategoryTable) (entries : List RuleText.Entry) (w : Word) :
    (∀ fault, steps ⟨table, some entries⟩ w = .error fault ↔
      apply ⟨table, some entries⟩ w = .error fault) ∧
    ∀ output, apply ⟨table, some entries⟩ w = .ok output →
      ∃ ss, steps ⟨table, some entries⟩ w = .ok ss ∧
        IsDerivation table (entries.zipIdx 1) w ss output := by
  show (∀ fault, Prod.snd <$> runEntries table (entries.zipIdx 1) w = .error fault ↔
      Prod.fst <$> runEntries table (entries.zipIdx 1) w = .error fault) ∧
    ∀ output, Prod.fst <$> runEntries table (entries.zipIdx 1) w = .ok output →
      ∃ ss, Prod.snd <$> runEntries table (entries.zipIdx 1) w = .ok ss ∧
        IsDerivation table (entries.zipIdx 1) w ss output
  cases hrun : runEntries table (entries.zipIdx 1) w with
  | error fault =>
    refine ⟨fun other => ⟨fun h => ?_, fun h => ?_⟩, nofun⟩
    · cases h
      rfl
    · cases h
      rfl
  | ok run =>
    refine ⟨fun _ => ⟨nofun, nofun⟩, fun output h => ?_⟩
    cases h
    exact ⟨run.2, rfl, isDerivation_of_runEntries (pairwise_lt_zipIdx entries 1) hrun⟩

/-- The rules `#/un#`, `#/#s/x#` and `#un/` with a comment behind the first. -/
def undoneAffix : List RuleText.Entry :=
  [.rule ⟨[.edge], [.literal 'u', .literal 'n', .edge], none, none, none⟩, .comment,
    .rule ⟨[.edge], [.edge, .literal 's'], some [.literal 'x', .edge], none, none⟩,
    .rule ⟨[.edge, .literal 'u', .literal 'n'], [], none, none, none⟩]

/-- A rule that takes back what another one did is a step like that one, and the rule between them
is none. -/
theorem steps_undoneAffix :
    apply ⟨.empty, some undoneAffix⟩ ['a', 'x', 'e'] = .ok ['a', 'x', 'e'] ∧
      IsDerivation .empty (undoneAffix.zipIdx 1) ['a', 'x', 'e']
        [⟨1, ['a', 'x', 'e'], ['u', 'n', 'a', 'x', 'e']⟩,
          ⟨4, ['u', 'n', 'a', 'x', 'e'], ['a', 'x', 'e']⟩] ['a', 'x', 'e'] := by
  have happly : apply ⟨.empty, some undoneAffix⟩ ['a', 'x', 'e'] = .ok ['a', 'x', 'e'] := rfl
  obtain ⟨ss, hss, h⟩ := (steps_isDerivation .empty undoneAffix ['a', 'x', 'e']).2 _ happly
  cases hss
  exact ⟨happly, h⟩

end Cascade

end SoundChange
