import SoundChange.Proofs.Cascade.Run
import SoundChange.Proofs.Rule.Validity

/-!
# Cascades of valid rules

A rule meets whatever words the rules in front of it make. Since a valid rule makes something of
every word, a cascade of valid rules does so too.

* `runEntries_ok`: the run through numbered entries.
* `run_of_valid`: rules alone and in a cascade.
-/

set_option autoImplicit false

namespace SoundChange

/-- The entries without a rule or with a valid one. -/
def RuleText.Entry.Valid (table : CategoryTable) : RuleText.Entry → Prop
  | comment => True
  | rule r => r.Valid table

instance (table : CategoryTable) (entry : RuleText.Entry) : Decidable (entry.Valid table) :=
  match entry with
  | .comment => inferInstanceAs (Decidable True)
  | .rule r => inferInstanceAs (Decidable (r.Valid table))

theorem runEntries_ok {table : CategoryTable} {entries : List (RuleText.Entry × Nat)}
    (h : ∀ q ∈ entries, q.1.Valid table) (w : Word) :
    ∃ run, runEntries table entries w = .ok run := by
  induction entries generalizing w with
  | nil => exact ⟨(w, []), rfl⟩
  | cons entry entries ih =>
    obtain ⟨entry, line⟩ := entry
    rw [List.forall_mem_cons] at h
    obtain ⟨hentry, h⟩ := h
    cases entry with
    | comment => exact ih h w
    | rule r =>
      obtain ⟨next, hnext⟩ := Rule.apply_of_valid hentry w
      rw [runEntries_rule_ok hnext]
      exact exists_map_eq_ok _ (ih h next)

namespace Cascade

/-- A valid rule makes something of every word, and valid rules one after the other do, whatever
the rules in front make of it. -/
theorem run_of_valid (table : CategoryTable) :
    (∀ r : Rule, r.Valid table → ∀ w, ∃ out, r.apply table w = .ok out) ∧
      ∀ entries : List RuleText.Entry, (∀ entry ∈ entries, entry.Valid table) → ∀ w,
        ∃ output steps, run ⟨table, some entries⟩ w = .ok (output, steps) := by
  constructor
  · intro r h w
    exact Rule.apply_of_valid h w
  · intro entries h w
    have hzip : ∀ q ∈ entries.zipIdx 1, q.1.Valid table := by
      intro q hq
      exact h q.1 (List.fst_mem_of_mem_zipIdx hq)
    obtain ⟨⟨output, steps⟩, hrun⟩ := runEntries_ok hzip w
    exact ⟨output, steps, hrun⟩

/-- The categories `V=ae` and `N=mn`. -/
def nasalTable : CategoryTable :=
  .ofList [('V', [['a'], ['e']]), ('N', [['m'], ['n']])]

/-- The rule `V/o/_N|#k`. -/
def nasalRule : Rule :=
  ⟨[.category 'V'], [.literal 'o'],
    some [.locus, .category 'N', .bar, .edge, .literal 'k'], none, none⟩

/-- The rules `#/#s/V#`, `V/o/_N|#k` and `oo/u//_#/`. -/
def nasalRules : List RuleText.Entry :=
  [.rule ⟨[.edge], [.edge, .literal 's'], some [.category 'V', .edge], none, none⟩, .comment,
    .rule nasalRule,
    .rule ⟨[.literal 'o', .literal 'o'], [.literal 'u'], some [], some [.locus, .edge], some []⟩]

theorem run_nasalRules :
    nasalRule.Valid nasalTable ∧ (∃ out, nasalRule.apply nasalTable ['k', 'a'] = .ok out) ∧
      (∀ entry ∈ nasalRules, entry.Valid nasalTable) ∧
      ∃ output steps, run ⟨nasalTable, some nasalRules⟩ ['k', 'a'] = .ok (output, steps) := by
  have hrule : nasalRule.Valid nasalTable := by decide
  have hrules : ∀ entry ∈ nasalRules, entry.Valid nasalTable := by decide
  have hrun := run_of_valid nasalTable
  exact ⟨hrule, hrun.1 nasalRule hrule _, hrules, hrun.2 nasalRules hrules _⟩

end Cascade

end SoundChange
