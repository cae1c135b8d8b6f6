import SoundChange.Proofs.Cascade.Run
import SoundChange.Proofs.Rule.Tables

/-!
# Cascades under two tables

What a cascade does with a word hangs on the categories that its rules mention and on no others. A
table that has them all the same, and more, makes a difference only where the smaller table stops a
rule at an unknown category.

* `runEntries_agree`: the run through numbered entries.
* `run_of_agreeing_tables`: cascades, with a table that is extended and with one that has the same
  letters.
-/

set_option autoImplicit false

namespace SoundChange

/-- Whether a category of that letter occurs in one of the rules. -/
def RuleText.Mentions (entries : List RuleText.Entry) (letter : Char) : Prop :=
  ∃ r, .rule r ∈ entries ∧ r.Mentions letter

/-- The faults of a cascade that come from such faults of a rule. -/
def CascadeFault.Excused (excused : RuleFault → Prop) (fault : CascadeFault) : Prop :=
  ∃ line cause, excused cause ∧ fault = .inapplicable line cause

theorem runEntries_agree {excused : RuleFault → Prop} {table table' : CategoryTable}
    {entries : List (RuleText.Entry × Nat)}
    (h : ∀ q ∈ entries, ∀ r, q.1 = .rule r → ∀ letter, r.Mentions letter →
      AgreeAt excused table table' letter) (w : Word) :
    AgreeUnless (CascadeFault.Excused excused) (runEntries table entries w)
      (runEntries table' entries w) := by
  induction entries generalizing w with
  | nil => exact agreeUnless_refl _
  | cons entry entries ih =>
    obtain ⟨entry, line⟩ := entry
    rw [List.forall_mem_cons] at h
    obtain ⟨hentry, h⟩ := h
    cases entry with
    | comment => exact ih h w
    | rule r =>
      rcases Rule.apply_agree (hentry r rfl) w with heq | ⟨cause, he, hcause⟩
      · cases ha : r.apply table' w with
        | error cause =>
          rw [runEntries_rule_error (heq.trans ha), runEntries_rule_error ha]
          exact agreeUnless_refl _
        | ok next =>
          rw [runEntries_rule_ok (heq.trans ha), runEntries_rule_ok ha]
          exact agreeUnless_map _ (ih h next)
      · exact .inr ⟨_, ⟨line, cause, he, rfl⟩, runEntries_rule_error hcause line entries⟩

namespace Cascade

theorem run_agree {excused : RuleFault → Prop} {table table' : CategoryTable}
    {entries : List RuleText.Entry}
    (h : ∀ letter, RuleText.Mentions entries letter → AgreeAt excused table table' letter)
    (w : Word) :
    AgreeUnless (CascadeFault.Excused excused) (run ⟨table, some entries⟩ w)
      (run ⟨table', some entries⟩ w) := by
  refine runEntries_agree (fun q hq r hr letter hl => h letter ⟨r, ?_, hl⟩) w
  rw [← hr]
  exact List.fst_mem_of_mem_zipIdx hq

/-- Where a second table has all members of the mentioned letters that the first one defines, a run
is the same under both unless it stops under the first one at an unknown category; where both
define the same of the mentioned letters, a run is the same in any case. -/
theorem run_of_agreeing_tables (table table' : CategoryTable) (entries : List RuleText.Entry)
    (h : ∀ letter, RuleText.Mentions entries letter → ∀ members,
      table.get? letter = some members → table'.get? letter = some members) (w : Word) :
    ((∀ line letter,
        run ⟨table, some entries⟩ w ≠ .error (.inapplicable line (.unknownCategory letter))) →
      run ⟨table', some entries⟩ w = run ⟨table, some entries⟩ w) ∧
    ((∀ letter, RuleText.Mentions entries letter →
        table.contains letter = table'.contains letter) →
      run ⟨table', some entries⟩ w = run ⟨table, some entries⟩ w) := by
  constructor
  · intro hknown
    have hagree : ∀ letter, RuleText.Mentions entries letter →
        AgreeAt (fun cause => ∃ letter, cause = .unknownCategory letter) table table' letter := by
      intro letter hl
      cases hm : table.get? letter with
      | none => exact .inr ⟨hm, letter, rfl⟩
      | some members => exact .inl (hm.trans (h letter hl members hm).symm)
    refine ((run_agree hagree w).eq_of_not_excused fun fault hf => ?_).symm
    obtain ⟨line, _, ⟨letter, rfl⟩, rfl⟩ := hf
    exact hknown line letter
  · intro hsame
    have hagree : ∀ letter, RuleText.Mentions entries letter →
        AgreeAt (fun _ => False) table table' letter := by
      intro letter hl
      cases hm : table.get? letter with
      | none =>
        have hnone : table'.get? letter = none := by
          simpa [CategoryTable.contains, hm] using hsame letter hl
        exact .inl (hm.trans hnone.symm)
      | some members => exact .inl (hm.trans (h letter hl members hm).symm)
    refine ((run_agree hagree w).eq_of_not_excused fun fault hf => ?_).symm
    obtain ⟨_, _, hf, -⟩ := hf
    exact hf.elim

/-- The rule `V/o/_N|k_`. -/
def roundedBeforeNasal : List RuleText.Entry :=
  [.rule ⟨[.category 'V'], [.literal 'o'],
    some [.locus, .category 'N', .bar, .literal 'k', .locus], none, none⟩]

/-- The category `V=a`. -/
def vowelTable : CategoryTable := .ofList [('V', [['a']])]

theorem mentions_roundedBeforeNasal {letter : Char} :
    RuleText.Mentions roundedBeforeNasal letter ↔ letter = 'V' ∨ letter = 'N' := by
  simp [RuleText.Mentions, roundedBeforeNasal, Rule.Mentions, Rule.patterns]

theorem get?_insert_vowelTable {letter l : Char} (h : vowelTable.get? letter = none)
    {members ms : List Word} (hl : vowelTable.get? l = some members) :
    (vowelTable.insert letter ms).get? l = some members := by
  rw [CategoryTable.get?_insert, if_neg, hl]
  rintro rfl
  rw [h] at hl
  cases hl

/-- With no character behind the vowel nothing asks for the nasals, and a table that has them makes
no difference; with one behind it, a table that has another category makes none. -/
theorem run_roundedBeforeNasal :
    run ⟨vowelTable.insert 'N' [['n']], some roundedBeforeNasal⟩ ['k', 'a'] =
        .ok (['k', 'o'], [⟨1, ['k', 'a'], ['k', 'o']⟩]) ∧
      run ⟨vowelTable.insert 'K' [['k']], some roundedBeforeNasal⟩ ['a', 't'] =
        .error (.inapplicable 1 (.unknownCategory 'N')) := by
  have hnasal := run_of_agreeing_tables vowelTable (vowelTable.insert 'N' [['n']])
    roundedBeforeNasal (fun _ _ _ hl => get?_insert_vowelTable rfl hl) ['k', 'a']
  have hstop := run_of_agreeing_tables vowelTable (vowelTable.insert 'K' [['k']])
    roundedBeforeNasal (fun _ _ _ hl => get?_insert_vowelTable rfl hl) ['a', 't']
  constructor
  · exact (hnasal.1 nofun).trans rfl
  · refine (hstop.2 fun letter hl => ?_).trans rfl
    rcases mentions_roundedBeforeNasal.mp hl with rfl | rfl
    · rfl
    · rfl

end Cascade

end SoundChange
