import SoundChange.Proofs.Condition.Tables
import SoundChange.Proofs.Rule.Scan
import SoundChange.Proofs.Rule.Validity

/-!
# One rule under two tables

What a table has of the letters that a rule mentions is all that counts for the rule. Where a second
table has the same of them (`AgreeAt`), the rule does the same under both, unless it stops under the
first one at a letter that only the second one defines.

* `verdict_inWord_agree`, `verdict_around_agree`: the verdicts about a word and about a place.
* `applyAtEdge_agree`, `applyToMembers_agree`, `applyToOccurrences_agree`: the three ways to apply a
  rule.
* `apply_agree`: rules.
-/

set_option autoImplicit false

namespace SoundChange

/-- Whether a category of that letter occurs in the rule. -/
def Rule.Mentions (r : Rule) (letter : Char) : Prop :=
  ∃ p ∈ r.patterns, .category letter ∈ p

section
variable {excused : RuleFault → Prop} {table table' : CategoryTable}

namespace Rule

variable {r : Rule}

variable (h : ∀ letter, r.Mentions letter → AgreeAt excused table table' letter)
include h

theorem agreeAt_of_mem_patterns {p : Pattern} (hp : p ∈ r.patterns) :
    ∀ letter, .category letter ∈ p → AgreeAt excused table table' letter :=
  fun letter hl => h letter ⟨p, hp, hl⟩

theorem agreeAt_of_mem_alternatives {p : Pattern} (hp : p ∈ r.conditions) {alt : Alternative}
    (halt : alt ∈ Pattern.alternatives p) :
    ∀ letter, .category letter ∈ alt → AgreeAt excused table table' letter :=
  fun letter hl => h letter
    ⟨p, mem_patterns_of_mem_conditions hp, Pattern.mem_of_mem_alternatives halt hl⟩

theorem verdict_inWord_agree (w : Word) :
    AgreeUnless excused (r.verdict (Alternative.matchesInWord table w))
      (r.verdict (Alternative.matchesInWord table' w)) :=
  (compatible_agreeUnless excused).verdict fun _ hp _ halt =>
    Alternative.matchesInWord_agree (agreeAt_of_mem_alternatives h hp halt) w

theorem verdict_around_agree (w : Word) (start len : Nat) :
    AgreeUnless excused (r.verdict (Alternative.matchesAround table w start len))
      (r.verdict (Alternative.matchesAround table' w start len)) :=
  (compatible_agreeUnless excused).verdict fun _ hp _ halt =>
    Alternative.matchesAround_agree (agreeAt_of_mem_alternatives h hp halt) w start len

theorem applyAtEdge_agree (w : Word) :
    AgreeUnless excused (r.applyAtEdge table w) (r.applyAtEdge table' w) := by
  rw [applyAtEdge, applyAtEdge]
  exact agreeUnless_bind (verdict_inWord_agree h w) fun v => agreeUnless_refl _

theorem members_agree {p : Pattern} (hp : p ∈ r.patterns) :
    AgreeUnless excused (Pattern.members table p) (Pattern.members table' p) := by
  rw [Pattern.members, Pattern.members]
  split
  case h_1 letter hletter =>
    obtain rfl := Pattern.categoryLetter?_eq_some_iff.mp hletter
    rcases agreeAt_of_mem_patterns h hp letter (.head _) with heq | ⟨hnone, he⟩
    · rw [heq]
      exact agreeUnless_refl _
    · refine .inr ⟨_, he, ?_⟩
      rw [hnone]
      rfl
  case h_2 => exact agreeUnless_refl _

theorem ofPattern_agree {p : Pattern} (hp : p ∈ r.patterns) :
    AgreeUnless excused (Substitute.ofPattern table p) (Substitute.ofPattern table' p) := by
  rw [Substitute.ofPattern, Substitute.ofPattern]
  exact agreeUnless_ite (agreeUnless_map _ (members_agree h hp)) (agreeUnless_refl _)

theorem substitutes_agree :
    AgreeUnless excused (r.substitutes table) (r.substitutes table') := by
  have hchange : r.change ∈ r.patterns := mem_patterns_of_mem_changes (.head _)
  rw [substitutes, substitutes]
  refine agreeUnless_bind (ofPattern_agree h hchange) fun change => ?_
  split
  case h_1 => exact agreeUnless_refl _
  case h_2 p hp =>
    have hother : p ∈ r.patterns :=
      mem_patterns_of_mem_changes (.tail _ (Option.mem_toList.mpr hp))
    exact agreeUnless_bind (ofPattern_agree h hother) fun other => agreeUnless_refl _

theorem pieceAt_agree (members : List Word) (change : Substitute) (elseChange : Option Substitute)
    (w : Word) (c : Char) (i : Nat) :
    AgreeUnless excused (r.pieceAt table members change elseChange w c i)
      (r.pieceAt table' members change elseChange w c i) := by
  rw [pieceAt, pieceAt]
  split
  case h_1 => exact agreeUnless_refl _
  case h_2 =>
    exact agreeUnless_bind (verdict_around_agree h w i 1) fun v => agreeUnless_refl _

theorem applyToMembers_agree (members : List Word) (w : Word) :
    AgreeUnless excused (r.applyToMembers table members w)
      (r.applyToMembers table' members w) := by
  rw [applyToMembers, applyToMembers]
  refine agreeUnless_bind (substitutes_agree h) fun s => ?_
  refine agreeUnless_bind ((compatible_agreeUnless excused).mapM fun q _ => ?_) fun pieces =>
    agreeUnless_refl _
  exact pieceAt_agree h members s.1 s.2 w q.1 q.2

theorem applyToOccurrences_agree (needle w : Word) :
    AgreeUnless excused (r.applyToOccurrences table needle w)
      (r.applyToOccurrences table' needle w) := by
  rw [applyToOccurrences, applyToOccurrences]
  refine agreeUnless_bind (agreeUnless_refl _) fun change => ?_
  refine agreeUnless_bind (agreeUnless_refl _) fun elseChange => ?_
  refine (compatible_agreeUnless excused).spliceFrom (fun current i _ => ?_) w 0
  exact agreeUnless_map _ (verdict_around_agree h current i needle.length)

theorem apply_agree (w : Word) : AgreeUnless excused (r.apply table w) (r.apply table' w) := by
  rw [apply, apply]
  split
  case h_1 => exact applyAtEdge_agree h w
  case h_2 =>
    refine agreeUnless_bind (members_agree h (.head _)) fun members => ?_
    exact applyToMembers_agree h members w
  case h_3 => exact applyToOccurrences_agree h _ w
  case h_4 => exact agreeUnless_refl _

end Rule

end

end SoundChange
