import SoundChange.Proofs.Condition.Faults
import SoundChange.Proofs.Rule.Validity
import SoundChange.Proofs.Verdict

/-!
# Faults of rules

What can go wrong with a rule about a category or about the occurrences of a text. The shape of the
target decides that the target is unfit, and nothing else does; all other faults come from the
changes, from letters that are not defined or from an alternative of a condition.

* `FaultAtPlaces`: the causes.
* `members_faultsIn`, `substitutes_faultsIn`, `texts_faultsIn`: what can go wrong with members and
  changes, for faults of any kind.
* `apply_faults`: no other fault comes of a rule that has no single word edge for a target.
* `apply_eq_unfitTarget_iff`: the fault of the target.
-/

set_option autoImplicit false

namespace SoundChange

namespace Rule

/-- What can go wrong with a rule that is about places of a word. -/
inductive FaultAtPlaces (r : Rule) : RuleFault → Prop where
  | unfitTarget : Pattern.targetShape? r.target = none → FaultAtPlaces r .unfitTarget
  | unfitChange : FaultAtPlaces r .unfitChange
  | elseChangeUnlikeChange : FaultAtPlaces r .elseChangeUnlikeChange
  | unknownCategory (letter : Char) : FaultAtPlaces r (.unknownCategory letter)
  | condition {p : Pattern} {alt : Alternative} {fault : RuleFault} : p ∈ r.conditions →
      alt ∈ Pattern.alternatives p → alt.FaultAround fault → FaultAtPlaces r fault

section
variable {r : Rule} {table : CategoryTable}

/-! ## Conditions -/

theorem verdict_around_faults (w : Word) (start len : Nat) :
    FaultsIn r.FaultAtPlaces (r.verdict (Alternative.matchesAround table w start len)) :=
  (compatible_faultsIn r.FaultAtPlaces).verdict (g := Alternative.matchesAround table w start len)
    fun _ hp alt halt =>
      (Alternative.matchesAround_faults alt w start len).mono fun _ h => .condition hp halt h

/-! ## Changes -/

section
variable {kind : RuleFault → Prop}

theorem members_faultsIn {p : Pattern}
    (hunknown : ∀ letter, .category letter ∈ p → kind (.unknownCategory letter)) :
    FaultsIn kind (Pattern.members table p) := by
  rw [Pattern.members]
  split
  case h_1 letter hletter =>
    split
    · exact faultsIn_ok _
    · refine faultsIn_error (hunknown letter ?_)
      rw [Pattern.categoryLetter?_eq_some_iff.mp hletter]
      exact .head _
  case h_2 => exact faultsIn_ok _

variable (hunfit : kind .unfitChange)
include hunfit

theorem asText_faultsIn (p : Pattern) : FaultsIn kind (Pattern.asText p) :=
  faultsIn_ite (fun _ => faultsIn_ok _) fun _ => faultsIn_error hunfit

theorem texts_faultsIn (elseChange : Option Pattern) :
    FaultsIn kind (elseChange.mapM Pattern.asText) := by
  cases elseChange with
  | none => exact faultsIn_ok none
  | some p => exact faultsIn_map some (asText_faultsIn hunfit p)

theorem ofPattern_faultsIn {p : Pattern}
    (hunknown : ∀ letter, .category letter ∈ p → kind (.unknownCategory letter)) :
    FaultsIn kind (Substitute.ofPattern table p) := by
  refine faultsIn_ite (fun _ => faultsIn_map _ (members_faultsIn hunknown)) fun _ => ?_
  exact faultsIn_ite (fun _ => faultsIn_ok _) fun _ => faultsIn_error hunfit

theorem substitutes_faultsIn (hunlike : kind .elseChangeUnlikeChange)
    (hunknown : ∀ p ∈ r.changes, ∀ letter, .category letter ∈ p →
      kind (.unknownCategory letter)) :
    FaultsIn kind (r.substitutes table) := by
  rw [substitutes]
  refine faultsIn_bind (ofPattern_faultsIn hunfit (hunknown _ (.head _))) fun change => ?_
  cases helse : r.elseChange with
  | none => exact faultsIn_ok _
  | some p =>
    have hp : p ∈ r.changes := .tail _ (Option.mem_toList.mpr helse)
    refine faultsIn_bind (ofPattern_faultsIn hunfit (hunknown p hp)) fun other => ?_
    exact faultsIn_ite (fun _ => faultsIn_ok _) fun _ => faultsIn_error hunlike

end

/-! ## Places -/

theorem pieceAt_faults (members : List Word) (change : Substitute)
    (elseChange : Option Substitute) (w : Word) (c : Char) (i : Nat) :
    FaultsIn r.FaultAtPlaces (r.pieceAt table members change elseChange w c i) := by
  rw [pieceAt]
  split
  · exact faultsIn_ok _
  · refine faultsIn_bind (verdict_around_faults w i 1) fun v => ?_
    split <;> exact faultsIn_ok _

theorem applyToMembers_faults (members : List Word) (w : Word) :
    FaultsIn r.FaultAtPlaces (r.applyToMembers table members w) := by
  refine faultsIn_bind ?_ fun s => ?_
  · exact substitutes_faultsIn .unfitChange .elseChangeUnlikeChange
      fun _ _ letter _ => .unknownCategory letter
  refine faultsIn_bind ?_ fun pieces => faultsIn_ok _
  refine (compatible_faultsIn r.FaultAtPlaces).mapM
    (g := fun q => r.pieceAt table members s.1 s.2 w q.1 q.2) fun q _ => ?_
  exact pieceAt_faults members s.1 s.2 w q.1 q.2

theorem applyToOccurrences_faults (needle w : Word) :
    FaultsIn r.FaultAtPlaces (r.applyToOccurrences table needle w) := by
  refine faultsIn_bind (asText_faultsIn .unfitChange r.change) fun change => ?_
  refine faultsIn_bind (texts_faultsIn .unfitChange r.elseChange) fun other => ?_
  refine (compatible_faultsIn r.FaultAtPlaces).spliceFrom
    (g := fun current i => Verdict.select change other <$>
      r.verdict (Alternative.matchesAround table current i needle.length))
    (fun current i _ => ?_) w 0
  exact faultsIn_map _ (verdict_around_faults current i needle.length)

/-! ## Rules -/

variable (hshape : Pattern.targetShape? r.target ≠ some .wordEdge) (w : Word)
include hshape

theorem apply_faults : FaultsIn r.FaultAtPlaces (r.apply table w) := by
  rw [apply]
  split
  case h_1 hedge => exact absurd hedge hshape
  case h_2 =>
    refine faultsIn_bind ?_ fun members => applyToMembers_faults members w
    exact members_faultsIn fun letter _ => .unknownCategory letter
  case h_3 => exact applyToOccurrences_faults (Pattern.text r.target) w
  case h_4 hnone => exact faultsIn_error (.unfitTarget hnone)

/-- The target is unfit for a word if and only if it has no shape, whatever the word. -/
theorem apply_eq_unfitTarget_iff :
    r.apply table w = .error .unfitTarget ↔ Pattern.targetShape? r.target = none := by
  constructor
  · intro h
    cases apply_faults hshape w _ h with
    | unfitTarget hnone => exact hnone
    | condition _ _ hfault => cases hfault
  · intro hnone
    rw [apply, hnone]
    rfl

end

end Rule

end SoundChange
