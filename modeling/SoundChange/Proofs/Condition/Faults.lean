import SoundChange.Proofs.Condition

/-!
# Faults of conditions

What can go wrong when an alternative is tried around a place of a word: a letter of it is not
defined, a word edge stands where no end is, or there are too many word edges for a whole word. A
locus is a fault only behind another one.

* `matchSymbols_faultsIn`, `matchesAround_faultsIn`: symbols that have to match and alternatives
  about a place come to faults of a kind if their symbols do.
* `FaultAround`, `matchesAround_faults`: the faults of an alternative, by what it is made of.
* `NamesUndefined`, `matchesAround_namesUndefined`: a category that is said to be unknown is so.
-/

set_option autoImplicit false

namespace SoundChange

section
variable {table : CategoryTable} {kind : RuleFault → Prop}

/-! ## Faults of a kind -/

section
variable {ts : List Symbol} (hchar : ∀ t ∈ ts, ∀ c, FaultsIn kind (t.matchesChar table c))
include hchar

theorem matchSymbols_faultsIn (w : Word) : FaultsIn kind (matchSymbols table ts w) := by
  induction ts generalizing w with
  | nil => exact faultsIn_ok true
  | cons t ts ih =>
    rw [List.forall_mem_cons] at hchar
    cases w with
    | nil => exact faultsIn_ok false
    | cons c w =>
      rw [matchSymbols]
      refine faultsIn_bind (hchar.1 c) fun b => ?_
      cases b with
      | false => exact faultsIn_ok false
      | true => exact ih hchar.2 w

theorem matchAnyOf_faultsIn (count : Nat) (w : Word) :
    FaultsIn kind (matchAnyOf table ts count w) := by
  induction count generalizing w with
  | zero => exact faultsIn_ok false
  | succ count ih =>
    rw [matchAnyOf]
    refine faultsIn_bind (matchSymbols_faultsIn hchar w) fun b => ?_
    cases b with
    | false => exact ih w.tail
    | true => exact faultsIn_ok true

end

namespace Alternative

theorem matchesBeside_faultsIn {before after : List Symbol}
    (hbefore : ∀ t ∈ before, ∀ c, FaultsIn kind (t.matchesChar table c))
    (hafter : ∀ t ∈ after, ∀ c, FaultsIn kind (t.matchesChar table c)) (w : Word)
    (start len : Nat) : FaultsIn kind (matchesBeside table w start len before after) := by
  rw [matchesBeside]
  refine faultsIn_ite (fun _ => ?_) fun _ => faultsIn_ok false
  refine faultsIn_bind ?_ fun b => ?_
  · exact matchSymbols_faultsIn (fun t ht => hbefore t (anchorLeft_subset before ht)) _
  cases b with
  | false => exact faultsIn_ok false
  | true => exact matchSymbols_faultsIn (fun t ht => hafter t (anchorRight_subset after ht)) _

section
variable {alt : Alternative} (hedge : .edge ∈ alt → kind .misplacedEdge)
  (hedges : 1 < Pattern.edgeCount alt → kind .tooManyEdges)
include hedge hedges

theorem matchesInWord_faultsIn (hl : .locus ∉ alt)
    (hchar : ∀ t ∈ alt, ∀ c, FaultsIn kind (t.matchesChar table c)) (w : Word) :
    FaultsIn kind (matchesInWord table w alt) := by
  rw [matchesInWord, if_neg (by simpa using hl)]
  refine faultsIn_ite (fun hmany => faultsIn_error (hedges hmany)) fun _ => ?_
  refine faultsIn_ite (fun _ => ?_) fun _ => faultsIn_ite (fun _ => ?_) fun _ => ?_
  · refine faultsIn_ite (fun _ => ?_) fun _ => faultsIn_ok false
    exact matchSymbols_faultsIn (fun t ht => hchar t (List.mem_of_mem_tail ht)) w
  · refine faultsIn_ite (fun _ => ?_) fun _ => faultsIn_ok false
    exact matchSymbols_faultsIn (fun t ht => hchar t (List.dropLast_subset alt ht)) _
  · refine faultsIn_ite (fun he => faultsIn_error (hedge ?_)) fun _ => ?_
    · simpa using he
    · exact matchAnyOf_faultsIn hchar _ w

theorem matchesAround_faultsIn
    (hchar : ∀ t ∈ alt, t ≠ .locus → ∀ c, FaultsIn kind (t.matchesChar table c))
    (hlocus : 1 < alt.count .locus → kind .locusInWordCondition) (w : Word) (start len : Nat) :
    FaultsIn kind (matchesAround table w start len alt) := by
  by_cases hl : .locus ∈ alt
  · obtain ⟨before, after, rfl, hlb⟩ := List.eq_append_cons_of_mem hl
    rw [matchesAround_append hlb]
    refine faultsIn_ite (fun he => faultsIn_error (hedge ?_)) fun _ => ?_
    · exact List.mem_of_mem_tail (List.dropLast_subset _ he)
    refine matchesBeside_faultsIn (fun t ht => ?_) (fun t ht => ?_) w start len
    · exact hchar t (List.mem_append_left _ ht) fun h => hlb (h ▸ ht)
    · by_cases hsecond : t = .locus
      · subst hsecond
        refine fun c => faultsIn_error (hlocus ?_)
        have := List.count_pos_iff.mpr ht
        rw [List.count_append, List.count_cons_self]
        omega
      · exact hchar t (List.mem_append_right before (.tail _ ht)) hsecond
  · rw [matchesAround_of_locus_not_mem hl]
    exact matchesInWord_faultsIn hedge hedges hl (fun t ht => hchar t ht fun h => hl (h ▸ ht)) w

end

end Alternative

end

/-! ## Causes -/

/-- What can go wrong when an alternative is tried around a place. -/
inductive Alternative.FaultAround (alt : Alternative) : RuleFault → Prop where
  | unknownCategory {letter : Char} : .category letter ∈ alt →
      FaultAround alt (.unknownCategory letter)
  | misplacedEdge : .edge ∈ alt → FaultAround alt .misplacedEdge
  | tooManyEdges : 1 < Pattern.edgeCount alt → FaultAround alt .tooManyEdges
  | secondLocus : 1 < alt.count .locus → FaultAround alt .locusInWordCondition

/-- If the fault is an unknown category, it is one that the table does not define. -/
def RuleFault.NamesUndefined (table : CategoryTable) (fault : RuleFault) : Prop :=
  ∀ letter, fault = .unknownCategory letter → table.get? letter = none

section
variable {table : CategoryTable}

theorem matchesChar_faults {alt : Alternative} {t : Symbol} (ht : t ∈ alt) (hl : t ≠ .locus)
    (c : Char) : FaultsIn alt.FaultAround (t.matchesChar table c) := by
  cases t with
  | literal d => exact faultsIn_ok _
  | category letter =>
    rw [Symbol.matchesChar]
    split
    · exact faultsIn_ok _
    · exact faultsIn_error (.unknownCategory ht)
  | comma => exact faultsIn_ok _
  | edge => exact faultsIn_error (.misplacedEdge ht)
  | bar => exact faultsIn_ok _
  | locus => exact absurd rfl hl

theorem matchesChar_namesUndefined (t : Symbol) (c : Char) :
    FaultsIn (RuleFault.NamesUndefined table) (t.matchesChar table c) := by
  cases t with
  | literal d => exact faultsIn_ok _
  | category letter =>
    rw [Symbol.matchesChar]
    split
    case h_1 => exact faultsIn_ok _
    case h_2 hnone =>
      refine faultsIn_error fun l hl => ?_
      cases hl
      exact hnone
  | comma => exact faultsIn_ok _
  | edge => exact faultsIn_error fun _ hl => by cases hl
  | bar => exact faultsIn_ok _
  | locus => exact faultsIn_error fun _ hl => by cases hl

namespace Alternative

theorem matchesAround_faults (alt : Alternative) (w : Word) (start len : Nat) :
    FaultsIn alt.FaultAround (matchesAround table w start len alt) :=
  matchesAround_faultsIn .misplacedEdge .tooManyEdges (fun _ => matchesChar_faults) .secondLocus
    w start len

theorem matchesAround_namesUndefined (alt : Alternative) (w : Word) (start len : Nat) :
    FaultsIn (RuleFault.NamesUndefined table) (matchesAround table w start len alt) := by
  refine matchesAround_faultsIn ?_ ?_ (fun t _ _ => matchesChar_namesUndefined t) ?_ w start len
  all_goals exact fun _ _ hl => by cases hl

end Alternative

end

end SoundChange
