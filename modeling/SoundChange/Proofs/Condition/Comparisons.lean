import SoundChange.Proofs.Condition
import SoundChange.Proofs.Recording

/-!
# Alternatives tried with any way to match

An alternative is tried by matching some of its symbols from some places of a word on. Here the
symbols are matched with anything that answers for a list of them and a place, and that is asked
only about places where there is room for them. Where it writes something down, so does the trial of
the alternative; `comparing` writes down every symbol with the character that it is compared with.

* `tryInWord`, `tryAround`: an alternative about the whole word and one about a place.
* `records_tryInWord`, `records_tryAround`: what they come to and what they write down.
* `compareSymbols`, `compareInWord`, `compareAround`: trials that write down their comparisons.
-/

set_option autoImplicit false

namespace SoundChange

open Verdict (Attempt Trial)

section
variable {σ β : Type}

/-! ## Trials -/

/-- Matches at one of `count` places from `start` on, tried from the left. -/
def tryAnyOf (run : Nat → Attempt σ Bool) : Nat → Nat → Attempt σ Bool
  | 0, _ => pure false
  | count + 1, start => do
    if ← run start then pure true else tryAnyOf run count (start + 1)

namespace Alternative

/-- Tries an alternative about a whole word of that length. -/
def tryInWord (run : List Symbol → Nat → Attempt σ Bool) (length : Nat) : Trial σ := fun alt =>
  if alt.contains .locus then throw .locusInWordCondition
  else if 1 < Pattern.edgeCount alt then throw .tooManyEdges
  else if alt.head? = some .edge then
    if alt.tail.length ≤ length then run alt.tail 0 else pure false
  else if alt.getLast? = some .edge then
    if alt.dropLast.length ≤ length then run alt.dropLast (length - alt.dropLast.length)
    else pure false
  else if alt.contains .edge then throw .misplacedEdge
  else tryAnyOf (run alt) (length + 1 - alt.length) 0

/-- Tries symbols on both sides of the `len` characters from `start` on. -/
def tryBeside (run : List Symbol → Nat → Attempt σ Bool) (length start len : Nat)
    (before after : List Symbol) : Attempt σ Bool :=
  let (atStart, left) := anchorLeft before
  let (atEnd, right) := anchorRight after
  let stop := start + len
  if left.length ≤ start ∧ stop + right.length ≤ length ∧ (atStart → start = left.length) ∧
      (atEnd → length - stop = right.length) then do
    if ← run left (start - left.length) then run right stop else pure false
  else pure false

/-- Tries an alternative around the `len` characters from `start` on. -/
def tryAround (run : List Symbol → Nat → Attempt σ Bool) (length start len : Nat) : Trial σ :=
  fun alt =>
    match alt.dropWhile (· != .locus) with
    | [] => tryInWord run length alt
    | _ :: after =>
      if alt.tail.dropLast.contains .edge then throw .misplacedEdge
      else tryBeside run length start len (alt.takeWhile (· != .locus)) after

end Alternative

/-! ## Their records -/

section
variable {table : CategoryTable} {kind : β → Prop} {w : Word}

theorem records_tryAnyOf {ts : List Symbol} {run : Nat → Attempt (List β) Bool} {count start : Nat}
    (hrun : ∀ i < start + count, Records kind (matchSymbols table ts (w.drop i)) (run i)) :
    Records kind (matchAnyOf table ts count (w.drop start)) (tryAnyOf run count start) := by
  induction count generalizing start with
  | zero => exact records_pure false
  | succ count ih =>
    rw [matchAnyOf, tryAnyOf]
    refine records_bind (hrun start (by omega)) fun b => ?_
    cases b with
    | true => exact records_pure true
    | false =>
      rw [List.tail_drop]
      exact ih fun i hi => hrun i (by omega)

namespace Alternative
variable {alt : Alternative} {run : List Symbol → Nat → Attempt (List β) Bool}

theorem records_tryBeside {before after : List Symbol} {start len : Nat}
    (hrun : ∀ ts, ts ⊆ before ∨ ts ⊆ after → ∀ i, i + ts.length ≤ w.length →
      Records kind (matchSymbols table ts (w.drop i)) (run ts i)) :
    Records kind (matchesBeside table w start len before after)
      (tryBeside run w.length start len before after) := by
  have hbefore := anchorLeft_subset before
  have hafter := anchorRight_subset after
  rw [matchesBeside, tryBeside]
  generalize anchorLeft before = anchored at hbefore ⊢
  obtain ⟨atStart, left⟩ := anchored
  generalize anchorRight after = anchored at hafter ⊢
  obtain ⟨atEnd, right⟩ := anchored
  dsimp only at hbefore hafter ⊢
  refine records_ite (fun hroom => ?_) fun _ => records_pure false
  refine records_bind (hrun left (.inl hbefore) (start - left.length) (by omega)) fun b => ?_
  cases b with
  | false => exact records_pure false
  | true => exact hrun right (.inr hafter) (start + len) hroom.2.1

variable
  (hrun : ∀ ts, ts ⊆ alt → ∀ i, i + ts.length ≤ w.length →
    Records kind (matchSymbols table ts (w.drop i)) (run ts i))
include hrun

theorem records_tryInWord :
    Records kind (matchesInWord table w alt) (tryInWord run w.length alt) := by
  rw [matchesInWord, tryInWord]
  refine records_ite (fun _ => records_throw _) fun _ => ?_
  refine records_ite (fun _ => records_throw _) fun _ => ?_
  refine records_ite (fun _ => ?_) fun _ => records_ite (fun _ => ?_) fun _ => ?_
  · refine records_ite (fun hroom => ?_) fun _ => records_pure false
    exact hrun _ (fun _ => List.mem_of_mem_tail) 0 (by omega)
  · refine records_ite (fun hroom => ?_) fun _ => records_pure false
    exact hrun _ (List.dropLast_subset alt) _ (by omega)
  · refine records_ite (fun _ => records_throw _) fun _ => ?_
    refine records_tryAnyOf fun i hi => hrun alt (List.Subset.refl alt) i ?_
    omega

theorem records_tryAround (start len : Nat) :
    Records kind (matchesAround table w start len alt) (tryAround run w.length start len alt) := by
  rw [matchesAround, tryAround]
  cases hlocus : alt.dropWhile (· != .locus) with
  | nil => exact records_tryInWord hrun
  | cons t after =>
    refine records_ite (fun _ => records_throw _) fun _ => ?_
    refine records_tryBeside fun ts hts => hrun ts ?_
    rcases hts with hts | hts
    · exact List.Subset.trans hts (List.takeWhile_subset _)
    · have hbehind : t :: after <:+ alt := hlocus ▸ List.dropWhile_suffix _
      exact List.Subset.trans hts ((List.suffix_cons t after).trans hbehind).subset

end Alternative

end

end

/-! ## Comparisons -/

/-- A symbol and the character that it was compared with. -/
abbrev Comparison := Symbol × Char

/-- Compares a symbol with a character and writes that down. -/
def Symbol.compare (table : CategoryTable) (c : Char) (t : Symbol) :
    Attempt (List Comparison) Bool := do
  Attempt.note (t, c)
  .lift (t.matchesChar table c)

/-- Compares symbols with the first characters of a word until one does not match. -/
def compareSymbols (table : CategoryTable) :
    List Symbol → Word → Attempt (List Comparison) Bool
  | [], _ => pure true
  | _ :: _, [] => pure false
  | t :: ts, c :: w => do
    if ← t.compare table c then compareSymbols table ts w else pure false

namespace Alternative

/-- Tries an alternative about the whole word and writes down what is compared. -/
def compareInWord (table : CategoryTable) (w : Word) : Trial (List Comparison) :=
  tryInWord (fun ts i => compareSymbols table ts (w.drop i)) w.length

/-- Tries an alternative around a place and writes down what is compared. -/
def compareAround (table : CategoryTable) (w : Word) (start len : Nat) :
    Trial (List Comparison) :=
  tryAround (fun ts i => compareSymbols table ts (w.drop i)) w.length start len

end Alternative

section
variable {table : CategoryTable} {kind : Comparison → Prop}

theorem records_compareSymbols {ts : List Symbol} (h : ∀ t ∈ ts, ∀ c, kind (t, c)) (w : Word) :
    Records kind (matchSymbols table ts w) (compareSymbols table ts w) := by
  induction ts generalizing w with
  | nil => exact records_pure true
  | cons t ts ih =>
    rw [List.forall_mem_cons] at h
    cases w with
    | nil => exact records_pure false
    | cons c w =>
      rw [matchSymbols, compareSymbols]
      refine records_bind (records_note (h.1 c) (records_lift _)) fun b => ?_
      cases b with
      | false => exact records_pure false
      | true => exact ih h.2 w

namespace Alternative
variable {alt : Alternative} (h : ∀ t ∈ alt, ∀ c, kind (t, c)) (w : Word)
include h

theorem records_compareInWord :
    Records kind (matchesInWord table w alt) (compareInWord table w alt) :=
  records_tryInWord fun _ hts _ _ => records_compareSymbols (fun t ht => h t (hts ht)) _

theorem records_compareAround (start len : Nat) :
    Records kind (matchesAround table w start len alt) (compareAround table w start len alt) :=
  records_tryAround (fun _ hts _ _ => records_compareSymbols (fun t ht => h t (hts ht)) _) start len

end Alternative

end

end SoundChange
