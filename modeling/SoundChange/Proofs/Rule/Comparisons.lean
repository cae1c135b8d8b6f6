import SoundChange.Proofs.Condition.Comparisons
import SoundChange.Proofs.Rule.Scan
import SoundChange.Proofs.Rule.Validity

/-!
# Rules applied with any trial of their conditions

A rule looks at a word through the alternatives of its conditions only, and at what its target is
found in. Here a rule is applied with anything that tries alternatives about a whole word and about
a place; where these come to what they should and write something down, so does the rule.

* `applyBy`: a rule applied with other trials.
* `records_applyBy`: what it comes to and what it writes down.
* `applyComparing`: a rule that writes down each symbol with the character it is compared with.
-/

set_option autoImplicit false

namespace SoundChange

open Verdict (Attempt Trial)

namespace Rule

section
variable {σ : Type}

/-- What stands for a character of the word, whose place is judged with the trial. -/
def pieceBy (r : Rule) (holds : Trial σ) (members : List Word) (change : Substitute)
    (elseChange : Option Substitute) (c : Char) : Attempt σ Word :=
  match members.idxOf? [c] with
  | none => pure [c]
  | some k => do
    let verdict ← r.verdict holds
    match verdict.select change elseChange with
    | some substitute => pure (substitute.forMember k)
    | none => pure [c]

/-- Applies a rule, with a trial for the word and one for each place of a word. -/
def applyBy (r : Rule) (table : CategoryTable) (inWord : Word → Trial σ)
    (around : Word → Nat → Nat → Trial σ) (w : Word) : Attempt σ Word :=
  match Pattern.targetShape? r.target with
  | some .wordEdge => do
    let verdict ← r.verdict (inWord w)
    match verdict.select r.change r.elseChange with
    | some change => .lift (changeAtEdge r.target change w)
    | none => pure w
  | some .members => do
    let members ← .lift (Pattern.members table r.target)
    let (change, elseChange) ← .lift (r.substitutes table)
    let pieces ← w.zipIdx.mapM fun (c, i) =>
      r.pieceBy (around w i 1) members change elseChange c
    pure pieces.flatten
  | some .text => do
    let change ← .lift (Pattern.asText r.change)
    let elseChange ← .lift (r.elseChange.mapM Pattern.asText)
    Word.spliceFrom (Pattern.text r.target)
      (fun current i => Verdict.select change elseChange <$>
        r.verdict (around current i (Pattern.text r.target).length))
      w 0
  | none => throw .unfitTarget

/-- Applies a rule and writes down what is compared. -/
def applyComparing (r : Rule) (table : CategoryTable) (w : Word) :
    Attempt (List Comparison) Word :=
  r.applyBy table (Alternative.compareInWord table) (Alternative.compareAround table) w

end

section
variable {β : Type} {kind : β → Prop} {r : Rule} {table : CategoryTable}

theorem records_pieceBy {w : Word} {i : Nat} {holds : Trial (List β)}
    (h : Records kind (r.verdict (Alternative.matchesAround table w i 1)) (r.verdict holds))
    (members : List Word) (change : Substitute) (elseChange : Option Substitute) (c : Char) :
    Records kind (r.pieceAt table members change elseChange w c i)
      (r.pieceBy holds members change elseChange c) := by
  rw [pieceAt, pieceBy]
  cases members.idxOf? [c] with
  | none => exact records_pure [c]
  | some k =>
    refine records_bind h fun v => ?_
    cases v.select change elseChange with
    | none => exact records_pure _
    | some substitute => exact records_pure _

theorem records_applyBy {inWord : Word → Trial (List β)}
    {around : Word → Nat → Nat → Trial (List β)}
    (hinWord : ∀ w, ∀ p ∈ r.conditions, ∀ alt ∈ Pattern.alternatives p,
      Records kind (Alternative.matchesInWord table w alt) (inWord w alt))
    (haround : ∀ w i len, ∀ p ∈ r.conditions, ∀ alt ∈ Pattern.alternatives p,
      Records kind (Alternative.matchesAround table w i len alt) (around w i len alt))
    (w : Word) : Records kind (r.apply table w) (r.applyBy table inWord around w) := by
  have hkind := compatible_records kind
  rw [apply, applyBy]
  cases Pattern.targetShape? r.target with
  | none => exact records_throw _
  | some shape =>
    cases shape with
    | wordEdge =>
      refine records_bind (hkind.verdict (hinWord w)) fun v => ?_
      cases v.select r.change r.elseChange with
      | none => exact records_pure w
      | some change => exact records_lift _
    | members =>
      refine records_bind (records_lift _) fun members => ?_
      refine records_bind (records_lift _) fun s => ?_
      refine records_bind (hkind.mapM fun q _ => ?_) fun pieces => records_pure _
      exact records_pieceBy (hkind.verdict (haround w q.2 1)) members s.1 s.2 q.1
    | text =>
      refine records_bind (records_lift _) fun change => ?_
      refine records_bind (records_lift _) fun elseChange => ?_
      refine hkind.spliceFrom (fun current i _ => ?_) w 0
      exact hkind.map _ (hkind.verdict (haround current i _))

end

/-- What a rule compares is in the alternatives of its conditions. -/
theorem records_applyComparing {kind : Comparison → Prop} {r : Rule} {table : CategoryTable}
    (h : ∀ p ∈ r.conditions, ∀ alt ∈ Pattern.alternatives p, ∀ t ∈ alt, ∀ c, kind (t, c))
    (w : Word) : Records kind (r.apply table w) (r.applyComparing table w) := by
  refine records_applyBy (fun w p hp alt halt => ?_) (fun w i len p hp alt halt => ?_) w
  · exact Alternative.records_compareInWord (h p hp alt halt) w
  · exact Alternative.records_compareAround (h p hp alt halt) w i len

end Rule

end SoundChange
