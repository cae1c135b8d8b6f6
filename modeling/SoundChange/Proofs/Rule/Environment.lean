import SoundChange.Proofs.Rule.Affix
import SoundChange.Proofs.Rule.Scan
import SoundChange.Proofs.Rule.Simultaneous
import SoundChange.Proofs.Rule.Validity
import SoundChange.Proofs.Verdict

/-!
# Environments that ask for nothing

An environment that is absent asks for nothing, and so does an empty one; the locus alone and, for a
target with a word edge, the word edge alone hold wherever the rule tries them. These environments
do the same, but for an empty exception: beside it an environment that holds stands for the change,
and one that is absent or empty for the else-change.

* `TrialFor`, `Idle`: what a rule tries its conditions with, and the condition that always holds.
* `apply_given_congr`: two environments that lead to the same verdicts.
* `apply_of_selected`, `apply_of_nothing_selected`: a rule with one verdict for all places.
* `apply_given`: the environments that ask for nothing, one beside the other.
-/

set_option autoImplicit false

namespace SoundChange

/-! ## Conditions that always hold -/

/-- What a rule with the target tries the alternatives of its conditions with. -/
inductive TrialFor (table : CategoryTable) (target : Pattern) :
    (Alternative → Except RuleFault Bool) → Prop where
  | inWord : Pattern.edgeCount target = 1 → Pattern.mentionsCategory target = false →
      ∀ w, TrialFor table target (Alternative.matchesInWord table w)
  | atCharacter : Pattern.listsMembers target = true → ∀ {w : Word} {i : Nat}, i < w.length →
      TrialFor table target (Alternative.matchesAround table w i 1)
  | atOccurrence : Pattern.isText target = true →
      ∀ {w : Word} {i : Nat}, i + (Pattern.text target).length ≤ w.length →
      TrialFor table target (Alternative.matchesAround table w i (Pattern.text target).length)

/-- The condition that holds at all places of the target, which is no more than the place itself. -/
inductive Idle (target : Pattern) : Pattern → Prop where
  | members : Pattern.listsMembers target = true → Idle target [.locus]
  | text : Pattern.isText target = true → Idle target [.locus]
  | wordEdge : Pattern.edgeCount target = 1 → Pattern.mentionsCategory target = false →
      Idle target [.edge]

theorem Alternative.matchesAround_locus (table : CategoryTable) {w : Word} {start len : Nat}
    (h : start + len ≤ w.length) : matchesAround table w start len [.locus] = .ok true := by
  obtain ⟨l, x, r, rfl, rfl, rfl⟩ := exists_parts h
  rw [matchesAround_locus_cons, List.dropLast_nil, if_neg List.not_mem_nil]
  have hdecides : Decides (matchesBeside table (l ++ x ++ r) l.length x.length [] [])
      (FitsBefore table [] l ∧ FitsAfter table [] r) :=
    matchesBeside_decides (List.forall_mem_nil _) (List.forall_mem_nil _) l x r
  obtain ⟨b, hb, hholds⟩ := hdecides
  rw [hb, hholds.mpr ⟨fitsBefore_nil l, fitsAfter_nil r⟩]

theorem Alternative.matchesInWord_edge (table : CategoryTable) (w : Word) :
    matchesInWord table w [.edge] = .ok true := by
  have hdecides : Decides (matchesInWord table w [.edge]) (StartsWith table [] w) :=
    matchesInWord_edge_cons_decides (List.forall_mem_nil _) w
  obtain ⟨b, hb, hholds⟩ := hdecides
  rw [hb, hholds.mpr (startsWith_nil table w)]

section
variable {target idle : Pattern}

theorem Idle.alternativesOf (h : Idle target idle) :
    Verdict.alternativesOf (some idle) = [idle] := by
  cases h <;> rfl

theorem Idle.holds (h : Idle target idle) {table : CategoryTable}
    {holds : Alternative → Except RuleFault Bool} (htrial : TrialFor table target holds) :
    holds idle = .ok true := by
  have hnone (he : Pattern.edgeCount target = 1) : Pattern.edgeCount target ≠ 0 := by
    rw [he]
    exact Nat.one_ne_zero
  cases htrial with
  | inWord he hc w =>
    cases h with
    | members hm => exact absurd (Pattern.edgeCount_of_listsMembers hm) (hnone he)
    | text ht => exact absurd (Pattern.edgeCount_of_isText ht) (hnone he)
    | wordEdge => exact Alternative.matchesInWord_edge table w
  | atCharacter hm hi =>
    cases h with
    | members | text => exact Alternative.matchesAround_locus table hi
    | wordEdge he => exact absurd (Pattern.edgeCount_of_listsMembers hm) (hnone he)
  | atOccurrence ht hi =>
    cases h with
    | members | text => exact Alternative.matchesAround_locus table hi
    | wordEdge he => exact absurd (Pattern.edgeCount_of_isText ht) (hnone he)

end

/-! ## Searches -/

theorem Word.spliceFrom_pure_none {needle : Word} (w : Word) (start : Nat) :
    spliceFrom needle (fun _ _ => (pure none : Except RuleFault (Option Word))) w start =
      .ok w := by
  fun_induction spliceFrom needle
    (fun _ _ => (pure none : Except RuleFault (Option Word))) w start with
  | case1 w start hi => rfl
  | case2 w start i hi ihReplaced ihNext => exact ihNext

/-! ## Verdicts -/

namespace Rule

/-- The rule with another environment. -/
def given (r : Rule) (environment : Option Pattern) : Rule :=
  { r with environment }

/-- The rule without conditions. -/
def unconditional (target change : Pattern) : Rule :=
  ⟨target, change, none, none, none⟩

section
variable {r : Rule} {holds : Alternative → Except RuleFault Bool}

theorem verdict_given_none (r : Rule) (holds : Alternative → Except RuleFault Bool) :
    (r.given none).verdict holds = (do
      if ← (Verdict.alternativesOf r.exception).anyM holds then
        return .elseChange
      return Verdict.ofNoEnvironment r.exception) := rfl

theorem verdict_given_nil (r : Rule) (holds : Alternative → Except RuleFault Bool) :
    (r.given (some [])).verdict holds = (r.given none).verdict holds := rfl

theorem verdict_given_idle {idle : Pattern} (halts : Verdict.alternativesOf (some idle) = [idle])
    (hidle : holds idle = .ok true) :
    (r.given (some idle)).verdict holds = (do
      if ← (Verdict.alternativesOf r.exception).anyM holds then
        return .elseChange
      return .change) := by
  rw [verdict, Verdict.reach_eq]
  refine bind_congr fun b => ?_
  cases b with
  | true => rfl
  | false =>
    show Verdict.reachByEnvironment (some idle) r.exception holds = _
    rw [Verdict.reachByEnvironment, halts]
    show (do if ← ([idle] : List Alternative).anyM holds then _ else _) = _
    rw [List.anyM, hidle]
    rfl

end

/-! ## Rules with the same verdicts -/

section
variable {r : Rule} {table : CategoryTable} {e e' : Option Pattern}

/-- Only the verdicts that a rule asks for count of its environment. -/
theorem apply_given_congr {idle : Pattern} (hidle : Idle r.target idle)
    (h : ∀ holds, TrialFor table r.target holds →
      (r.given e').verdict holds = (r.given e).verdict holds) (w : Word) :
    (r.given e').apply table w = (r.given e).apply table w := by
  cases hidle with
  | members hm =>
    rw [apply_of_listsMembers (r := r.given e') table w hm,
      apply_of_listsMembers (r := r.given e) table w hm]
    refine bind_congr fun members => bind_congr fun s => ?_
    refine congrArg (· >>= _) (compatible_eq.mapM fun q hq => ?_)
    have hi : q.2 < w.length := by
      have := List.snd_lt_of_mem_zipIdx hq
      omega
    show (r.given e').pieceAt table members s.1 s.2 w q.1 q.2 =
      (r.given e).pieceAt table members s.1 s.2 w q.1 q.2
    rw [pieceAt, pieceAt, h _ (.atCharacter hm hi)]
  | text ht =>
    rw [apply_of_isText (r := r.given e') table w ht, apply_of_isText (r := r.given e) table w ht]
    refine bind_congr fun change => bind_congr fun other => ?_
    refine compatible_eq.spliceFrom (fun current i hi => ?_) w 0
    exact congrArg (Verdict.select change other <$> ·) (h _ (.atOccurrence ht hi))
  | wordEdge he hc =>
    rw [apply_of_edgeCount (r := r.given e') table w he hc,
      apply_of_edgeCount (r := r.given e) table w he hc, applyAtEdge, applyAtEdge,
      h _ (.inWord he hc w)]
    rfl

end

/-! ## Rules with one verdict -/

/-- The change and the else-change are such that the target can give way to them. At a word edge
that is asked of no more than the one that is selected, when it is. -/
def Resolves (table : CategoryTable) (r : Rule) : Prop :=
  (Pattern.listsMembers r.target = true → ∃ s, r.substitutes table = .ok s) ∧
    (Pattern.isText r.target = true → ∀ p ∈ r.changes, Pattern.isText p = true)

/-- What stands for a character where one substitute, or none, was chosen for all members. -/
def chosenPiece (members : List Word) (chosen : Option Substitute) (c : Char) : Word :=
  match members.idxOf? [c] with
  | none => [c]
  | some k => chosen.elim [c] (·.forMember k)

theorem chosenPiece_none (members : List Word) (c : Char) : chosenPiece members none c = [c] := by
  rw [chosenPiece]
  split <;> rfl

section
variable {r : Rule} {table : CategoryTable} {v : Verdict} {members : List Word}
  {change : Substitute} {elseChange : Option Substitute}

theorem select_substitutes (h : r.substitutes table = .ok (change, elseChange)) (v : Verdict) :
    (v.select r.change r.elseChange).mapM (Substitute.ofPattern table) =
      .ok (v.select change elseChange) := by
  obtain ⟨hchange, helse⟩ := ofPattern_of_substitutes h
  cases v with
  | change => exact congrArg (some <$> ·) hchange
  | elseChange => exact helse
  | keep => rfl

theorem substitutes_unconditional {p : Pattern} {s : Substitute}
    (h : Substitute.ofPattern table p = .ok s) (target : Pattern) :
    (unconditional target p).substitutes table = .ok (s, none) := by
  rw [substitutes]
  show Substitute.ofPattern table p >>= _ = _
  rw [h]
  rfl

theorem applyToMembers_of_verdict (hs : r.substitutes table = .ok (change, elseChange)) {w : Word}
    (hv : ∀ i < w.length, r.verdict (Alternative.matchesAround table w i 1) = .ok v)
    (members : List Word) :
    r.applyToMembers table members w =
      .ok (w.flatMap (chosenPiece members (v.select change elseChange))) := by
  have hpiece : ∀ q ∈ w.zipIdx, r.pieceAt table members change elseChange w q.1 q.2 =
      pure (chosenPiece members (v.select change elseChange) q.1) := by
    intro q hq
    have hi : q.2 < w.length := by
      have := List.snd_lt_of_mem_zipIdx hq
      omega
    cases hk : members.idxOf? [q.1] with
    | none =>
      rw [pieceAt_of_not_mem r table w q.2 (List.idxOf?_eq_none_iff.mp hk), chosenPiece, hk]
      rfl
    | some k =>
      rw [pieceAt_of_idxOf? r table w q.2 hk, hv q.2 hi, chosenPiece, hk]
      rfl
  rw [applyToMembers, hs]
  show List.flatten <$> (w.zipIdx.mapM fun q =>
    r.pieceAt table members change elseChange w q.1 q.2) = _
  rw [compatible_eq.mapM hpiece, List.mapM_pure]
  show Except.ok (w.zipIdx.map fun q => _).flatten = _
  rw [← List.flatMap_def, ← List.flatMap_map, List.zipIdx_map_fst]

/-! ### The change that was selected -/

section
variable (hv : ∀ holds, TrialFor table r.target holds → r.verdict holds = .ok v) (w : Word)
include hv

theorem applyToMembers_eq_elim (hm : Pattern.listsMembers r.target = true)
    (hresolves : ∃ s, r.substitutes table = .ok s) (members : List Word) :
    r.applyToMembers table members w =
      (v.select r.change r.elseChange).elim (.ok w) fun p =>
        (unconditional r.target p).applyToMembers table members w := by
  obtain ⟨⟨change, elseChange⟩, hs⟩ := hresolves
  have hselect := select_substitutes hs v
  rw [applyToMembers_of_verdict hs fun i hi => hv _ (.atCharacter hm hi)]
  cases hp : v.select r.change r.elseChange with
  | none =>
    rw [hp] at hselect
    rw [← Except.ok.inj hselect, List.flatMap_congr fun c _ => chosenPiece_none members c,
      List.flatMap_singleton']
    rfl
  | some p =>
    rw [hp] at hselect
    obtain ⟨s, hsome, hs⟩ := map_eq_ok_iff.mp hselect
    rw [← hs]
    exact (applyToMembers_of_verdict (v := .change) (substitutes_unconditional hsome r.target)
      (fun _ _ => rfl) members).symm

theorem applyToOccurrences_eq_elim (ht : Pattern.isText r.target = true)
    (hresolves : ∀ p ∈ r.changes, Pattern.isText p = true) :
    r.applyToOccurrences table (Pattern.text r.target) w =
      (v.select r.change r.elseChange).elim (.ok w) fun p =>
        (unconditional r.target p).applyToOccurrences table (Pattern.text r.target) w := by
  have hchange : Pattern.isText r.change = true := hresolves _ (.head _)
  have helse : ∀ p ∈ r.elseChange, Pattern.isText p = true := fun p hp =>
    hresolves p (.tail _ (Option.mem_toList.mpr hp))
  have hselected : ∀ (w : Word) (i : Nat), i + (Pattern.text r.target).length ≤ w.length →
      r.replacementAt table (Pattern.text r.target).length w i =
        .ok ((v.select r.change r.elseChange).map Pattern.text) := by
    intro w i hi
    rw [replacementAt, hv _ (.atOccurrence ht hi), ← select_map]
    rfl
  rw [applyToOccurrences_of_isText hchange helse, compatible_eq.spliceFrom hselected]
  cases hp : v.select r.change r.elseChange with
  | none => exact Word.spliceFrom_pure_none w 0
  | some p =>
    have hp : Pattern.isText p = true := hresolves p (select_mem_changes hp)
    exact (applyToOccurrences_of_isText (r := unconditional r.target p) hp
      (fun q hq => absurd hq (Option.not_mem_none q)) table _ w).symm

theorem applyAtEdge_eq_elim (he : Pattern.edgeCount r.target = 1)
    (hc : Pattern.mentionsCategory r.target = false) :
    r.applyAtEdge table w =
      (v.select r.change r.elseChange).elim (.ok w) fun p =>
        (unconditional r.target p).applyAtEdge table w := by
  rw [applyAtEdge_of_verdict (hv _ (.inWord he hc w))]
  refine congrArg _ (funext fun p => ?_)
  exact (applyAtEdge_of_verdict (r := unconditional r.target p) (v := .change) rfl).symm

/-- A rule with one verdict for all places does what the selected change does without conditions. -/
theorem apply_of_selected {idle : Pattern} (hidle : Idle r.target idle)
    (hresolves : r.Resolves table) {p : Pattern} (hp : v.select r.change r.elseChange = some p) :
    r.apply table w = (unconditional r.target p).apply table w := by
  cases hidle with
  | members hm =>
    rw [apply_of_listsMembers table w hm,
      apply_of_listsMembers (r := unconditional r.target p) table w hm]
    refine bind_congr fun members => ?_
    rw [applyToMembers_eq_elim hv w hm (hresolves.1 hm), hp]
    rfl
  | text ht =>
    rw [apply_of_isText table w ht, apply_of_isText (r := unconditional r.target p) table w ht,
      applyToOccurrences_eq_elim hv w ht (hresolves.2 ht), hp]
    rfl
  | wordEdge he hc =>
    rw [apply_of_edgeCount table w he hc,
      apply_of_edgeCount (r := unconditional r.target p) table w he hc,
      applyAtEdge_eq_elim hv w he hc, hp]
    rfl

theorem apply_of_nothing_selected {idle : Pattern} (hidle : Idle r.target idle)
    (hresolves : r.Resolves table)
    (hdefined : Pattern.listsMembers r.target = true →
      ∃ members, Pattern.members table r.target = .ok members)
    (hnone : v.select r.change r.elseChange = none) : r.apply table w = .ok w := by
  cases hidle with
  | members hm =>
    obtain ⟨members, hmembers⟩ := hdefined hm
    rw [apply_of_listsMembers table w hm, hmembers]
    show r.applyToMembers table members w = _
    rw [applyToMembers_eq_elim hv w hm (hresolves.1 hm), hnone]
    rfl
  | text ht =>
    rw [apply_of_isText table w ht, applyToOccurrences_eq_elim hv w ht (hresolves.2 ht), hnone]
    rfl
  | wordEdge he hc =>
    rw [apply_of_edgeCount table w he hc, applyAtEdge_eq_elim hv w he hc, hnone]
    rfl

end

end

/-! ## Rules with one environment or another -/

/-- A rule does the same without an environment, with an empty one and with the one that always
holds, if its exception is not empty. Beside an empty exception the first two stand for the
else-change without conditions, and the third one for the change. -/
theorem apply_given (r : Rule) {idle : Pattern} (hidle : Idle r.target idle)
    (table : CategoryTable) (w : Word) :
    (r.exception ≠ some [] →
      (r.given none).apply table w = (r.given (some idle)).apply table w ∧
      (r.given (some [])).apply table w = (r.given (some idle)).apply table w) ∧
    (r.exception = some [] → r.Resolves table →
      (∀ p, r.elseChange = some p →
        (r.given none).apply table w = (unconditional r.target p).apply table w ∧
        (r.given (some [])).apply table w = (unconditional r.target p).apply table w) ∧
      (r.elseChange = none →
        (Pattern.listsMembers r.target = true →
          ∃ members, Pattern.members table r.target = .ok members) →
        (r.given none).apply table w = .ok w ∧ (r.given (some [])).apply table w = .ok w) ∧
      (r.given (some idle)).apply table w = (unconditional r.target r.change).apply table w) := by
  have hempty : (r.given (some [])).apply table w = (r.given none).apply table w :=
    apply_given_congr hidle (fun holds _ => verdict_given_nil r holds) w
  have hmet := fun holds (htrial : TrialFor table r.target holds) =>
    verdict_given_idle (r := r) hidle.alternativesOf (hidle.holds htrial)
  rw [hempty]
  constructor
  · intro hexception
    have hsame : (r.given none).apply table w = (r.given (some idle)).apply table w := by
      refine apply_given_congr hidle (fun holds htrial => ?_) w
      rw [hmet holds htrial, verdict_given_none, Verdict.ofNoEnvironment, if_neg hexception]
    exact ⟨hsame, hsame⟩
  · intro hexception hresolves
    have habsent : ∀ holds, TrialFor table r.target holds →
        (r.given none).verdict holds = .ok .elseChange := by
      intro holds _
      rw [verdict_given_none, hexception]
      rfl
    have hpresent : ∀ holds, TrialFor table r.target holds →
        (r.given (some idle)).verdict holds = .ok .change := by
      intro holds htrial
      rw [hmet holds htrial, hexception]
      rfl
    refine ⟨fun p hp => ?_, fun hnone hdefined => ?_, ?_⟩
    · have happly := apply_of_selected (r := r.given none) habsent w hidle hresolves hp
      exact ⟨happly, happly⟩
    · have happly :=
        apply_of_nothing_selected (r := r.given none) habsent w hidle hresolves hdefined hnone
      exact ⟨happly, happly⟩
    · exact apply_of_selected (r := r.given (some idle)) hpresent w hidle hresolves rfl

/-- The rule `a/b///c`, whose exception is there but empty. -/
def elseEverywhere : Rule :=
  ⟨[.literal 'a'], [.literal 'b'], none, some [], some [.literal 'c']⟩

/-- The rule `#/s#//#b`, which adds a prefix. -/
def prefixed : Rule :=
  ⟨[.edge], [.literal 's', .edge], none, some [.edge, .literal 'b'], none⟩

/-- Without an environment the rule `a/b///c` does what `a/c` does, and with the environment `_`
what `a/b` does; the environment `#` makes no difference to the rule `#/s#//#b`. -/
theorem apply_given_elseEverywhere :
    elseEverywhere.Resolves .empty ∧
      ((elseEverywhere.given none).apply .empty "aha".toList).toOption = some "chc".toList ∧
      ((elseEverywhere.given (some [])).apply .empty "aha".toList).toOption =
        some "chc".toList ∧
      ((elseEverywhere.given (some [.locus])).apply .empty "aha".toList).toOption =
        some "bhb".toList ∧
      (prefixed.given none).apply .empty "park".toList = .ok "spark".toList ∧
      (prefixed.given none).apply .empty "bark".toList = .ok "bark".toList ∧
      ∀ w, (prefixed.given (some [.edge])).apply .empty w =
        (prefixed.given none).apply .empty w := by
  have hresolves : elseEverywhere.Resolves .empty := ⟨nofun, by decide⟩
  obtain ⟨-, hempty⟩ := apply_given elseEverywhere (.text rfl) .empty "aha".toList
  obtain ⟨habsent, -, hpresent⟩ := hempty rfl hresolves
  obtain ⟨hnone, hnil⟩ := habsent _ rfl
  refine ⟨hresolves, ?_, ?_, ?_, rfl, rfl, fun w => ?_⟩
  · rw [hnone]
    decide +kernel
  · rw [hnil]
    decide +kernel
  · rw [hpresent]
    decide +kernel
  · exact ((apply_given prefixed (.wordEdge rfl rfl) .empty w).1 (by decide)).1.symm

end Rule

end SoundChange
