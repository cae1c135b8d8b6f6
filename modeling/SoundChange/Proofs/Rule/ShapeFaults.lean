import SoundChange.Proofs.Rule.Comparisons
import SoundChange.Proofs.Rule.Faults
import SoundChange.Proofs.Rule.Simultaneous

/-!
# Faults of shape and faults of conditions

A rule that is about places of a word looks at its target and its changes first. What is wrong with
them is a fault for every word, before a condition is tried; where nothing is wrong with them, only
a condition can be at fault, and conditions are tried only where the target is found.

* `OfShape`, `OfCondition`, `FoundIn`: the two kinds of faults, and words with the target.
* `FailsUntried`: a fault that does not wait for a condition.
* `FailureMode`, `failureMode_of_targetShape?`: a rule has faults of the one kind or of the other.
* `apply_faults_of_shape_or_condition`: what follows for two words.
-/

set_option autoImplicit false

namespace SoundChange

open Verdict (Trial)

/-- One of the members that the pattern lists is a character of the word, or the pattern is a text
that stands somewhere in it. -/
inductive Pattern.FoundIn (table : CategoryTable) (w : Word) (p : Pattern) : Prop where
  | member {members : List Word} {c : Char} : Lists table p members → c ∈ w → [c] ∈ members →
      FoundIn table w p
  | text : isText p = true → text p <:+: w → FoundIn table w p

/-! ## Categories that are defined -/

section
variable {table : CategoryTable} {p : Pattern} {letter : Char} (hl : .category letter ∈ p)
include hl

theorem Pattern.Lists.get?_ne_none {members : List Word} (h : Lists table p members) :
    table.get? letter ≠ none := by
  cases h with
  | named hm =>
    obtain rfl := Symbol.category.inj (List.mem_singleton.mp hl)
    rw [hm]
    exact Option.some_ne_none members
  | inline h =>
    obtain ⟨-, hall⟩ := Bool.and_eq_true_iff.mp h
    cases List.all_eq_true.mp hall _ hl

theorem Substitute.get?_ne_none {s : Substitute} (h : ofPattern table p = .ok s) :
    table.get? letter ≠ none := by
  rw [ofPattern] at h
  split at h
  case isTrue hlists =>
    obtain ⟨members, hm, -⟩ := map_eq_ok_iff.mp h
    exact (Pattern.lists_iff.mpr ⟨hlists, hm⟩).get?_ne_none hl
  case isFalse =>
    split at h
    case isTrue ht => cases Pattern.isLiteral_of_isText ht hl
    case isFalse => cases h

end

namespace Rule

/-- The faults that are about the target and the changes of a rule. -/
inductive OfShape (r : Rule) : RuleFault → Prop where
  | unfitTarget : OfShape r .unfitTarget
  | unfitChange : OfShape r .unfitChange
  | elseChangeUnlikeChange : OfShape r .elseChangeUnlikeChange
  | unknownCategory {p : Pattern} {letter : Char} : Pattern.listsMembers r.target = true →
      p ∈ r.target :: r.changes → .category letter ∈ p → OfShape r (.unknownCategory letter)

/-- The faults that can come up when an alternative of a condition is tried; a category that is said
to be unknown there is not defined. -/
def OfCondition (r : Rule) (table : CategoryTable) (fault : RuleFault) : Prop :=
  fault.NamesUndefined table ∧
    ∃ p ∈ r.conditions, ∃ alt ∈ Pattern.alternatives p, alt.FaultAround fault

/-- The rule comes to the fault whatever its conditions are tried with, and tries none of them. -/
def FailsUntried (r : Rule) (table : CategoryTable) (fault : RuleFault) (w : Word) : Prop :=
  ∀ (σ : Type) (inWord : Word → Trial σ) (around : Word → Nat → Nat → Trial σ) (s : σ),
    (r.applyBy table inWord around w).startedIn s = (.error fault, s)

/-- How a rule that is about places of a word can fail: always with the same fault and before a
condition is tried, or only with faults of conditions and where the target is found. -/
inductive FailureMode (r : Rule) (table : CategoryTable) : Prop where
  | untried {fault : RuleFault} : r.OfShape fault → (∀ w, r.FailsUntried table fault w) →
      FailureMode r table
  | atPlaces : (∀ fault, r.OfShape fault → ¬ r.OfCondition table fault) →
      (∀ w, FaultsIn (fun fault => r.OfCondition table fault ∧ Pattern.FoundIn table w r.target)
        (r.apply table w)) → FailureMode r table

section
variable {r : Rule} {table : CategoryTable}

/-! ## Before a condition is tried -/

theorem FailsUntried.apply_eq {fault : RuleFault} {w : Word} (h : r.FailsUntried table fault w) :
    r.apply table w = .error fault := by
  have hrecords : Records (fun _ : Unit => False) (r.apply table w)
      (r.applyBy table (fun w alt => .lift (Alternative.matchesInWord table w alt))
        (fun w i len alt => .lift (Alternative.matchesAround table w i len alt)) w) :=
    records_applyBy (fun _ _ _ _ _ => records_lift _) (fun _ _ _ _ _ _ _ => records_lift _) w
  obtain ⟨entries, hstarted, -⟩ := hrecords []
  rw [h] at hstarted
  exact (congrArg Prod.fst hstarted).symm

theorem failsUntried_of_targetShape? (hnone : Pattern.targetShape? r.target = none) (w : Word) :
    r.FailsUntried table .unfitTarget w := by
  intro σ inWord around s
  rw [applyBy, hnone]
  rfl

theorem failsUntried_of_members {fault : RuleFault} (hm : Pattern.listsMembers r.target = true)
    (h : Pattern.members table r.target = .error fault) (w : Word) :
    r.FailsUntried table fault w := by
  intro σ inWord around s
  rw [applyBy, Pattern.targetShape?_of_listsMembers hm, h]
  rfl

theorem failsUntried_of_substitutes {fault : RuleFault} {members : List Word}
    (hlists : Pattern.Lists table r.target members) (h : r.substitutes table = .error fault)
    (w : Word) : r.FailsUntried table fault w := by
  intro σ inWord around s
  obtain ⟨hm, hmembers⟩ := Pattern.lists_iff.mp hlists
  rw [applyBy, Pattern.targetShape?_of_listsMembers hm, hmembers, h]
  rfl

theorem failsUntried_of_not_isText (ht : Pattern.isText r.target = true) {p : Pattern}
    (hp : p ∈ r.changes) (h : Pattern.isText p = false) (w : Word) :
    r.FailsUntried table .unfitChange w := by
  intro σ inWord around s
  rw [applyBy, Pattern.targetShape?_of_isText ht]
  cases hchange : Pattern.isText r.change with
  | false =>
    rw [Pattern.asText_of_isText_eq_false hchange]
    rfl
  | true =>
    rcases List.mem_cons.mp hp with rfl | hp
    · rw [h] at hchange
      cases hchange
    · have helse : r.elseChange.mapM Pattern.asText = .error .unfitChange := by
        rw [Option.mem_toList.mp hp]
        exact map_eq_error_iff.mpr (Pattern.asText_of_isText_eq_false h)
      rw [Pattern.asText_of_isText hchange, helse]
      rfl

/-! ## Where a condition is tried -/

theorem verdict_around_ofCondition (w : Word) (start len : Nat) :
    FaultsIn (r.OfCondition table) (r.verdict (Alternative.matchesAround table w start len)) :=
  (compatible_faultsIn _).verdict (g := Alternative.matchesAround table w start len)
    fun p hp alt halt fault h =>
      ⟨Alternative.matchesAround_namesUndefined alt w start len fault h,
        p, hp, alt, halt, Alternative.matchesAround_faults alt w start len fault h⟩

theorem apply_faults_at_members {members : List Word} {change : Substitute}
    {elseChange : Option Substitute} (hlists : Pattern.Lists table r.target members)
    (hs : r.substitutes table = .ok (change, elseChange)) (w : Word) :
    FaultsIn (fun fault => r.OfCondition table fault ∧ Pattern.FoundIn table w r.target)
      (r.apply table w) := by
  intro fault h
  rw [apply_eq_pieces hs hlists, map_eq_error_iff, mapM_range_eq_error_iff] at h
  obtain ⟨i, hi, hpiece, -⟩ := h
  obtain ⟨c, hc, hmember, hverdict⟩ := (pieceOf_eq_error_iff hi).mp hpiece
  exact ⟨verdict_around_ofCondition w i 1 fault hverdict,
    .member hlists (List.mem_of_getElem? hc) hmember⟩

theorem apply_faults_at_occurrences (ht : Pattern.isText r.target = true)
    (hchanges : ∀ p ∈ r.changes, Pattern.isText p = true) (w : Word) :
    FaultsIn (fun fault => r.OfCondition table fault ∧ Pattern.FoundIn table w r.target)
      (r.apply table w) := by
  rw [apply_of_isText table w ht, applyToOccurrences_of_isText (hchanges _ (.head _))
    fun p hp => hchanges p (.tail _ (Option.mem_toList.mpr hp))]
  cases hi : Word.indexFrom? (Pattern.text r.target) w 0 with
  | none =>
    rw [Word.spliceFrom_of_none hi]
    exact faultsIn_ok w
  | some i =>
    -- The word changes on the way, but what is found first is found in the word as it was.
    obtain ⟨-, -, hstarts⟩ := Word.indexFrom?_eq_some hi
    have hfound : Pattern.FoundIn table w r.target :=
      .text ht (hstarts.isInfix.trans (List.drop_suffix i w).isInfix)
    refine FaultsIn.mono ?_ fun fault h => ⟨h, hfound⟩
    refine (compatible_faultsIn _).spliceFrom
      (g := r.replacementAt table (Pattern.text r.target).length) (fun current i _ => ?_) w 0
    exact faultsIn_map _ (verdict_around_ofCondition current i _)

/-! ## The one or the other -/

/-- Where the categories of target and changes are defined, a fault of shape is none of a
condition. -/
theorem OfShape.not_ofCondition {fault : RuleFault} (h : r.OfShape fault)
    (hdefined : Pattern.listsMembers r.target = true → ∀ p ∈ r.target :: r.changes, ∀ letter,
      .category letter ∈ p → table.get? letter ≠ none) :
    ¬ r.OfCondition table fault := by
  rintro ⟨hundefined, _, _, _, _, hcause⟩
  cases h with
  | unknownCategory hm hp hl => exact hdefined hm _ hp _ hl (hundefined _ rfl)
  | _ => cases hcause

theorem exists_ofPattern_of_mem_changes {change : Substitute} {elseChange : Option Substitute}
    (hs : r.substitutes table = .ok (change, elseChange)) {p : Pattern} (hp : p ∈ r.changes) :
    ∃ s, Substitute.ofPattern table p = .ok s := by
  obtain ⟨hchange, helse⟩ := ofPattern_of_substitutes hs
  rcases List.mem_cons.mp hp with rfl | hp
  · exact ⟨change, hchange⟩
  · rw [Option.mem_toList.mp hp] at helse
    obtain ⟨s, hs, -⟩ := map_eq_ok_iff.mp helse
    exact ⟨s, hs⟩

theorem failureMode_of_listsMembers (hm : Pattern.listsMembers r.target = true) :
    r.FailureMode table := by
  cases hmembers : Pattern.members table r.target with
  | error fault =>
    have hunknown : ∀ letter, .category letter ∈ r.target → r.OfShape (.unknownCategory letter) :=
      fun _ hl => .unknownCategory hm (.head _) hl
    exact .untried (members_faultsIn hunknown fault hmembers) (failsUntried_of_members hm hmembers)
  | ok members =>
    have hlists : Pattern.Lists table r.target members := Pattern.lists_iff.mpr ⟨hm, hmembers⟩
    cases hs : r.substitutes table with
    | error fault =>
      have hunknown : ∀ p ∈ r.changes, ∀ letter, .category letter ∈ p →
          r.OfShape (.unknownCategory letter) :=
        fun _ hp _ hl => .unknownCategory hm (.tail _ hp) hl
      refine .untried ?_ (failsUntried_of_substitutes hlists hs)
      exact substitutes_faultsIn .unfitChange .elseChangeUnlikeChange hunknown fault hs
    | ok s =>
      refine .atPlaces (fun fault h => h.not_ofCondition fun _ => ?_)
        (apply_faults_at_members hlists hs)
      refine List.forall_mem_cons.mpr
        ⟨fun _ hl => hlists.get?_ne_none hl, fun p hp _ hl => ?_⟩
      obtain ⟨s, hs⟩ := exists_ofPattern_of_mem_changes hs hp
      exact Substitute.get?_ne_none hl hs

theorem failureMode_of_isText (ht : Pattern.isText r.target = true) : r.FailureMode table := by
  by_cases hchanges : ∀ p ∈ r.changes, Pattern.isText p = true
  · refine .atPlaces (fun fault h => h.not_ofCondition fun hm => ?_)
      (apply_faults_at_occurrences ht hchanges)
    rw [Pattern.listsMembers_eq_false_of_isText ht] at hm
    cases hm
  · push Not at hchanges
    obtain ⟨p, hp, hne⟩ := hchanges
    exact .untried .unfitChange (failsUntried_of_not_isText ht hp (Bool.eq_false_iff.mpr hne))

theorem failureMode_of_targetShape? (hshape : Pattern.targetShape? r.target ≠ some .wordEdge) :
    r.FailureMode table := by
  by_cases hm : Pattern.listsMembers r.target = true
  · exact failureMode_of_listsMembers hm
  by_cases ht : Pattern.isText r.target = true
  · exact failureMode_of_isText ht
  · refine .untried .unfitTarget (failsUntried_of_targetShape? ?_)
    rw [Pattern.targetShape?_of_ne_wordEdge hshape, if_neg hm, if_neg ht, ite_self]

end

/-! ## Two words -/

/-- What is wrong with the target or a change of a rule about places of a word is a fault for every
word or for none, and for every word before a condition is tried. All other faults are those of
conditions, and only words in which the target is found have them. -/
theorem apply_faults_of_shape_or_condition (r : Rule) (table : CategoryTable)
    (hplaces : ¬ (Pattern.edgeCount r.target = 1 ∧ Pattern.mentionsCategory r.target = false)) :
    (∀ fault, r.OfShape fault → ∀ w w',
      (r.apply table w = .error fault ↔ r.apply table w' = .error fault) ∧
        (r.apply table w = .error fault → r.FailsUntried table fault w)) ∧
    ∀ w fault, r.apply table w = .error fault → ¬ r.OfShape fault →
      r.OfCondition table fault ∧ Pattern.FoundIn table w r.target := by
  have hmode : r.FailureMode table :=
    failureMode_of_targetShape? (mt Pattern.targetShape?_eq_wordEdge_iff.mp hplaces)
  cases hmode with
  | @untried cause hshape huntried =>
    have happly (w : Word) : r.apply table w = .error cause := (huntried w).apply_eq
    have heq {fault : RuleFault} {w : Word} (h : r.apply table w = .error fault) : cause = fault :=
      Except.error.inj ((happly w).symm.trans h)
    refine ⟨fun fault _ w w' => ⟨by rw [happly w, happly w'], fun h => ?_⟩,
      fun w fault h hother => ?_⟩
    · exact heq h ▸ huntried w
    · exact absurd (heq h ▸ hshape) hother
  | atPlaces hdistinct hfaults =>
    have hnever {fault : RuleFault} (h : r.OfShape fault) (w : Word) :
        r.apply table w ≠ .error fault :=
      fun happly => hdistinct fault h (hfaults w fault happly).1
    refine ⟨fun fault h w w' => ⟨iff_of_false (hnever h w) (hnever h w'), fun happly => ?_⟩,
      fun w fault happly _ => hfaults w fault happly⟩
    exact absurd happly (hnever h w)

/-- The category `V=ae`. -/
def frontVowels : CategoryTable :=
  CategoryTable.empty.insert 'V' [['a'], ['e']]

/-- The rule that changes `V` in the environment `_N`. -/
def beforeNasal (change : Pattern) : Rule :=
  ⟨[.category 'V'], change, some [.locus, .category 'N'], none, none⟩

/-- A change to `W`, which is not defined, fails for all words. With the change `o` there is no
fault until a vowel comes before a character that is compared with `N`. -/
theorem apply_faults_of_shape_or_condition_beforeNasal :
    (∀ w, (beforeNasal [.category 'W']).apply frontVowels w = .error (.unknownCategory 'W')) ∧
      (beforeNasal [.category 'W']).FailsUntried frontVowels (.unknownCategory 'W') [] ∧
      (beforeNasal [.literal 'o']).apply frontVowels "kta".toList = .ok "kta".toList ∧
      (beforeNasal [.literal 'o']).OfCondition frontVowels (.unknownCategory 'N') ∧
      Pattern.FoundIn frontVowels "kat".toList [.category 'V'] := by
  obtain ⟨hshape, -⟩ :=
    apply_faults_of_shape_or_condition (beforeNasal [.category 'W']) frontVowels (by decide)
  have hchange : (beforeNasal [.category 'W']).OfShape (.unknownCategory 'W') :=
    .unknownCategory rfl (.tail _ (.head _)) (.head _)
  obtain ⟨-, hother⟩ :=
    apply_faults_of_shape_or_condition (beforeNasal [.literal 'o']) frontVowels (by decide)
  have hnasal : ¬ (beforeNasal [.literal 'o']).OfShape (.unknownCategory 'N') := by
    have hnone : ∀ p ∈ [[.category 'V'], [.literal 'o']], Symbol.category 'N' ∉ p := by decide
    intro h
    cases h with
    | unknownCategory _ hp hl => exact hnone _ hp hl
  obtain ⟨hcondition, hfound⟩ := hother "kat".toList (.unknownCategory 'N') rfl hnasal
  exact ⟨fun w => (hshape _ hchange w []).1.mpr rfl, (hshape _ hchange [] []).2 rfl, rfl,
    hcondition, hfound⟩

end Rule

end SoundChange
