import SoundChange.Proofs.Rule.Comparisons
import SoundChange.Proofs.Rule.Faults
import SoundChange.Proofs.RuleLine.Reading

/-!
# Rules that a line can hold

A line is read only if commas, bars and loci stand where they mean something. So there are faults
that no rule of a line comes to at a place of a word, whatever the word is, and marks that are never
compared with a character.

* `targetShape?_eq_none_iff`: the targets of a line that have no shape.
* `fits_of_read`: what the reading of a line makes sure of.
* `apply_of_read`: what follows for the rule of the line.
-/

set_option autoImplicit false

namespace SoundChange

/-! ## Targets -/

namespace Pattern

theorem mentionsCategory_iff {p : Pattern} :
    mentionsCategory p = true ↔ ∃ letter, .category letter ∈ p := by
  rw [mentionsCategory, List.any_eq_true]
  constructor
  · rintro ⟨t, ht, hc⟩
    cases t with
    | category letter => exact ⟨letter, ht⟩
    | _ => cases hc
  · rintro ⟨letter, hl⟩
    exact ⟨_, hl, rfl⟩

theorem listsMembers_of_length_lt_two {p : Pattern} (hc : mentionsCategory p = true)
    (hlen : p.length < 2) : listsMembers p = true := by
  obtain ⟨letter, hl⟩ := mentionsCategory_iff.mp hc
  match p with
  | [t] =>
    rw [List.mem_singleton] at hl
    rw [← hl]
    rfl

section
variable {p : Pattern} (h : p.FitsOther)
include h

/-- With a comma a pattern is an inline category. -/
theorem isInlineCategory_of_comma (hcomma : .comma ∈ p) : isInlineCategory p = true := by
  obtain ⟨-, -, hmembers⟩ := h
  refine Bool.and_eq_true_iff.mpr ⟨List.contains_iff_mem.mpr hcomma, List.all_eq_true.mpr ?_⟩
  intro t ht
  by_cases htc : t = .comma
  · rw [htc]
    rfl
  · obtain ⟨member, hmember, htm⟩ := exists_mem_splitOn ht htc
    obtain ⟨-, htext⟩ := hmembers hcomma member hmember
    obtain ⟨c, rfl⟩ := Symbol.isLiteral_iff.mp (isLiteral_of_isText htext htm)
    rfl

/-- Without a word edge it is a text, lists members or has a category beside other symbols. -/
theorem isText_or_listsMembers_iff (he : .edge ∉ p) :
    isText p = true ∨ listsMembers p = true ↔ ¬ (mentionsCategory p = true ∧ 2 ≤ p.length) := by
  constructor
  · rintro hp ⟨hc, hlen⟩
    obtain ⟨letter, hl⟩ := mentionsCategory_iff.mp hc
    rcases hp with ht | hm
    · cases isLiteral_of_isText ht hl
    · rcases listsMembers_iff.mp hm with ⟨_, rfl⟩ | hi
      · exact absurd hlen (by simp)
      · obtain ⟨-, hall⟩ := Bool.and_eq_true_iff.mp hi
        cases List.all_eq_true.mp hall _ hl
  · intro hfew
    by_cases hcomma : .comma ∈ p
    · exact .inr (listsMembers_iff.mpr (.inr (isInlineCategory_of_comma h hcomma)))
    by_cases hc : mentionsCategory p = true
    · have hlen : p.length < 2 := Nat.lt_of_not_le fun hlen => hfew ⟨hc, hlen⟩
      exact .inr (listsMembers_of_length_lt_two hc hlen)
    · refine .inl (List.all_eq_true.mpr fun t ht => ?_)
      cases t with
      | literal c => rfl
      | category letter => exact absurd (mentionsCategory_iff.mpr ⟨letter, ht⟩) hc
      | comma => exact absurd ht hcomma
      | edge => exact absurd ht he
      | bar => exact absurd ht h.1
      | locus => exact absurd ht h.2.1

theorem targetShape?_eq_none_iff (hshape : targetShape? p ≠ some .wordEdge) :
    targetShape? p = none ↔
      2 ≤ edgeCount p ∨ (.edge ∈ p ∧ mentionsCategory p = true) ∨
        (.edge ∉ p ∧ mentionsCategory p = true ∧ 2 ≤ p.length) := by
  rw [targetShape?_of_ne_wordEdge hshape]
  rw [ne_eq, targetShape?_eq_wordEdge_iff] at hshape
  by_cases he : .edge ∈ p
  · have hpos : 0 < edgeCount p := List.count_pos_iff.mpr he
    rw [if_pos hpos]
    refine iff_of_true rfl ?_
    by_cases hc : mentionsCategory p = true
    · exact .inr (.inl ⟨he, hc⟩)
    · have hone : edgeCount p ≠ 1 := fun hone => hshape ⟨hone, Bool.eq_false_iff.mpr hc⟩
      exact .inl (by omega)
  · have hzero : edgeCount p = 0 := List.count_eq_zero.mpr he
    have hfits := isText_or_listsMembers_iff h he
    rw [if_neg (by omega)]
    constructor
    · intro hnone
      refine .inr (.inr ⟨he, not_not.mp fun hfew => ?_⟩)
      rcases hfits.mpr hfew with ht | hm
      · rw [listsMembers_eq_false_of_isText ht, if_neg Bool.false_ne_true, if_pos ht] at hnone
        cases hnone
      · rw [if_pos hm] at hnone
        cases hnone
    · rintro (hmany | ⟨hmem, -⟩ | ⟨-, hbeside⟩)
      · omega
      · exact absurd hmem he
      · have hneither := mt hfits.mp (not_not.mpr hbeside)
        rw [not_or] at hneither
        rw [if_neg hneither.2, if_neg hneither.1]

end

end Pattern

/-! ## Conditions -/

/-- In the alternatives of a condition of a line there are no commas and no bars, and there is no
second locus. -/
theorem Pattern.FitsCondition.alternative {p : Pattern} (h : p.FitsCondition) {alt : Alternative}
    (halt : alt ∈ alternatives p) : alt.count .locus ≤ 1 ∧ .comma ∉ alt ∧ .bar ∉ alt := by
  obtain ⟨hcomma, halts⟩ := h
  refine ⟨?_, fun hc => hcomma (mem_of_mem_alternatives halt hc), not_mem_of_mem_splitOn halt⟩
  rcases halts with rfl | halts
  · obtain rfl : alt = [] := List.mem_singleton.mp halt
    exact Nat.zero_le 1
  · exact (halts alt halt).2

namespace Rule

theorem fits_of_wellFormed {ps : List Pattern} {r : Rule} (h : RuleLine.WellFormed ps)
    (hr : ofPatterns? ps = some r) :
    r.target.FitsOther ∧ ∀ p ∈ r.conditions, p.FitsCondition := by
  have hfits := h.fits
  match ps, hr with
  | target :: change :: rest, hr =>
    obtain rfl := Option.some.inj hr
    refine ⟨hfits (.target, target) (.head _), fun p hp => ?_⟩
    rcases List.mem_append.mp hp with hp | hp
    · match rest, hp with
      | e :: rest, hp =>
        obtain rfl := List.mem_singleton.mp hp
        exact hfits (.environment, p) (.tail _ (.tail _ (.head _)))
    · match rest, hp with
      | e :: x :: rest, hp =>
        obtain rfl := List.mem_singleton.mp hp
        exact hfits (.exception, p) (.tail _ (.tail _ (.tail _ (.head _))))

theorem fits_of_read {line : List Char} {ps : List Pattern} {r : Rule}
    (hread : RuleLine.read line = .ok ps) (hr : ofPatterns? ps = some r) :
    r.target.FitsOther ∧ ∀ p ∈ r.conditions, p.FitsCondition := by
  cases ps with
  | nil => cases hr
  | cons p ps =>
    have hread := RuleLine.read_eq_ok_cons_iff.mp hread
    exact fits_of_wellFormed (RuleLine.wellFormed_and_spells_iff.mpr hread).1 hr

/-- Conditions of a line do not come to the fault of a second locus, and changes at a place to no
fault of a word edge. -/
theorem FaultAtPlaces.ne_of_fits {r : Rule} {fault : RuleFault} (h : r.FaultAtPlaces fault)
    (hconditions : ∀ p ∈ r.conditions, p.FitsCondition) :
    fault ≠ .locusInWordCondition ∧ fault ≠ .affixOnMoreThanEdge ∧ fault ≠ .textOnBothSides := by
  cases h with
  | condition hp halt hfault =>
    cases hfault with
    | secondLocus hmany =>
      exact absurd ((hconditions _ hp).alternative halt).1 (Nat.not_le_of_lt hmany)
    | _ => simp
  | _ => simp

/-- A rule of a line that is about places of a word comes to no fault of a whole word or of an
edge, and its target is unfit for all words or for none. No rule of a line compares a comma or a
bar with a character. -/
theorem apply_of_read {line : List Char} {ps : List Pattern} {r : Rule}
    (hread : RuleLine.read line = .ok ps) (hr : ofPatterns? ps = some r) (table : CategoryTable) :
    (¬ (Pattern.edgeCount r.target = 1 ∧ Pattern.mentionsCategory r.target = false) →
      (∀ w, r.apply table w ≠ .error .locusInWordCondition ∧
        r.apply table w ≠ .error .affixOnMoreThanEdge ∧
        r.apply table w ≠ .error .textOnBothSides) ∧
      ((∃ w, r.apply table w = .error .unfitTarget) ↔
        ∀ w, r.apply table w = .error .unfitTarget) ∧
      ((∃ w, r.apply table w = .error .unfitTarget) ↔
        2 ≤ Pattern.edgeCount r.target ∨
          (.edge ∈ r.target ∧ Pattern.mentionsCategory r.target = true) ∨
          (.edge ∉ r.target ∧ Pattern.mentionsCategory r.target = true ∧
            2 ≤ r.target.length))) ∧
    ∀ w, ∃ comparisons, (r.applyComparing table w).startedIn [] = (r.apply table w, comparisons) ∧
      ∀ comparison ∈ comparisons, comparison.1 ≠ .comma ∧ comparison.1 ≠ .bar := by
  obtain ⟨htarget, hconditions⟩ := fits_of_read hread hr
  constructor
  · intro hplaces
    have hshape : Pattern.targetShape? r.target ≠ some .wordEdge :=
      mt Pattern.targetShape?_eq_wordEdge_iff.mp hplaces
    have hunfit (w : Word) : r.apply table w = .error .unfitTarget ↔
        Pattern.targetShape? r.target = none := apply_eq_unfitTarget_iff hshape w
    refine ⟨fun w => ?_, ?_, ?_⟩
    · have hfault (fault : RuleFault) (h : r.apply table w = .error fault) :=
        (apply_faults hshape w fault h).ne_of_fits hconditions
      exact ⟨fun h => (hfault _ h).1 rfl, fun h => (hfault _ h).2.1 rfl,
        fun h => (hfault _ h).2.2 rfl⟩
    · simp only [hunfit, exists_const, forall_const]
    · simp only [hunfit, exists_const]
      exact Pattern.targetShape?_eq_none_iff htarget hshape
  · intro w
    have hrecords : Records (fun comparison : Comparison =>
        comparison.1 ≠ .comma ∧ comparison.1 ≠ .bar) (r.apply table w) (r.applyComparing table w) :=
      records_applyComparing (fun p hp alt halt t ht c => by
        obtain ⟨-, hcomma, hbar⟩ := (hconditions p hp).alternative halt
        exact ⟨fun h => hcomma (h ▸ ht), fun h => hbar (h ▸ ht)⟩) w
    exact hrecords []

/-- The rule `a,e/o,u/k_|_p`. -/
def roundedVowels : Rule where
  target := [.literal 'a', .comma, .literal 'e']
  change := [.literal 'o', .comma, .literal 'u']
  environment := some [.literal 'k', .locus, .bar, .locus, .literal 'p']
  exception := none
  elseChange := none

/-- The rule `VV/o`. -/
def longVowel : Rule :=
  ⟨[.category 'V', .category 'V'], [.literal 'o'], none, none, none⟩

/-- In `tep` two literals are compared, one for each alternative. The target of the rule `VV/o` is
unfit for all words. -/
theorem apply_of_read_roundedVowels :
    RuleLine.read "a,e/o,u/k_|_p".toList = .ok roundedVowels.patterns ∧
      (roundedVowels.applyComparing .empty "tep".toList).startedIn [] =
        (.ok "tup".toList, [(.literal 'k', 't'), (.literal 'p', 'p')]) ∧
      (∀ w, roundedVowels.apply .empty w ≠ .error .locusInWordCondition) ∧
      RuleLine.read "VV/o".toList = .ok longVowel.patterns ∧
      ∀ w, longVowel.apply .empty w = .error .unfitTarget := by
  have hrounded : RuleLine.read "a,e/o,u/k_|_p".toList = .ok roundedVowels.patterns := rfl
  have hlong : RuleLine.read "VV/o".toList = .ok longVowel.patterns := rfl
  obtain ⟨hfaults, -, -⟩ := (apply_of_read hrounded rfl .empty).1 (by decide)
  obtain ⟨-, hall, hunfit⟩ := (apply_of_read hlong rfl .empty).1 (by decide)
  exact ⟨hrounded, rfl, fun w => (hfaults w).1, hlong, hall.mp (hunfit.mpr (by decide))⟩

end Rule

end SoundChange
