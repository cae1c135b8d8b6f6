import SoundChange.Proofs.Rule.Shape

/-!
# Affixes and the edges of a word

What comes of a rule about word edges, case by case. Its conditions come first, and a fault in them
is the fault of the rule; then the change that they select, if they select one; the target is looked
at last, and no further than the change asks for it. So a change that is not selected and a target
that is not asked for may be of any shape.

* `ChangedAtEdge`, `AppliedAtEdge`: the cases of a selected change and those of a rule.
* `changeAtEdge_eq_iff`: a change comes to what one of its cases says.
* `apply_at_edge_iff`: so does a rule.
-/

set_option autoImplicit false

namespace SoundChange

/-! ## Literals on both sides of an edge -/

/-- The literals of the pattern in front of a word edge and those behind it. -/
def Pattern.LiteralsAround (p : Pattern) (before after : Word) : Prop :=
  ∃ front back, p = front ++ .edge :: back ∧ text front = before ∧ text back = after

namespace Pattern

theorem literalsAround_iff {p : Pattern} (h : edgeCount p = 1) {before after : Word} :
    p.LiteralsAround before after ↔ aroundEdge p = (before, after) := by
  constructor
  · rintro ⟨front, back, rfl, rfl, rfl⟩
    exact aroundEdge_append (edgeCount_append_edge.mp h).1 back
  · intro haround
    obtain ⟨front, back, rfl, hfront, -⟩ := exists_append_edge h
    rw [aroundEdge_append hfront] at haround
    cases haround
    exact ⟨front, back, rfl, rfl, rfl⟩

/-- Literals and word edges without a word edge are a text. -/
theorem eq_map_literal_of_edge_not_mem {p : Pattern}
    (hall : ∀ t ∈ p, t.isLiteralOrEdge = true) (he : .edge ∉ p) : p = (text p).map .literal := by
  refine eq_map_literal_of_isText (List.all_eq_true.mpr fun t ht => ?_)
  cases t with
  | literal c => rfl
  | edge => exact absurd ht he
  | _ => exact hall _ ht

end Pattern

namespace Rule

/-! ## Cases -/

/-- What becomes of a word where `change` was selected for a target that has one word edge. -/
inductive ChangedAtEdge (target : Pattern) (w : Word) : Pattern → Except RuleFault Word → Prop where
  /-- A change has literals and word edges only. -/
  | foreign {change : Pattern} {t : Symbol} : t ∈ change → t.isLiteralOrEdge = false →
      ChangedAtEdge target w change (.error .unfitChange)
  /-- It has no more than one word edge. -/
  | edges {change : Pattern} : 1 < Pattern.edgeCount change →
      ChangedAtEdge target w change (.error .unfitChange)
  /-- A word edge in the change stands for the word, where the target is a word edge too. -/
  | affix {front back : Word} : target = [.edge] →
      ChangedAtEdge target w (front.map .literal ++ .edge :: back.map .literal)
        (.ok (front ++ w ++ back))
  | affixOnMore {front back : Word} : target ≠ [.edge] →
      ChangedAtEdge target w (front.map .literal ++ .edge :: back.map .literal)
        (.error .affixOnMoreThanEdge)
  /-- A text takes the place of what the target has beside its edge, on one side only. -/
  | bothSides {text before after : Word} : target.LiteralsAround before after →
      before ≠ [] → after ≠ [] →
      ChangedAtEdge target w (text.map .literal) (.error .textOnBothSides)
  | whole {text : Word} : target.LiteralsAround [] [] →
      ChangedAtEdge target w (text.map .literal) (.ok text)
  | beginning {text after rest : Word} : target.LiteralsAround [] after → after ≠ [] →
      w = after ++ rest → ChangedAtEdge target w (text.map .literal) (.ok (text ++ rest))
  | otherBeginning {text after : Word} : target.LiteralsAround [] after → after ≠ [] →
      ¬ after <+: w → ChangedAtEdge target w (text.map .literal) (.ok w)
  | ending {text before rest : Word} : target.LiteralsAround before [] → before ≠ [] →
      w = rest ++ before → ChangedAtEdge target w (text.map .literal) (.ok (rest ++ text))
  | otherEnding {text before : Word} : target.LiteralsAround before [] → before ≠ [] →
      ¬ before <:+ w → ChangedAtEdge target w (text.map .literal) (.ok w)

/-- What becomes of a word under a rule about word edges. -/
inductive AppliedAtEdge (r : Rule) (table : CategoryTable) (w : Word) :
    Except RuleFault Word → Prop where
  /-- The conditions are decided first, on the whole word. -/
  | fault {fault : RuleFault} : r.verdict (Alternative.matchesInWord table w) = .error fault →
      AppliedAtEdge r table w (.error fault)
  /-- A word for which they select nothing is left alone. -/
  | keep : r.verdict (Alternative.matchesInWord table w) = .ok .keep →
      AppliedAtEdge r table w (.ok w)
  | noElseChange : r.verdict (Alternative.matchesInWord table w) = .ok .elseChange →
      r.elseChange = none → AppliedAtEdge r table w (.ok w)
  /-- Of the change and the else-change only the selected one counts. -/
  | change {outcome : Except RuleFault Word} :
      r.verdict (Alternative.matchesInWord table w) = .ok .change →
      ChangedAtEdge r.target w r.change outcome → AppliedAtEdge r table w outcome
  | elseChange {change : Pattern} {outcome : Except RuleFault Word} :
      r.verdict (Alternative.matchesInWord table w) = .ok .elseChange →
      r.elseChange = some change → ChangedAtEdge r.target w change outcome →
      AppliedAtEdge r table w outcome

/-! ## Changes -/

section
variable {target change : Pattern} {w : Word} {outcome : Except RuleFault Word}

/-- The cases of a text by what the target has beside its edge. -/
theorem changedAtEdge_replaceAtEdge (h : Pattern.edgeCount target = 1) (text w : Word) :
    ChangedAtEdge target w (text.map .literal) (replaceAtEdge target text w) := by
  cases haround : Pattern.aroundEdge target with | mk before after
  have hsides := (Pattern.literalsAround_iff h).mpr haround
  by_cases hb : before = [] <;> by_cases ha : after = []
  · subst hb ha
    rw [replaceAtEdge_of_bare haround]
    exact .whole hsides
  · subst hb
    rw [replaceAtEdge_of_after haround ha]
    cases hw : after.isPrefixOf? w with
    | some rest =>
      exact .beginning hsides ha (List.isPrefixOf?_eq_some_iff_append_eq.mp hw).symm
    | none => exact .otherBeginning hsides ha (Word.isPrefixOf?_eq_none_iff.mp hw)
  · subst ha
    rw [replaceAtEdge_of_before haround hb]
    cases hw : before.isSuffixOf? w with
    | some rest => exact .ending hsides hb (List.isSuffixOf?_eq_some_iff_append_eq.mp hw).symm
    | none => exact .otherEnding hsides hb (Word.isSuffixOf?_eq_none_iff.mp hw)
  · rw [replaceAtEdge_of_sides haround hb ha]
    exact .bothSides hsides hb ha

/-- No change is left out by the cases. -/
theorem changedAtEdge_changeAtEdge (h : Pattern.edgeCount target = 1) (change : Pattern)
    (w : Word) : ChangedAtEdge target w change (changeAtEdge target change w) := by
  by_cases hforeign : ∃ t ∈ change, Symbol.isLiteralOrEdge t = false
  · obtain ⟨t, ht, hn⟩ := hforeign
    rw [changeAtEdge_of_not_isLiteralOrEdge target ht hn]
    exact .foreign ht hn
  have hall : ∀ t ∈ change, Symbol.isLiteralOrEdge t = true := by simpa using hforeign
  rcases Nat.lt_trichotomy (Pattern.edgeCount change) 1 with hzero | hone | hmany
  · have he : .edge ∉ change := List.count_eq_zero.mp (Nat.lt_one_iff.mp hzero)
    rw [Pattern.eq_map_literal_of_edge_not_mem hall he,
      changeAtEdge_of_isText target (Pattern.isText_map_literal _), Pattern.text_map_literal]
    exact changedAtEdge_replaceAtEdge h _ w
  · obtain ⟨front, back, rfl, hfront, hback⟩ := Pattern.exists_append_edge hone
    rw [List.forall_mem_append, List.forall_mem_cons] at hall
    rw [Pattern.eq_map_literal_of_edge_not_mem hall.1 hfront,
      Pattern.eq_map_literal_of_edge_not_mem hall.2.2 hback, changeAtEdge_of_affix]
    split
    case isTrue htarget => exact .affix htarget
    case isFalse htarget => exact .affixOnMore htarget
  · rw [changeAtEdge_of_edges target hmany]
    exact .edges hmany

theorem changeAtEdge_map_literal (target : Pattern) (text w : Word) :
    changeAtEdge target (text.map .literal) w = replaceAtEdge target text w := by
  rw [changeAtEdge_of_isText target (Pattern.isText_map_literal text), Pattern.text_map_literal]

/-- A change comes to what the case says that it falls under. -/
theorem changeAtEdge_eq_iff (h : Pattern.edgeCount target = 1) :
    changeAtEdge target change w = outcome ↔ ChangedAtEdge target w change outcome := by
  constructor
  · rintro rfl
    exact changedAtEdge_changeAtEdge h change w
  · intro hcase
    have haround {before after : Word} (hsides : target.LiteralsAround before after) :=
      (Pattern.literalsAround_iff h).mp hsides
    cases hcase with
    | foreign ht hn => exact changeAtEdge_of_not_isLiteralOrEdge target ht hn w
    | edges hmany => exact changeAtEdge_of_edges target hmany w
    | affix htarget => rw [changeAtEdge_of_affix, if_pos htarget]
    | affixOnMore htarget => rw [changeAtEdge_of_affix, if_neg htarget]
    | bothSides hsides hb ha =>
      rw [changeAtEdge_map_literal, replaceAtEdge_of_sides (haround hsides) hb ha]
    | whole hsides => rw [changeAtEdge_map_literal, replaceAtEdge_of_bare (haround hsides)]
    | beginning hsides ha hw =>
      rw [changeAtEdge_map_literal, replaceAtEdge_of_after (haround hsides) ha,
        List.isPrefixOf?_eq_some_iff_append_eq.mpr hw.symm]
      rfl
    | otherBeginning hsides ha hw =>
      rw [changeAtEdge_map_literal, replaceAtEdge_of_after (haround hsides) ha,
        Word.isPrefixOf?_eq_none_iff.mpr hw]
      rfl
    | ending hsides hb hw =>
      rw [changeAtEdge_map_literal, replaceAtEdge_of_before (haround hsides) hb,
        List.isSuffixOf?_eq_some_iff_append_eq.mpr hw.symm]
      rfl
    | otherEnding hsides hb hw =>
      rw [changeAtEdge_map_literal, replaceAtEdge_of_before (haround hsides) hb,
        Word.isSuffixOf?_eq_none_iff.mpr hw]
      rfl

end

/-! ## Rules -/

theorem applyAtEdge_of_verdict {r : Rule} {table : CategoryTable} {w : Word} {v : Verdict}
    (h : r.verdict (Alternative.matchesInWord table w) = .ok v) :
    r.applyAtEdge table w =
      (v.select r.change r.elseChange).elim (.ok w) (changeAtEdge r.target · w) := by
  rw [applyAtEdge, h]
  obtain ⟨target, change, environment, exception, elseChange⟩ := r
  cases v with
  | change => rfl
  | elseChange => cases elseChange <;> rfl
  | keep => rfl

/-- A rule whose target has one word edge and no category makes of a word what the case says that
the word falls under: there is one for every word, and no word falls under two of them with
different outcomes. -/
theorem apply_at_edge_iff {r : Rule} (he : Pattern.edgeCount r.target = 1)
    (hc : Pattern.mentionsCategory r.target = false) (table : CategoryTable) (w : Word)
    (outcome : Except RuleFault Word) :
    r.apply table w = outcome ↔ r.AppliedAtEdge table w outcome := by
  have happly : r.apply table w = r.applyAtEdge table w := by
    rw [apply, Pattern.targetShape?_of_edgeCount he hc]
  rw [happly]
  constructor
  · rintro rfl
    cases hv : r.verdict (Alternative.matchesInWord table w) with
    | error fault =>
      rw [applyAtEdge, hv]
      exact .fault hv
    | ok v =>
      rw [applyAtEdge_of_verdict hv]
      cases v with
      | change => exact .change hv (changedAtEdge_changeAtEdge he r.change w)
      | elseChange =>
        cases helse : r.elseChange with
        | none => exact .noElseChange hv helse
        | some change => exact .elseChange hv helse (changedAtEdge_changeAtEdge he change w)
      | keep => exact .keep hv
  · intro hcase
    cases hcase with
    | fault hv =>
      rw [applyAtEdge, hv]
      rfl
    | keep hv =>
      rw [applyAtEdge_of_verdict hv]
      rfl
    | noElseChange hv helse =>
      rw [applyAtEdge_of_verdict hv, helse]
      rfl
    | change hv hchange =>
      rw [applyAtEdge_of_verdict hv]
      exact (changeAtEdge_eq_iff he).mpr hchange
    | elseChange hv helse hchange =>
      rw [applyAtEdge_of_verdict hv, helse]
      exact (changeAtEdge_eq_iff he).mpr hchange

/-- The rule `#un/dis/h/x#/C`, whose else-change is of no use to it. -/
def unToDis : Rule :=
  ⟨[.edge, .literal 'u', .literal 'n'], [.literal 'd', .literal 'i', .literal 's'],
    some [.literal 'h'], some [.literal 'x', .edge], some [.category 'C']⟩

/-- The word `under` is left alone and `honey` has no such beginning; only at `unbox` the
else-change counts, and is a fault. -/
theorem apply_at_edge_unToDis :
    (Pattern.edgeCount unToDis.target = 1 ∧ Pattern.mentionsCategory unToDis.target = false) ∧
      unToDis.apply .empty "unhappy".toList = .ok "dishappy".toList ∧
      unToDis.apply .empty "honey".toList = .ok "honey".toList ∧
      unToDis.apply .empty "under".toList = .ok "under".toList ∧
      unToDis.apply .empty "unbox".toList = .error .unfitChange := by
  have he : Pattern.edgeCount unToDis.target = 1 := rfl
  have hc : Pattern.mentionsCategory unToDis.target = false := rfl
  have hsides : unToDis.target.LiteralsAround [] ['u', 'n'] :=
    ⟨[], [.literal 'u', .literal 'n'], rfl, rfl, rfl⟩
  have hunhappy : ChangedAtEdge unToDis.target ("un".toList ++ "happy".toList)
      ("dis".toList.map .literal) (.ok ("dis".toList ++ "happy".toList)) :=
    .beginning hsides (by decide) rfl
  have hhoney : ChangedAtEdge unToDis.target "honey".toList ("dis".toList.map .literal)
      (.ok "honey".toList) :=
    .otherBeginning hsides (by decide) (by decide)
  refine ⟨⟨he, hc⟩, ?_, ?_, ?_, ?_⟩
  · exact (apply_at_edge_iff he hc .empty _ _).mpr (.change rfl hunhappy)
  · exact (apply_at_edge_iff he hc .empty _ _).mpr (.change rfl hhoney)
  · exact (apply_at_edge_iff he hc .empty _ _).mpr (.keep rfl)
  · refine (apply_at_edge_iff he hc .empty _ _).mpr (.elseChange rfl rfl ?_)
    exact .foreign (.head _) rfl

end Rule

end SoundChange
