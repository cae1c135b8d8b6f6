import Mathlib.Logic.Basic
import Mathlib.Tactic.MkIffOfInductiveProp
import SoundChange.Proofs.Condition
import SoundChange.Proofs.Rule.Scan

/-!
# Valid rules

Which rules can be applied to every word, told from the rule and the category table alone. A valid
rule refers to defined categories only, and its fields go with the shape of its target; each of the
shapes has a validity of its own.

* `Compatible.verdict`: two verdicts with related trials.
* `verdict_inWord_ok`, `verdict_around_ok`: conditions whose alternatives can be tried.
* `applyAtEdge_ok`, `applyToMembers_ok`, `applyToOccurrences_ok`: the three ways to apply a rule.
* `apply_of_valid`: a valid rule makes something of every word.
-/

set_option autoImplicit false

namespace SoundChange

namespace Rule

/-! ## Validity -/

/-- The environment and the exception, as far as they are there. -/
def conditions (r : Rule) : List Pattern :=
  r.environment.toList ++ r.exception.toList

/-- The change and the else-change, as far as they are there. -/
def changes (r : Rule) : List Pattern :=
  r.change :: r.elseChange.toList

/-- The changes for a target with a word edge: literals and at most one word edge, which only goes
with a bare word edge as the target. -/
@[mk_iff]
structure FitsAtEdge (target change : Pattern) : Prop where
  literalOrEdge : ∀ t ∈ change, Symbol.isLiteralOrEdge t = true
  edge : Pattern.edgeCount change ≤ 1
  affix : .edge ∈ change → target = [.edge]

/-- The validity of a rule about word edges. -/
@[mk_iff]
structure ValidAtEdge (r : Rule) : Prop where
  edge : Pattern.edgeCount r.target = 1
  noCategory : Pattern.mentionsCategory r.target = false
  oneSide : (Pattern.aroundEdge r.target).1 = [] ∨ (Pattern.aroundEdge r.target).2 = []
  changes : ∀ p ∈ r.changes, FitsAtEdge r.target p
  conditions : ∀ p ∈ r.conditions, ∀ alt ∈ Pattern.alternatives p, Alternative.ValidInWord alt

/-- The validity of a rule about a category. -/
@[mk_iff]
structure ValidForMembers (r : Rule) : Prop where
  target : Pattern.listsMembers r.target = true
  changes : (∀ p ∈ r.changes, Pattern.listsMembers p = true) ∨
    ∀ p ∈ r.changes, Pattern.isText p = true
  conditions : ∀ p ∈ r.conditions, ∀ alt ∈ Pattern.alternatives p, Alternative.ValidAround alt

/-- The validity of a rule about a text. -/
@[mk_iff]
structure ValidForText (r : Rule) : Prop where
  target : Pattern.isText r.target = true
  changes : ∀ p ∈ r.changes, Pattern.isText p = true
  conditions : ∀ p ∈ r.conditions, ∀ alt ∈ Pattern.alternatives p, Alternative.ValidAround alt

/-- Whether all categories that the rule refers to are defined. -/
def DefinedIn (table : CategoryTable) (r : Rule) : Prop :=
  ∀ p ∈ r.patterns, ∀ t ∈ p, Symbol.isDefinedIn table t = true

/-- The rules that can be applied to every word. -/
def Valid (table : CategoryTable) (r : Rule) : Prop :=
  r.DefinedIn table ∧ (r.ValidAtEdge ∨ r.ValidForMembers ∨ r.ValidForText)

instance (target change : Pattern) : Decidable (FitsAtEdge target change) :=
  decidable_of_iff' _ (fitsAtEdge_iff target change)

instance (r : Rule) : Decidable r.ValidAtEdge :=
  decidable_of_iff' _ (validAtEdge_iff r)

instance (r : Rule) : Decidable r.ValidForMembers :=
  decidable_of_iff' _ (validForMembers_iff r)

instance (r : Rule) : Decidable r.ValidForText :=
  decidable_of_iff' _ (validForText_iff r)

instance (table : CategoryTable) (r : Rule) : Decidable (r.DefinedIn table) :=
  inferInstanceAs (Decidable (∀ p ∈ r.patterns, ∀ t ∈ p, Symbol.isDefinedIn table t = true))

instance (table : CategoryTable) (r : Rule) : Decidable (r.Valid table) :=
  inferInstanceAs (Decidable (_ ∧ (_ ∨ _ ∨ _)))

/-! ## Verdicts -/

theorem forall_mem_alternativesOf {o : Option Pattern} {motive : Alternative → Prop}
    (h : ∀ p ∈ o.toList, ∀ alt ∈ Pattern.alternatives p, motive alt) :
    ∀ alt ∈ Verdict.alternativesOf o, motive alt := by
  intro alt halt
  match o, halt with
  | some (t :: ts), halt => exact h (t :: ts) (.head _) alt halt

end Rule

namespace Compatible

section
variable {m m' : Type → Type} [Monad m] [Monad m'] {R : ∀ α : Type, m α → m' α → Prop}
  (hR : Compatible R) {f : Alternative → m Bool} {g : Alternative → m' Bool}
include hR

/-- Verdicts are reached in the same way with trials that are related for the alternatives. -/
theorem reach {environment exception : Option Pattern}
    (henvironment : ∀ alt ∈ Verdict.alternativesOf environment, R Bool (f alt) (g alt))
    (hexception : ∀ alt ∈ Verdict.alternativesOf exception, R Bool (f alt) (g alt)) :
    R Verdict (Verdict.reach environment exception f)
      (Verdict.reach environment exception g) := by
  rw [Verdict.reach, Verdict.reach]
  refine hR.sequence (hR.anyM hexception) fun b => ?_
  cases b with
  | true => exact hR.value _
  | false =>
    cases halts : Verdict.alternativesOf environment with
    | nil => exact hR.value _
    | cons alt alts =>
      rw [halts] at henvironment
      refine hR.sequence (hR.anyM henvironment) fun b => ?_
      cases b <;> exact hR.value _

theorem verdict {r : Rule}
    (h : ∀ p ∈ r.conditions, ∀ alt ∈ Pattern.alternatives p, R Bool (f alt) (g alt)) :
    R Verdict (r.verdict f) (r.verdict g) := by
  rw [Rule.conditions, List.forall_mem_append] at h
  obtain ⟨henvironment, hexception⟩ := h
  exact hR.reach (Rule.forall_mem_alternativesOf henvironment)
    (Rule.forall_mem_alternativesOf hexception)

end

end Compatible

namespace Rule

section
variable {table : CategoryTable} {r : Rule}

theorem mem_patterns_of_mem_conditions {p : Pattern} (h : p ∈ r.conditions) : p ∈ r.patterns := by
  rcases List.mem_append.mp h with h | h
  · exact .tail _ (.tail _ (List.mem_append_left _ (List.mem_append_left _ h)))
  · exact .tail _ (.tail _ (List.mem_append_left _ (List.mem_append_right _ h)))

theorem mem_patterns_of_mem_changes {p : Pattern} (h : p ∈ r.changes) : p ∈ r.patterns := by
  rcases List.mem_cons.mp h with rfl | h
  · exact .tail _ (.head _)
  · exact .tail _ (.tail _ (List.mem_append_right _ h))

/-! ## Verdicts that are reached -/

theorem verdict_inWord_ok (hd : r.DefinedIn table)
    (h : ∀ p ∈ r.conditions, ∀ alt ∈ Pattern.alternatives p, Alternative.ValidInWord alt)
    (w : Word) : ∃ v, r.verdict (Alternative.matchesInWord table w) = .ok v := by
  refine compatible_exists_eq_ok.verdict (g := Alternative.matchesInWord table w)
    fun p hp alt halt => ?_
  refine Alternative.matchesInWord_ok (h p hp alt halt) (fun t ht => ?_) w
  exact hd p (mem_patterns_of_mem_conditions hp) t (Pattern.mem_of_mem_alternatives halt ht)

theorem verdict_around_ok (hd : r.DefinedIn table)
    (h : ∀ p ∈ r.conditions, ∀ alt ∈ Pattern.alternatives p, Alternative.ValidAround alt)
    (w : Word) (start len : Nat) :
    ∃ v, r.verdict (Alternative.matchesAround table w start len) = .ok v := by
  refine compatible_exists_eq_ok.verdict (g := Alternative.matchesAround table w start len)
    fun p hp alt halt => ?_
  refine Alternative.matchesAround_ok (h p hp alt halt) (fun t ht => ?_) w start len
  exact hd p (mem_patterns_of_mem_conditions hp) t (Pattern.mem_of_mem_alternatives halt ht)

theorem select_mem_changes {v : Verdict} {p : Pattern}
    (h : v.select r.change r.elseChange = some p) : p ∈ r.changes := by
  cases v with
  | change =>
    obtain rfl := Option.some.inj h
    exact .head _
  | elseChange => exact .tail _ (Option.mem_toList.mpr h)
  | keep => cases h

/-! ## Word edges -/

theorem replaceAtEdge_ok {target : Pattern}
    (h : (Pattern.aroundEdge target).1 = [] ∨ (Pattern.aroundEdge target).2 = [])
    (change w : Word) : ∃ out, replaceAtEdge target change w = .ok out := by
  cases haround : Pattern.aroundEdge target with | mk before after
  rw [haround] at h
  by_cases hb : before = [] <;> by_cases ha : after = []
  · subst hb ha
    exact ⟨_, replaceAtEdge_of_bare haround change w⟩
  · subst hb
    exact ⟨_, replaceAtEdge_of_after haround ha change w⟩
  · subst ha
    exact ⟨_, replaceAtEdge_of_before haround hb change w⟩
  · exact absurd h (not_or.mpr ⟨hb, ha⟩)

theorem changeAtEdge_ok {target change : Pattern} (h : FitsAtEdge target change)
    (hside : (Pattern.aroundEdge target).1 = [] ∨ (Pattern.aroundEdge target).2 = []) (w : Word) :
    ∃ out, changeAtEdge target change w = .ok out := by
  have hall : change.all Symbol.isLiteralOrEdge = true := List.all_eq_true.mpr h.literalOrEdge
  rw [changeAtEdge, if_neg (by simp [hall])]
  split
  case h_1 => exact replaceAtEdge_ok hside _ w
  case h_2 hcount =>
    have he : .edge ∈ change := List.count_pos_iff.mp (Nat.lt_of_lt_of_eq Nat.one_pos hcount.symm)
    rw [if_pos (h.affix he)]
    exact ⟨_, rfl⟩
  case h_3 hzero hone =>
    rcases Nat.le_one_iff_eq_zero_or_eq_one.mp h.edge with hcount | hcount
    · exact absurd hcount hzero
    · exact absurd hcount hone

theorem applyAtEdge_ok (h : r.ValidAtEdge) (hd : r.DefinedIn table) (w : Word) :
    ∃ out, r.applyAtEdge table w = .ok out := by
  rw [applyAtEdge]
  refine exists_bind_eq_ok (verdict_inWord_ok hd h.conditions w) fun v => ?_
  split
  case h_1 change hv => exact changeAtEdge_ok (h.changes _ (select_mem_changes hv)) h.oneSide w
  case h_2 => exact ⟨w, rfl⟩

/-! ## Categories -/

theorem members_ok {p : Pattern} (hd : ∀ t ∈ p, Symbol.isDefinedIn table t = true) :
    ∃ members, Pattern.members table p = .ok members := by
  rw [Pattern.members]
  split
  case h_1 letter hletter =>
    obtain rfl := Pattern.categoryLetter?_eq_some_iff.mp hletter
    obtain ⟨members, hm⟩ := Option.isSome_iff_exists.mp (hd _ (.head _))
    exact ⟨members, by rw [hm]; rfl⟩
  case h_2 => exact ⟨_, rfl⟩

theorem exists_alike_substitutes (h : r.ValidForMembers) (hd : r.DefinedIn table) {p q : Pattern}
    (hp : p ∈ r.changes) (hq : q ∈ r.changes) :
    ∃ s t, Substitute.ofPattern table p = .ok s ∧ Substitute.ofPattern table q = .ok t ∧
      s.alike t = true := by
  rcases h.changes with hlists | htexts
  · obtain ⟨ms, hms⟩ := members_ok (hd p (mem_patterns_of_mem_changes hp))
    obtain ⟨ns, hns⟩ := members_ok (hd q (mem_patterns_of_mem_changes hq))
    exact ⟨_, _, Substitute.ofPattern_of_listsMembers (hlists p hp) hms,
      Substitute.ofPattern_of_listsMembers (hlists q hq) hns, rfl⟩
  · exact ⟨_, _, Substitute.ofPattern_of_isText table (htexts p hp),
      Substitute.ofPattern_of_isText table (htexts q hq), rfl⟩

theorem substitutes_ok (h : r.ValidForMembers) (hd : r.DefinedIn table) :
    ∃ s, r.substitutes table = .ok s := by
  have hchange : r.change ∈ r.changes := .head _
  rw [substitutes]
  split
  case h_1 =>
    obtain ⟨s, -, hs, -, -⟩ := exists_alike_substitutes h hd hchange hchange
    exact exists_bind_eq_ok ⟨s, hs⟩ fun s => ⟨(s, none), rfl⟩
  case h_2 p hp =>
    have hother : p ∈ r.changes := .tail _ (Option.mem_toList.mpr hp)
    obtain ⟨s, t, hs, ht, halike⟩ := exists_alike_substitutes h hd hchange hother
    refine ⟨(s, some t), ?_⟩
    rw [hs, ht]
    exact if_pos halike

theorem pieceAt_ok (h : r.ValidForMembers) (hd : r.DefinedIn table) (members : List Word)
    (change : Substitute) (elseChange : Option Substitute) (w : Word) (c : Char) (i : Nat) :
    ∃ piece, r.pieceAt table members change elseChange w c i = .ok piece := by
  rw [pieceAt]
  split
  case h_1 => exact ⟨[c], rfl⟩
  case h_2 k _ =>
    refine exists_bind_eq_ok (verdict_around_ok hd h.conditions w i 1) fun v => ?_
    split <;> exact ⟨_, rfl⟩

theorem applyToMembers_ok (h : r.ValidForMembers) (hd : r.DefinedIn table) (members : List Word)
    (w : Word) : ∃ out, r.applyToMembers table members w = .ok out := by
  rw [applyToMembers]
  refine exists_bind_eq_ok (substitutes_ok h hd) fun s => ?_
  refine exists_bind_eq_ok (exists_mapM_eq_ok_iff.mpr fun q _ => ?_) fun pieces => ⟨_, rfl⟩
  exact pieceAt_ok h hd members s.1 s.2 w q.1 q.2

/-! ## Texts -/

theorem applyToOccurrences_ok (h : r.ValidForText) (hd : r.DefinedIn table) (needle w : Word) :
    ∃ out, r.applyToOccurrences table needle w = .ok out := by
  have hchange : Pattern.isText r.change = true := h.changes _ (.head _)
  have helse : ∀ p ∈ r.elseChange, Pattern.isText p = true := fun p hp =>
    h.changes p (.tail _ (Option.mem_toList.mpr hp))
  rw [applyToOccurrences_of_isText hchange helse]
  refine compatible_exists_eq_ok.spliceFrom (g := r.replacementAt table needle.length)
    (fun current i _ => ?_) w 0
  exact exists_map_eq_ok _ (verdict_around_ok hd h.conditions current i needle.length)

/-! ## All rules -/

theorem apply_of_valid (h : r.Valid table) (w : Word) : ∃ out, r.apply table w = .ok out := by
  obtain ⟨hd, h | h | h⟩ := h
  · rw [apply_of_edgeCount table w h.edge h.noCategory]
    exact applyAtEdge_ok h hd w
  · rw [apply_of_listsMembers table w h.target]
    exact exists_bind_eq_ok (members_ok (hd _ (.head _))) fun members =>
      applyToMembers_ok h hd members w
  · rw [apply_of_isText table w h.target]
    exact applyToOccurrences_ok h hd _ w

end

end Rule

end SoundChange
