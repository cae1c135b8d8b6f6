import Mathlib.Data.List.Infix
import SoundChange.Proofs.Rule.Scan

/-!
# Else-changes that restate the target

An exception leaves an occurrence of the target alone; with the target for an else-change it puts
the target in the place of the target. For a member of a category and for a bare word edge that is
the same at once. A search for a text goes on at different places after that, one character behind
the beginning of the occurrence or behind its end; between them there is no other occurrence if the
text does not overlap itself.

* `Unbordered`: the texts that do not overlap themselves.
* `scan_restated`: a pass for such a text comes to the same both ways.
* `restoring`, `RestoresIdly`: a rule with its target for an else-change, and that it does the same.
* `restoresIdly_of_shapes`: the targets for which it does.
-/

set_option autoImplicit false

namespace SoundChange

/-! ## Texts that do not overlap themselves -/

namespace Word

/-- No proper prefix of the word is also a suffix of it, but for the empty one. -/
def Unbordered (t : Word) : Prop :=
  ∀ x, x <+: t → x <:+ t → x = [] ∨ x = t

instance (t : Word) : Decidable t.Unbordered :=
  decidable_of_iff (∀ x ∈ t.inits, x <:+ t → x = [] ∨ x = t)
    (forall_congr' fun x => by rw [List.mem_inits])

theorem unbordered_of_length_le_one {t : Word} (h : t.length ≤ 1) : t.Unbordered := by
  intro x hx _
  rcases Nat.eq_zero_or_pos x.length with hzero | hpos
  · exact .inl (List.length_eq_zero_iff.mp hzero)
  · exact .inr (hx.eq_of_length (Nat.le_antisymm hx.length_le (Nat.le_trans h hpos)))

/-- Behind the first character of an occurrence and before its end there is no other occurrence. -/
theorem Unbordered.not_starts {l r : Word} (h : (l ++ r).Unbordered) (hl : l ≠ []) (hr : r ≠ [])
    (rest : Word) : ¬ l ++ r <+: r ++ rest := by
  intro hp
  have hlen : r.length ≤ (l ++ r).length := (List.suffix_append l r).length_le
  have hborder : r <+: l ++ r :=
    List.prefix_of_prefix_length_le (List.prefix_append r rest) hp hlen
  rcases h r hborder (List.suffix_append l r) with hnil | hall
  · exact hr hnil
  · exact hl (List.self_eq_append_left.mp hall)

section
variable {m : Type → Type} [Monad m] [LawfulMonad m] {needle : Word}

/-- The pass over an occurrence that is left alone goes on behind the occurrence. -/
theorem Unbordered.scan_occurrence {c : Char} {behind : Word} (h : Unbordered (c :: behind))
    (choose : Word → Nat → m (Option Word)) (done rest : Word) :
    scan (c :: behind) choose (done ++ [c]) (behind ++ rest) =
      scan (c :: behind) choose (done ++ c :: behind) rest := by
  rw [scan_of_passed (done ++ [c]) fun l r hl hr hp => absurd hp ?_, ← List.append_cons]
  subst hl
  exact Unbordered.not_starts (l := c :: l) h (List.cons_ne_nil c l) hr rest

/-- To put the needle in its own place is to leave it alone. -/
theorem scan_restated (h : needle.Unbordered) {V : Type} {judge : Word → Nat → m V}
    {choice choice' : V → Option Word}
    (hchoice : ∀ v, choice' v = choice v ∨ choice v = none ∧ choice' v = some needle)
    (done w : Word) :
    scan needle (fun w i => choice' <$> judge w i) done w =
      scan needle (fun w i => choice <$> judge w i) done w := by
  induction hn : w.length using Nat.strongRecOn generalizing done w with
  | ind n ih =>
    cases w with
    | nil =>
      rw [scan, scan]
      split
      case isTrue hnil =>
        simp only [bind_map_left]
        refine bind_congr fun v => ?_
        rcases hchoice v with hv | ⟨hv, hv'⟩
        · rw [hv]
        · rw [hv, hv', hnil]
          exact congrArg pure (List.append_nil done)
      case isFalse => rfl
    | cons c rest =>
      subst hn
      have hnext (done : Word) := ih rest.length (Nat.lt_succ_self _) done rest rfl
      rw [scan, scan]
      split
      case isTrue hp =>
        simp only [bind_map_left]
        refine bind_congr fun v => ?_
        cases needle with
        | nil =>
          rcases hchoice v with hv | ⟨hv, hv'⟩
          · rw [hv]
            cases choice v with
            | none => exact hnext _
            | some replacement => exact hnext _
          · rw [hv, hv']
            dsimp only
            rw [dif_pos rfl, List.append_nil]
            exact hnext _
        | cons d behind =>
          -- what is left alone ends where the replacement does
          obtain ⟨rfl, rest, rfl⟩ := List.cons_prefix_cons.mp hp
          have hshorter : rest.length < (d :: (behind ++ rest)).length :=
            Nat.lt_succ_of_le (List.suffix_append behind rest).length_le
          have hbehind (done : Word) := ih rest.length hshorter done rest rfl
          have hdrop : (d :: (behind ++ rest)).drop (d :: behind).length = rest := List.drop_left
          rcases hchoice v with hv | ⟨hv, hv'⟩
          · rw [hv]
            cases choice v with
            | none => exact hnext _
            | some replacement =>
              dsimp only
              rw [dif_neg (List.cons_ne_nil d behind), dif_neg (List.cons_ne_nil d behind), hdrop]
              exact hbehind _
          · rw [hv, hv']
            dsimp only
            rw [dif_neg (List.cons_ne_nil d behind), hdrop, h.scan_occurrence]
            exact hbehind _
      case isFalse => exact hnext _

end

end Word

/-! ## Rules -/

namespace Rule

/-- The rule with its target for an else-change. -/
def restoring (r : Rule) : Rule :=
  { r with elseChange := some r.target }

/-- The target for an else-change does not count. -/
def RestoresIdly (r : Rule) : Prop :=
  ∀ table w, r.restoring.apply table w = r.apply table w

/-- A member that gives way to the member of its own index stays where it is. -/
theorem pieceAt_restoring (r : Rule) (table : CategoryTable) (members : List Word)
    (change : Substitute) (w : Word) (c : Char) (i : Nat) :
    r.restoring.pieceAt table members change (some (.memberwise members)) w c i =
      r.pieceAt table members change none w c i := by
  cases hk : members.idxOf? [c] with
  | none =>
    have hnot := List.idxOf?_eq_none_iff.mp hk
    rw [pieceAt_of_not_mem _ table w i hnot, pieceAt_of_not_mem _ table w i hnot]
  | some k =>
    have hc : (Substitute.memberwise members).forMember k = [c] := by
      obtain ⟨hlt, hget, -⟩ := List.idxOf?_eq_some_iff.mp hk
      rw [Substitute.forMember, List.getD_eq_getElem?_getD, List.getElem?_eq_getElem hlt, hget]
      rfl
    rw [pieceAt_of_idxOf? _ table w i hk, pieceAt_of_idxOf? _ table w i hk]
    refine map_congr fun v => ?_
    cases v with
    | change => rfl
    | elseChange => exact hc
    | keep => rfl

theorem substitutes_restoring {r : Rule} {table : CategoryTable} {members : List Word}
    (htarget : Pattern.listsMembers r.target = true)
    (hchange : Pattern.listsMembers r.change = true)
    (hmembers : Pattern.members table r.target = .ok members) :
    r.restoring.substitutes table =
      (·, some (.memberwise members)) <$> Substitute.ofPattern table r.change := by
  have hother := Substitute.ofPattern_of_listsMembers htarget hmembers
  rw [substitutes]
  show Substitute.ofPattern table r.change >>= _ = _
  rw [Substitute.ofPattern, if_pos hchange]
  cases Pattern.members table r.change with
  | error _ => rfl
  | ok others =>
    show Substitute.ofPattern table r.target >>= _ = _
    rw [hother]
    rfl

section
variable {r : Rule} (hnone : r.elseChange = none)
include hnone

theorem substitutes_of_none (table : CategoryTable) :
    r.substitutes table = (·, none) <$> Substitute.ofPattern table r.change := by
  rw [substitutes, hnone]
  cases Substitute.ofPattern table r.change <;> rfl

theorem restoresIdly_of_listsMembers (htarget : Pattern.listsMembers r.target = true)
    (hchange : Pattern.listsMembers r.change = true) : r.RestoresIdly := by
  intro table w
  rw [apply_of_listsMembers table w htarget,
    apply_of_listsMembers (r := r.restoring) table w htarget]
  show Pattern.members table r.target >>= _ = _
  cases hmembers : Pattern.members table r.target with
  | error _ => rfl
  | ok members =>
    show r.restoring.applyToMembers table members w = r.applyToMembers table members w
    rw [applyToMembers, applyToMembers, substitutes_of_none hnone,
      substitutes_restoring htarget hchange hmembers, bind_map_left, bind_map_left]
    simp only [pieceAt_restoring]

theorem restoresIdly_of_isText (htarget : Pattern.isText r.target = true)
    (hunbordered : Word.Unbordered (Pattern.text r.target)) : r.RestoresIdly := by
  intro table w
  rw [apply_of_isText table w htarget, apply_of_isText (r := r.restoring) table w htarget]
  show r.restoring.applyToOccurrences table (Pattern.text r.target) w = _
  rw [applyToOccurrences, applyToOccurrences]
  show Pattern.asText r.change >>= _ = _
  cases Pattern.asText r.change with
  | error _ => rfl
  | ok change =>
    have helse : r.restoring.elseChange.mapM Pattern.asText =
        .ok (some (Pattern.text r.target)) := by
      show some <$> Pattern.asText r.target = _
      rw [Pattern.asText_of_isText htarget]
      rfl
    rw [helse, hnone]
    show Word.spliceFrom (Pattern.text r.target) _ ([] ++ w) ([] : Word).length =
      Word.spliceFrom (Pattern.text r.target) _ ([] ++ w) ([] : Word).length
    rw [Word.spliceFrom_eq_scan, Word.spliceFrom_eq_scan]
    refine Word.scan_restated hunbordered (fun v => ?_) [] w
    cases v with
    | change => exact .inl rfl
    | elseChange => exact .inr ⟨rfl, rfl⟩
    | keep => exact .inl rfl

theorem restoresIdly_of_edge (htarget : r.target = [.edge]) : r.RestoresIdly := by
  intro table w
  have he : Pattern.edgeCount r.target = 1 := by rw [htarget]; rfl
  have hc : Pattern.mentionsCategory r.target = false := by rw [htarget]; rfl
  rw [apply_of_edgeCount table w he hc, apply_of_edgeCount (r := r.restoring) table w he hc]
  have hword : changeAtEdge r.target r.target w = .ok w := by
    rw [htarget]
    exact (changeAtEdge_of_affix [.edge] [] [] w).trans (congrArg Except.ok (List.append_nil w))
  rw [applyAtEdge, applyAtEdge, hnone]
  refine bind_congr fun v => ?_
  cases v with
  | change => rfl
  | elseChange => exact hword
  | keep => rfl

/-- A rule without an else-change does the same with its target for one, if the target and the
change both list members, if the target is a text that does not overlap itself or if it is a bare
word edge. -/
theorem restoresIdly_of_shapes :
    (Pattern.listsMembers r.target = true → Pattern.listsMembers r.change = true →
      r.RestoresIdly) ∧
    (Pattern.isText r.target = true → Word.Unbordered (Pattern.text r.target) →
      r.RestoresIdly) ∧
    (Pattern.isText r.target = true → r.target.length ≤ 1 → r.RestoresIdly) ∧
    (r.target = [.edge] → r.RestoresIdly) := by
  refine ⟨restoresIdly_of_listsMembers hnone, restoresIdly_of_isText hnone, ?_,
    restoresIdly_of_edge hnone⟩
  intro htext hlen
  refine restoresIdly_of_isText hnone htext (Word.unbordered_of_length_le_one ?_)
  exact Nat.le_trans (List.length_filterMap_le _ _) hlen

end

/-- The rule with the environment `_b` and the exception `#_`. -/
def notInitial (target change : Pattern) : Rule :=
  ⟨target, change, some [.locus, .literal 'b'], some [.edge, .locus], none⟩

/-- The rules `ab/x/_b/#_`, `a,b/x,y/_b/#_` and `#/x#//#b` do the same with their targets for
else-changes. With `aa` for one, the rule `aa/x/_b/#_` does not find the occurrence that overlaps
the first one. -/
theorem restoresIdly_of_shapes_notInitial :
    (notInitial ("ab".toList.map .literal) [.literal 'x']).RestoresIdly ∧
      (notInitial [.literal 'a', .comma, .literal 'b']
        [.literal 'x', .comma, .literal 'y']).RestoresIdly ∧
      (⟨[.edge], [.literal 'x', .edge], none, some [.edge, .literal 'b'], none⟩ :
        Rule).RestoresIdly ∧
      ((notInitial ("aa".toList.map .literal) [.literal 'x']).apply .empty
        "aaab".toList).toOption = some "axb".toList ∧
      ((notInitial ("aa".toList.map .literal) [.literal 'x']).restoring.apply .empty
        "aaab".toList).toOption = some "aaab".toList := by
  refine ⟨?_, ?_, ?_, by decide +kernel, by decide +kernel⟩
  · exact (restoresIdly_of_shapes rfl).2.1 rfl (by decide)
  · exact (restoresIdly_of_shapes rfl).1 rfl rfl
  · exact (restoresIdly_of_shapes rfl).2.2.2 rfl

end Rule

end SoundChange
