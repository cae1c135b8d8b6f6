import SoundChange.Condition.Indices
import SoundChange.Proofs.Checked
import SoundChange.Proofs.Condition

/-!
# Alternatives tried with indices in their ranges

On a machine an alternative is tried in the same way as without one, and no index leaves its range,
as long as the machine can count up to where the symbols behind the target end.

* `matchRun_eq`: symbols from a place on where there is room for them.
* `matchesInWord_eq`, `matchesAround_eq`: alternatives.
* `matchesAround_beyond_top`: what can happen where the machine cannot count that far.
-/

set_option autoImplicit false

namespace SoundChange

namespace Alternative

/-- The symbols that have to match in front of the target. -/
def leftContext (alt : Alternative) : List Symbol :=
  (anchorLeft (alt.takeWhile (· != .locus))).2

/-- The symbols that have to match behind the target. -/
def rightContext (alt : Alternative) : List Symbol :=
  (anchorRight (alt.dropWhile (· != .locus)).tail).2

theorem contexts_append {before : List Symbol} (h : .locus ∉ before) (after : List Symbol) :
    leftContext (before ++ .locus :: after) = (anchorLeft before).2 ∧
      rightContext (before ++ .locus :: after) = (anchorRight after).2 := by
  have hb : ∀ t ∈ before, (t != .locus) = true := by
    intro t ht
    rw [bne_iff_ne]
    rintro rfl
    exact h ht
  rw [leftContext, rightContext, List.takeWhile_append_of_pos hb, List.dropWhile_append_of_pos hb]
  simp

theorem length_rightContext_le (alt : Alternative) : alt.rightContext.length ≤ alt.length := by
  have hafter : (alt.dropWhile (· != .locus)).tail.length ≤ alt.length :=
    ((List.tail_sublist _).trans (List.dropWhile_sublist _)).length_le
  unfold rightContext anchorRight
  split
  case isTrue =>
    rw [List.length_dropLast]
    omega
  case isFalse => exact hafter

end Alternative

namespace Checked

/-! ## Symbols from a place on -/

section
variable {M : Machine} {table : CategoryTable} {w : Word}

theorem matchSymbols_take (table : CategoryTable) (ts : List Symbol) (w : Word) :
    matchSymbols table ts (w.take ts.length) = matchSymbols table ts w := by
  induction ts generalizing w with
  | nil => rfl
  | cons t ts ih =>
    cases w with
    | nil => rfl
    | cons c w => rw [List.length_cons, List.take_succ_cons, matchSymbols, matchSymbols, ih w]

theorem matchAnyOf_drop_eq_anyM (ts : List Symbol) (count start : Nat) :
    matchAnyOf table ts count (w.drop start) =
      (List.range' start count).anyM fun i => matchSymbols table ts (w.drop i) := by
  induction count generalizing start with
  | zero => rfl
  | succ count ih =>
    rw [matchAnyOf, List.range'_succ, List.anyM, List.tail_drop, ih]
    refine bind_congr fun b => ?_
    cases b with
    | true => rfl
    | false => rfl

theorem matchAnyOf_eq_anyM (table : CategoryTable) (ts : List Symbol) (count : Nat) (w : Word) :
    matchAnyOf table ts count w =
      (List.range count).anyM fun i => matchSymbols table ts (w.drop i) := by
  rw [List.range_eq_range', ← matchAnyOf_drop_eq_anyM, List.drop_zero]

section
variable (hw : w.length ≤ M.capacity)
include hw

theorem matchRun_eq {ts : List Symbol} {offset : Nat} (h : offset + ts.length ≤ w.length) :
    matchRun M table ts w offset = lift (matchSymbols table ts (w.drop offset)) := by
  have := M.room
  rw [matchRun, sum_of_le (by omega), pure_bind, slice_of_le (Nat.le_add_right _ _) h, pure_bind,
    List.drop_take, Nat.add_sub_cancel_left, matchSymbols_take]

/-! ## Alternatives about the whole word -/

theorem matchesInWord_eq (alt : Alternative) :
    matchesInWord M table w alt = lift (Alternative.matchesInWord table w alt) := by
  have hcount : 0 < Pattern.edgeCount alt ↔ alt.contains .edge = true := by
    rw [Pattern.edgeCount, List.count_pos_iff, List.contains_iff_mem]
  unfold Alternative.matchesInWord matchesInWord
  refine ite_eq_lift (fun _ => rfl) fun _ => ?_
  refine ite_eq_lift (fun _ => rfl) fun _ => ?_
  refine ite_eq_lift (fun _ => ?_) fun _ => ite_eq_lift (fun _ => ?_) fun _ => ?_
  · -- a word edge in front
    refine ite_eq_lift (fun hroom => ?_) fun _ => rfl
    rw [← Nat.zero_add alt.tail.length] at hroom
    exact matchRun_eq hw hroom
  · -- one at the end
    by_cases hroom : alt.dropLast.length ≤ w.length
    · rw [if_pos hroom, if_neg (Nat.not_lt.mpr hroom), difference_of_le hroom, pure_bind]
      exact matchRun_eq hw (by omega)
    · rw [if_neg hroom, if_pos (Nat.lt_of_not_le hroom)]
      rfl
  · -- none that is in its place
    simp only [hcount]
    refine ite_eq_lift (fun _ => rfl) fun _ => ?_
    rw [matchAnyOf_eq_anyM]
    by_cases hroom : alt.length ≤ w.length
    · rw [if_neg (Nat.not_lt.mpr hroom), difference_of_le hroom, pure_bind,
        Nat.sub_add_comm hroom]
      refine compatible_lift.anyM fun offset hoffset => matchRun_eq hw ?_
      have := List.mem_range.mp hoffset
      omega
    · rw [if_pos (Nat.lt_of_not_le hroom), Nat.sub_eq_zero_of_le (Nat.lt_of_not_le hroom)]
      rfl

end

/-! ## Alternatives about a place -/

theorem dropLeftEdge_eq (before : List Symbol) :
    dropLeftEdge before = pure (Alternative.anchorLeft before) := by
  unfold dropLeftEdge Alternative.anchorLeft
  split
  case isTrue hhead =>
    have hone : 1 ≤ before.length := List.length_pos_iff.mpr fun h => by simp [h] at hhead
    rw [slice_length hone, List.drop_one]
    rfl
  case isFalse => rfl

theorem dropRightEdge_eq (after : List Symbol) :
    dropRightEdge after = pure (Alternative.anchorRight after) := by
  unfold dropRightEdge Alternative.anchorRight
  split
  case isTrue hlast =>
    have hone : 1 ≤ after.length := List.length_pos_iff.mpr fun h => by simp [h] at hlast
    rw [difference_of_le hone, pure_bind, slice_zero (Nat.sub_le _ _), ← List.dropLast_eq_take]
    rfl
  case isFalse => rfl

theorem missesEnd_eq {stop : Nat} (h : stop ≤ w.length) (atEnd : Bool) (right : List Symbol) :
    missesEnd atEnd w stop right =
      pure (decide (atEnd = true ∧ w.length - stop ≠ right.length)) := by
  unfold missesEnd
  cases atEnd with
  | false => rfl
  | true => simp [difference_of_le h]

/-- The trial looks for word edges by their indices. -/
theorem any_edge_inside (alt : Alternative) :
    (alt.zipIdx.any fun q => q.1 == .edge && q.2 != 0 && q.2 != alt.length - 1) = true ↔
      .edge ∈ alt.tail.dropLast := by
  rw [List.any_eq_true]
  constructor
  · rintro ⟨⟨t, i⟩, hq, h⟩
    obtain ⟨hi, ht⟩ := List.getElem?_eq_some_iff.mp (List.mem_zipIdx_iff_getElem?.mp hq)
    simp only [Bool.and_eq_true, beq_iff_eq, bne_iff_ne] at h
    obtain ⟨⟨rfl, hfirst⟩, hlast⟩ := h
    by_contra hinner
    have := Alternative.edgesAtEnds_iff.mpr hinner i hi ht
    omega
  · intro hinner
    by_contra hnone
    refine Alternative.edgesAtEnds_iff.mp (fun i hi he => ?_) hinner
    by_contra hends
    refine hnone ⟨(alt[i], i), List.mem_zipIdx_iff_getElem?.mpr (List.getElem?_eq_getElem hi), ?_⟩
    simp only [he, Bool.and_eq_true, beq_iff_eq, bne_iff_ne]
    exact ⟨⟨trivial, by omega⟩, by omega⟩

theorem idxOf?_locus {before : List Symbol} (h : .locus ∉ before) (after : List Symbol) :
    (before ++ .locus :: after).idxOf? .locus = some before.length := by
  induction before with
  | nil => simp [List.idxOf?_cons]
  | cons t before ih =>
    rw [List.mem_cons, not_or] at h
    simp [List.idxOf?_cons, Ne.symm h.1, ih h.2]

section
variable (hw : w.length ≤ M.capacity)
include hw

theorem matchesSides_eq {before after : List Symbol} {start len : Nat}
    (hstop : start + len ≤ M.top)
    (hreach : (Alternative.anchorLeft before).2.length ≤ start →
      start + len + (Alternative.anchorRight after).2.length ≤ M.top) :
    matchesSides M table w start len (Alternative.anchorLeft before).1
        (Alternative.anchorLeft before).2 (Alternative.anchorRight after).1
        (Alternative.anchorRight after).2 =
      lift (Alternative.matchesBeside table w start len before after) := by
  unfold Alternative.matchesBeside matchesSides
  generalize Alternative.anchorLeft before = anchored at hreach ⊢
  obtain ⟨atStart, left⟩ := anchored
  generalize Alternative.anchorRight after = anchored at hreach ⊢
  obtain ⟨atEnd, right⟩ := anchored
  dsimp only at hreach ⊢
  rw [sum_of_le hstop, pure_bind]
  by_cases hleft : start < left.length
  · rw [if_pos hleft, if_neg fun h => Nat.not_le.mpr hleft h.1]
    rfl
  rw [if_neg hleft, sum_of_le (hreach (Nat.not_lt.mp hleft)), pure_bind]
  by_cases hlong : w.length < start + len + right.length
  · rw [if_pos hlong, if_neg fun h => Nat.not_le.mpr hlong h.2.1]
    rfl
  rw [if_neg hlong]
  by_cases hfront : atStart = true ∧ start ≠ left.length
  · rw [if_pos hfront, if_neg fun h => hfront.2 (h.2.2.1 hfront.1)]
    rfl
  rw [if_neg hfront, missesEnd_eq (by omega), pure_bind]
  by_cases hback : atEnd = true ∧ w.length - (start + len) ≠ right.length
  · rw [decide_eq_true hback, if_pos rfl, if_neg fun h => hback.2 (h.2.2.2 hback.1)]
    rfl
  have hroom : left.length ≤ start ∧ start + len + right.length ≤ w.length ∧
      (atStart = true → start = left.length) ∧
      (atEnd = true → w.length - (start + len) = right.length) :=
    ⟨Nat.not_lt.mp hleft, Nat.not_lt.mp hlong, by simpa using hfront, by simpa using hback⟩
  rw [if_pos hroom, decide_eq_false hback, if_neg Bool.false_ne_true, difference_of_le hroom.1,
    pure_bind]
  refine compatible_lift.sequence (matchRun_eq hw (by omega)) fun b => ?_
  cases b with
  | false => rfl
  | true => exact matchRun_eq hw hroom.2.1

theorem matchesAround_eq {alt : Alternative} {start len : Nat} (halt : alt.length ≤ M.capacity)
    (hstop : start + len ≤ M.top)
    (hreach : alt.leftContext.length ≤ start → start + len + alt.rightContext.length ≤ M.top) :
    matchesAround M table w start len alt =
      lift (Alternative.matchesAround table w start len alt) := by
  by_cases hl : .locus ∈ alt
  · obtain ⟨before, after, rfl, hlb⟩ := List.eq_append_cons_of_mem hl
    have hlength : (before ++ .locus :: after).length = before.length + 1 + after.length := by
      simp
      omega
    have hafter : (before ++ .locus :: after).drop (before.length + 1) = after := by
      simp [List.drop_append]
    obtain ⟨hleft, hright⟩ := Alternative.contexts_append hlb after
    rw [hleft, hright] at hreach
    have hroom := M.room
    rw [Alternative.matchesAround_append hlb, matchesAround, idxOf?_locus hlb]
    dsimp only
    rw [difference_of_le (by omega), pure_bind]
    simp only [any_edge_inside]
    refine ite_eq_lift (fun _ => rfl) fun _ => ?_
    rw [slice_zero (by omega), pure_bind, List.take_left, sum_of_le (by omega), pure_bind,
      slice_length (by omega), pure_bind, hafter, dropLeftEdge_eq, pure_bind, dropRightEdge_eq,
      pure_bind]
    exact matchesSides_eq hw hstop hreach
  · have hnone : alt.idxOf? .locus = none := List.idxOf?_eq_none_iff.mpr hl
    rw [Alternative.matchesAround_of_locus_not_mem hl, matchesAround, hnone]
    exact matchesInWord_eq hw alt

end

end

/-- The symbols behind a target can end beyond the largest number where the target does not. A
machine that goes on with such a sum takes there to be room for them and wants a part that is not in
the word; another one stops at the sum. -/
theorem matchesAround_beyond_top :
    9223372036854775807 + 9223372036854775807 ≤ (Machine.wide true).top ∧
    matchesAround (.wide true) .empty [] 9223372036854775807 9223372036854775807
      [.locus, .literal 'a', .literal 'b'] = .error .outOfRange ∧
    matchesAround (.wide false) .empty [] 9223372036854775807 9223372036854775807
      [.locus, .literal 'a', .literal 'b'] = .error .overflow := by
  decide +kernel

end Checked

end SoundChange
