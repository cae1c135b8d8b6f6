import SoundChange.Proofs.Condition.Ranges
import SoundChange.Proofs.Rule.Rounds
import SoundChange.Proofs.Rule.Validity

/-!
# Rules about texts on a machine

The search for a text keeps an index into a word that it makes shorter and longer, and the index may
come to be one behind the end of the word. Here the search is made as a machine makes it: it goes
the same way as without one, unless the word becomes longer than there is room for.

* `Checked.find`, `Checked.splice`, `Checked.round`: what is done in a round.
* `Checked.spliceFrom`, `Checked.applyToOccurrences`: all rounds, and a rule about a text.
* `within_round`, `within_spliceFrom`: one round and all of them.
* `indices_in_range`: no index is out of range, be it in a trial of an alternative or in a search.
-/

set_option autoImplicit false

namespace SoundChange

/-! ## Rounds -/

/-- Where a search is after a round. -/
inductive Word.Progress where
  /-- There is nothing more to be found in the word. -/
  | done (w : Word)
  /-- The search goes on in the word from `start` on. -/
  | next (w : Word) (start : Nat)

/-- A round of the search for `needle` from `start` on. -/
def Word.round {m : Type → Type} [Monad m] (needle : Word) (choose : Word → Nat → m (Option Word))
    (w : Word) (start : Nat) : m Word.Progress :=
  match indexFrom? needle w start with
  | none => pure (.done w)
  | some i => do
    match ← choose w i with
    | some replacement =>
      pure (.next (splice w i needle.length replacement) (resumeAt needle replacement i))
    | none => pure (.next w (i + 1))

/-! ## The search round by round -/

namespace Word
variable {needle w : Word}

theorem prefix_iff_take_drop {i : Nat} :
    needle <+: w.drop i ↔ ((w.drop i).take needle.length == needle) = true := by
  rw [List.prefix_iff_eq_take, beq_iff_eq, eq_comm]

/-- The first occurrence is the first of the places that have room for one and hold one. -/
theorem indexIn?_drop_eq_find? (needle w : Word) {start : Nat} (h : start ≤ w.length) :
    indexIn? needle start (w.drop start) =
      (List.range' start (w.length + 1 - needle.length - start)).find?
        fun i => (w.drop i).take needle.length == needle := by
  -- the induction is on the places that are left
  induction hleft : w.length - start generalizing start with
  | zero =>
    obtain rfl : start = w.length := by omega
    rw [List.drop_length, indexIn?]
    cases needle with
    | nil => simp [List.range'_succ]
    | cons c needle => simp
  | succ left ih =>
    obtain ⟨c, rest, hrest⟩ := List.exists_cons_of_length_pos (l := w.drop start) (by simp; omega)
    have hnext : rest = w.drop (start + 1) := by
      rw [← List.drop_drop, hrest]
      rfl
    rw [hrest, indexIn?, ← hrest]
    by_cases hp : needle <+: w.drop start
    · have hlen := hp.length_le
      rw [List.length_drop] at hlen
      have hcount : w.length + 1 - needle.length - start =
          w.length - needle.length - start + 1 := by omega
      rw [if_pos (List.isPrefixOf_iff_prefix.mpr hp), hcount, List.range'_succ, List.find?_cons]
      simp only [prefix_iff_take_drop.mp hp]
    · rw [if_neg fun h => hp (List.isPrefixOf_iff_prefix.mp h), hnext, ih (by omega) (by omega)]
      cases hcount : w.length + 1 - needle.length - start with
      | zero =>
        have hcount' : w.length + 1 - needle.length - (start + 1) = 0 := by omega
        rw [hcount']
        rfl
      | succ count =>
        have hcount' : w.length + 1 - needle.length - (start + 1) = count := by omega
        rw [hcount', List.range'_succ, List.find?_cons]
        simp only [Bool.eq_false_iff.mpr fun h => hp (prefix_iff_take_drop.mpr h)]

/-- A round of the search leads to the next one. -/
theorem round_of_next {ε : Type} {choose : Word → Nat → Except ε (Option Word)} {start start' : Nat}
    {w' : Word} (h : round needle choose w start = .ok (.next w' start')) :
    Round needle choose w start w' start' := by
  unfold round at h
  cases hi : indexFrom? needle w start with
  | none =>
    rw [hi] at h
    cases h
  | some i =>
    rw [hi] at h
    obtain ⟨chosen, hc, h⟩ := bind_eq_ok_iff.mp h
    cases chosen with
    | none =>
      cases h
      exact .passed hi hc
    | some replacement =>
      cases h
      exact .replaced hi hc

/-- What is enough for a replacement at each place that is left is enough after a round. -/
theorem Round.needed_le {ε : Type} {choose : Word → Nat → Except ε (Option Word)} {w' : Word}
    {start start' size : Nat} (h : Round needle choose w start w' start')
    (hsize : ∀ i replacement, choose w i = .ok (some replacement) → replacement.length ≤ size) :
    w'.length + (w'.length + 1 - start') * size ≤ w.length + (w.length + 1 - start) * size := by
  have hlength : w'.length ≤ w.length + size := by
    cases h with
    | passed => exact Nat.le_add_right _ _
    | replaced hi hc =>
      have := length_splice (indexFrom?_eq_some hi).2.1 ‹Word›
      have := hsize _ _ hc
      omega
  have hleft : (w'.length + 1 - start' + 1) * size ≤ (w.length + 1 - start) * size :=
    Nat.mul_le_mul_right size h.left_lt
  rw [Nat.succ_mul] at hleft
  omega

theorem spliceFrom_eq_round {m : Type → Type} [Monad m] [LawfulMonad m]
    (choose : Word → Nat → m (Option Word)) (start : Nat) :
    spliceFrom needle choose w start = (do
      match ← round needle choose w start with
      | .done w' => pure w'
      | .next w' start' => spliceFrom needle choose w' start') := by
  cases hi : indexFrom? needle w start with
  | none => simp [spliceFrom_of_none hi, round, hi]
  | some i =>
    simp only [spliceFrom_of_some hi, round, hi, bind_assoc]
    refine bind_congr fun chosen => ?_
    cases chosen with
    | none => simp
    | some replacement => simp

end Word

/-! ## Texts that are put in -/

theorem Pattern.asText_eq_ok {p : Pattern} {t : Word} (h : asText p = .ok t) : t = text p := by
  unfold asText at h
  split at h
  · cases h
    rfl
  · cases h

theorem Rule.length_le_of_select {r : Rule} {size : Nat} (hsize : ∀ p ∈ r.changes, p.length ≤ size)
    {change : Word} {elseChange : Option Word} (hchange : Pattern.asText r.change = .ok change)
    (helse : r.elseChange.mapM Pattern.asText = .ok elseChange) {v : Verdict} {replacement : Word}
    (h : v.select change elseChange = some replacement) : replacement.length ≤ size := by
  have hother : elseChange = r.elseChange.map Pattern.text := by
    cases hr : r.elseChange with
    | none =>
      rw [hr] at helse
      cases helse
      rfl
    | some p =>
      rw [hr] at helse
      obtain ⟨t, ht, rfl⟩ := map_eq_ok_iff.mp helse
      rw [Pattern.asText_eq_ok ht]
      rfl
  rw [Pattern.asText_eq_ok hchange, hother, select_map] at h
  obtain ⟨p, hp, rfl⟩ := Option.map_eq_some_iff.mp h
  exact Nat.le_trans (List.length_filterMap_le _ p) (hsize p (select_mem_changes hp))

namespace Checked

/-! ## One round on a machine -/

/-- The index of the first occurrence of `needle` at `start` or behind it. -/
def find (M : Machine) (needle w : Word) (start : Nat) : Checked (Option Nat) :=
  if w.length < start ∨ w.length < needle.length then pure none
  else do
    let last ← difference w.length needle.length
    (List.range' start (last + 1 - start)).findM? fun i => do
      let stop ← sum M i needle.length
      let part ← slice w i stop
      pure (part == needle)

/-- The word with the `len` characters from `i` on replaced. -/
def splice (M : Machine) (w : Word) (i len : Nat) (replacement : Word) : Checked Word := do
  let stop ← sum M i len
  let front ← slice w 0 i
  let back ← slice w stop w.length
  store M (front ++ replacement ++ back)

/-- Where to go on after a replacement at `i`. -/
def resumeAt (M : Machine) (needle replacement : Word) (i : Nat) : Checked Nat := do
  let behind ← sum M i replacement.length
  sum M behind (if needle.isEmpty then 1 else 0)

/-- A round of the search for `needle` from `start` on. -/
def round (M : Machine) (needle : Word) (choose : Word → Nat → Checked (Option Word)) (w : Word)
    (start : Nat) : Checked Word.Progress := do
  match ← find M needle w start with
  | none => pure (.done w)
  | some i =>
    match ← choose w i with
    | some replacement =>
      let w' ← splice M w i needle.length replacement
      let start' ← resumeAt M needle replacement i
      pure (.next w' start')
    | none =>
      let start' ← sum M i 1
      pure (.next w start')

section
variable {M : Machine} {needle w : Word}

theorem resumeAt_eq {replacement : Word} {i : Nat} (h : i + replacement.length ≤ M.capacity) :
    resumeAt M needle replacement i = pure (Word.resumeAt needle replacement i) := by
  have := M.room
  rw [resumeAt, sum_of_le (by omega), pure_bind, sum_of_le (by split <;> omega)]
  rfl

section
variable (hw : w.length ≤ M.capacity)
include hw

theorem find_eq (start : Nat) : find M needle w start = pure (Word.indexFrom? needle w start) := by
  have hcapacity := M.room
  unfold find
  by_cases hroom : w.length < start ∨ w.length < needle.length
  · have hnone : Word.indexFrom? needle w start = none := by
      refine Option.eq_none_iff_forall_ne_some.mpr fun i hi => ?_
      have := Word.indexFrom?_eq_some hi
      omega
    rw [if_pos hroom, hnone]
  · obtain ⟨hstart, hneedle⟩ := not_or.mp hroom
    rw [Nat.not_lt] at hstart hneedle
    rw [if_neg hroom, Word.indexFrom?, if_pos hstart, Word.indexIn?_drop_eq_find? needle w hstart,
      difference_of_le hneedle, pure_bind, Nat.sub_add_comm hneedle, ← List.findM?_pure]
    refine compatible_eq.findM? fun i hi => ?_
    have hstop : i + needle.length ≤ w.length := by
      have := List.mem_range'_1.mp hi
      omega
    rw [sum_of_le (by omega), pure_bind, slice_of_le (Nat.le_add_right _ _) hstop, pure_bind,
      List.drop_take, Nat.add_sub_cancel_left]

theorem splice_eq {i len : Nat} (h : i + len ≤ w.length) (replacement : Word) :
    splice M w i len replacement = store M (Word.splice w i len replacement) := by
  have := M.room
  rw [splice, sum_of_le (by omega), pure_bind, slice_zero (by omega), pure_bind, slice_length h,
    pure_bind]
  rfl

/-- A round has room if there is some for a replacement at each place that is left. -/
theorem within_round {f : Word → Nat → Except RuleFault (Option Word)}
    {g : Word → Nat → Checked (Option Word)} {size : Nat} (start : Nat)
    (h : ∀ i, i + needle.length ≤ w.length → g w i = lift (f w i))
    (hsize : ∀ i replacement, f w i = .ok (some replacement) → replacement.length ≤ size) :
    Within (w.length + (w.length + 1 - start) * size ≤ M.capacity) (Word.round needle f w start)
      (round M needle g w start) := by
  have hcapacity := M.room
  rw [Word.round, round, find_eq hw, pure_bind]
  cases hi : Word.indexFrom? needle w start with
  | none => exact within_pure _
  | some i =>
    obtain ⟨hstart, hroom, -⟩ := Word.indexFrom?_eq_some hi
    dsimp only
    rw [h i hroom]
    refine within_lift_bind fun chosen hchosen => ?_
    cases chosen with
    | none =>
      dsimp only
      rw [sum_of_le (by omega)]
      exact within_pure _
    | some replacement =>
      have hlength := Word.length_splice hroom replacement
      dsimp only
      rw [splice_eq hw hroom, store]
      split
      case isTrue hfits =>
        rw [pure_bind, resumeAt_eq (by omega), pure_bind]
        exact within_pure _
      case isFalse hlong =>
        refine .inr ⟨fun henough => hlong ?_, rfl⟩
        have hone : 1 * size ≤ (w.length + 1 - start) * size :=
          Nat.mul_le_mul_right size (by omega)
        have := hsize i replacement hchosen
        omega

/-- A round leads to the next one as it does without a machine, and the word is one that there is
room for. -/
theorem round_of_next {choose : Word → Nat → Checked (Option Word)} {w' : Word} {start start' : Nat}
    (h : round M needle choose w start = .ok (.next w' start')) :
    Word.Round needle choose w start w' start' ∧ w'.length ≤ M.capacity := by
  have hcapacity := M.room
  rw [round, find_eq hw, pure_bind] at h
  cases hi : Word.indexFrom? needle w start with
  | none =>
    rw [hi] at h
    cases h
  | some i =>
    have hroom := (Word.indexFrom?_eq_some hi).2.1
    rw [hi] at h
    obtain ⟨chosen, hc, h⟩ := bind_eq_ok_iff.mp h
    cases chosen with
    | none =>
      dsimp only at h
      rw [sum_of_le (by omega)] at h
      cases h
      exact ⟨.passed hi hc, hw⟩
    | some replacement =>
      obtain ⟨spliced, hspliced, h⟩ := bind_eq_ok_iff.mp h
      rw [splice_eq hw hroom, store_eq_ok_iff] at hspliced
      obtain ⟨hlength, rfl⟩ := hspliced
      have := Word.length_splice hroom replacement
      rw [resumeAt_eq (by omega)] at h
      cases h
      exact ⟨.replaced hi hc, hlength⟩

end

end

/-! ## All rounds on a machine -/

/-- Replaces the occurrences of `needle` from `start` on. -/
def spliceFrom (M : Machine) (needle : Word) (choose : Word → Nat → Checked (Option Word))
    (w : Word) (hw : w.length ≤ M.capacity) (start : Nat) : Checked Word :=
  match _h : round M needle choose w start with
  | .error halt => .error halt
  | .ok (.done w') => .ok w'
  | .ok (.next w' start') => spliceFrom M needle choose w' (round_of_next hw _h).2 start'
termination_by w.length + 1 - start
decreasing_by exact (round_of_next hw _h).1.left_lt

/-- Applies a rule about the text `needle`. -/
def applyToOccurrences (M : Machine) (r : Rule) (table : CategoryTable) (needle w : Word)
    (hw : w.length ≤ M.capacity) : Checked Word := do
  let change ← lift (Pattern.asText r.change)
  let elseChange ← lift (r.elseChange.mapM Pattern.asText)
  spliceFrom M needle
    (fun current i => Verdict.select change elseChange <$>
      r.verdict (matchesAround M table current i needle.length))
    w hw 0

section
variable {M : Machine} {needle w : Word}

theorem within_spliceFrom {f : Word → Nat → Except RuleFault (Option Word)}
    {g : Word → Nat → Checked (Option Word)} {size : Nat}
    (h : ∀ w i, w.length ≤ M.capacity → i + needle.length ≤ w.length → g w i = lift (f w i))
    (hsize : ∀ w i replacement, f w i = .ok (some replacement) → replacement.length ≤ size)
    (hw : w.length ≤ M.capacity) (start : Nat) :
    Within (w.length + (w.length + 1 - start) * size ≤ M.capacity)
      (Word.spliceFrom needle f w start) (spliceFrom M needle g w hw start) := by
  -- the induction is on the places that are left, of which a round leaves fewer
  induction hleft : w.length + 1 - start using Nat.strongRecOn generalizing w start with
  | ind left ih =>
    subst hleft
    have hround := within_round hw start (fun i => h w i hw) (hsize w)
    rw [Word.spliceFrom_eq_round, spliceFrom]
    split
    case h_1 halt hnext =>
      rw [hnext] at hround
      exact hround.bind_of_error _
    case h_2 w' hnext =>
      rw [hnext] at hround
      rw [hround.eq_ok]
      exact within_pure w'
    case h_3 w' start' hnext =>
      rw [hnext] at hround
      rw [hround.eq_ok]
      have hstep := Word.round_of_next hround.eq_ok
      refine (ih _ hstep.left_lt _ start' rfl).mono fun henough => ?_
      exact Nat.le_trans (hstep.needed_le (hsize w)) henough

theorem within_applyToOccurrences {r : Rule} {size : Nat}
    (hr : ∀ p ∈ r.conditions, p.length ≤ M.capacity) (hsize : ∀ p ∈ r.changes, p.length ≤ size)
    (table : CategoryTable) (needle : Word) (hw : w.length ≤ M.capacity) :
    Within (w.length + (w.length + 1) * size ≤ M.capacity) (r.applyToOccurrences table needle w)
      (applyToOccurrences M r table needle w hw) := by
  have hcapacity := M.room
  unfold Rule.applyToOccurrences applyToOccurrences
  refine within_lift_bind fun change hchange => within_lift_bind fun elseChange helse => ?_
  refine within_spliceFrom (fun current i hcurrent hi => ?_)
    (fun current i replacement h => ?_) hw 0
  · refine compatible_lift.map _ (compatible_lift.verdict fun p hp alt halt => ?_)
    have hlength : alt.length ≤ M.capacity :=
      Nat.le_trans (Pattern.length_le_of_mem_alternatives halt) (hr p hp)
    have hright := alt.length_rightContext_le
    exact matchesAround_eq hcurrent hlength (by omega) fun _ => by omega
  · obtain ⟨v, -, hv⟩ := map_eq_ok_iff.mp h
    exact Rule.length_le_of_select hsize hchange helse hv

end

end Checked

/-- No trial of an alternative and no round of a search takes an index from a smaller one or a part
of a word or an alternative that is not there, be the machine one that stops at a sum that is too
large or one that goes on with it: what it does with indices comes to what there is to come to. For
a trial around a place it has to count up to the end of the place and, if the symbols on the left
have room in front of it, to where those on the right would end. A search may find no room for a
word that it makes longer, but it does not if there is some for a replacement at each place. -/
theorem indices_in_range (M : Machine) (table : CategoryTable) {w : Word}
    (hw : w.length ≤ M.capacity) :
    (∀ alt : Alternative,
      Checked.matchesInWord M table w alt = Checked.lift (alt.matchesInWord table w)) ∧
    (∀ (alt : Alternative) (start len : Nat), alt.length ≤ M.capacity → start + len ≤ M.top →
      (alt.leftContext.length ≤ start → start + len + alt.rightContext.length ≤ M.top) →
      Checked.matchesAround M table w start len alt =
        Checked.lift (alt.matchesAround table w start len)) ∧
    ∀ (r : Rule) (needle : Word) (size : Nat), (∀ p ∈ r.conditions, p.length ≤ M.capacity) →
      (∀ p ∈ r.changes, p.length ≤ size) →
      Checked.applyToOccurrences M r table needle w hw =
          Checked.lift (r.applyToOccurrences table needle w) ∨
        M.capacity < w.length + (w.length + 1) * size ∧
          Checked.applyToOccurrences M r table needle w hw = .error .noRoom := by
  refine ⟨Checked.matchesInWord_eq hw, fun _ _ _ => Checked.matchesAround_eq hw,
    fun r needle size hr hsize => ?_⟩
  rcases Checked.within_applyToOccurrences hr hsize table needle hw with h | ⟨hroom, h⟩
  · exact .inl h
  · exact .inr ⟨Nat.lt_of_not_le hroom, h⟩

/-- The place is at the end of the word and the target longer than what is there; the alternative
has marks that match nothing and a second locus. The search that puts in a text everywhere goes on
behind the end of the word at last. -/
theorem indices_in_range_behind_word :
    Checked.matchesAround (.wide true) .empty ['a', 'b'] 2 1
        [.edge, .locus, .comma, .locus, .bar] = .ok false ∧
      Checked.applyToOccurrences (.wide true) Rule.infixation .empty [] ['a', 'b'] (by decide) =
        .ok "xyaxybxy".toList := by
  obtain ⟨-, haround, hsearch⟩ := indices_in_range (.wide true) .empty (w := ['a', 'b']) (by decide)
  refine ⟨?_, ?_⟩
  · rw [haround _ 2 1 (by decide) (by decide) fun _ => by decide]
    rfl
  · rcases hsearch Rule.infixation [] 2 (by decide) (by decide) with h | ⟨hroom, -⟩
    · rw [h]
      decide +kernel
    · exact absurd hroom (by decide)

end SoundChange
