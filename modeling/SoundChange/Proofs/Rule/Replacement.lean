import Mathlib.Data.List.Infix
import SoundChange.Proofs.Rule.Scan

/-!
# Unconditional rules about texts

A rule that has nothing but a target and a change, both of them texts, puts the change in the place
of each occurrence of the target that is found from left to right. `Word.Replaced` says what that
gives, without a search. If the change shares no character with the target, no occurrence can lie in
it or across one of its ends, so that there is none left.

* `exists_replaced`, `scan_of_replaced`: there is such a word, and the pass over a word gives it.
* `scan_nil_needle`: the pass for an empty target.
* `Replaced.not_infix`: what is left where the texts share no character.
* `apply_ofTexts`: the rule of two texts.
* `apply_eliminates_target`: words that the rule leaves as they are from then on.
-/

set_option autoImplicit false

namespace SoundChange

namespace Word

/-- The word `out` is `w` with `t` in the place of the leftmost `s`, of the leftmost one behind it,
and so on until there is none. -/
inductive Replaced (s t : Word) : Word → Word → Prop where
  | none {w : Word} : ¬ s <:+: w → Replaced s t w w
  | leftmost (front : Word) {rest out : Word} :
    (∀ i < front.length, ¬ s <+: (front ++ s ++ rest).drop i) → Replaced s t rest out →
      Replaced s t (front ++ s ++ rest) (front ++ t ++ out)

section
variable {s t : Word}

/-! ## One word for each -/

theorem replaced_cons {c : Char} {w out : Word} (hc : ¬ s <+: c :: w) (h : Replaced s t w out) :
    Replaced s t (c :: w) (c :: out) := by
  cases h with
  | none hw =>
    refine .none fun hi => ?_
    rcases List.infix_cons_iff.mp hi with hp | hi
    · exact hc hp
    · exact hw hi
  | leftmost front hfront hrest =>
    refine .leftmost (c :: front) (fun i hi => ?_) hrest
    cases i with
    | zero => exact hc
    | succ i => exact hfront i (Nat.lt_of_succ_lt_succ hi)

theorem exists_replaced (hs : s ≠ []) (t w : Word) : ∃ out, Replaced s t w out := by
  induction hn : w.length using Nat.strongRecOn generalizing w with
  | ind n ih =>
    cases w with
    | nil => exact ⟨[], .none fun hi => hs (List.infix_nil.mp hi)⟩
    | cons c w =>
      by_cases hp : s <+: c :: w
      · obtain ⟨rest, hrest⟩ := hp
        have hlt : rest.length < n := by
          rw [← hn, ← hrest, List.length_append]
          have := List.length_pos_iff.mpr hs
          omega
        obtain ⟨out, hout⟩ := ih _ hlt rest rfl
        rw [← hrest]
        exact ⟨t ++ out, .leftmost [] nofun hout⟩
      · obtain ⟨out, hout⟩ := ih w.length (by rw [← hn]; exact Nat.lt_succ_self _) w rfl
        exact ⟨c :: out, replaced_cons hp hout⟩

/-! ## The pass -/

variable {m : Type → Type} [Monad m] [LawfulMonad m]

theorem scan_of_not_starts {choose : Word → Nat → m (Option Word)} (done : Word)
    {front rest : Word} (h : ∀ i < front.length, ¬ s <+: (front ++ rest).drop i) :
    scan s choose done (front ++ rest) = scan s choose (done ++ front) rest := by
  refine scan_of_passed done fun l r hl hr hp => absurd hp ?_
  have hlt : l.length < front.length := by
    rw [hl, List.length_append]
    exact Nat.lt_add_of_pos_right (List.length_pos_iff.mpr hr)
  have hnot := h l.length hlt
  rwa [hl, List.append_assoc, List.drop_left] at hnot

theorem scan_of_replaced (hs : s ≠ []) {w out : Word} (h : Replaced s t w out) (done : Word) :
    scan (m := m) s (fun _ _ => pure (some t)) done w = pure (done ++ out) := by
  induction h generalizing done with
  | @none w hw =>
    refine scan_of_all_passed hs done w fun l r hl _ hp => absurd ?_ hw
    rw [hl]
    exact hp.isInfix.trans (List.suffix_append l r).isInfix
  | leftmost front hfront _ ih =>
    rw [List.append_assoc] at hfront
    rw [List.append_assoc, scan_of_not_starts done hfront, scan_of_selected hs _ _ rfl, ih]
    simp

/-- An empty target is found in front of every character and at the end. -/
theorem scan_nil_needle (t done w : Word) :
    scan (m := m) [] (fun _ _ => pure (some t)) done w =
      pure (done ++ (w.flatMap fun c => t ++ [c]) ++ t) := by
  induction w generalizing done with
  | nil => simp [scan]
  | cons c w ih =>
    rw [scan, if_pos List.nil_prefix, pure_bind]
    dsimp only
    rw [dif_pos rfl, ih]
    simp

end

/-! ## Nothing left -/

section
variable {s t : Word}

theorem infix_or_infix_of_not_mem {c : Char} (hc : c ∉ s) {l r : Word} (h : s <:+: l ++ c :: r) :
    s <:+: l ∨ s <:+: r := by
  rcases List.infix_append_iff.mp h with hl | hr | ⟨a, b, rfl, ha, hb⟩
  · exact .inl hl
  · rcases List.infix_cons_iff.mp hr with hp | hr
    · rcases List.prefix_cons_iff.mp hp with rfl | ⟨b, rfl, -⟩
      · exact .inr List.nil_infix
      · exact absurd List.mem_cons_self hc
    · exact .inr hr
  · rcases List.prefix_cons_iff.mp hb with rfl | ⟨b, rfl, -⟩
    · rw [List.append_nil]
      exact .inl ha.isInfix
    · exact absurd (List.mem_append_right a List.mem_cons_self) hc

section
variable (hst : ∀ c ∈ t, c ∉ s)
include hst

theorem infix_of_infix_append {r : Word} (h : s <:+: t ++ r) : s <:+: r := by
  induction t with
  | nil => exact h
  | cons c t ih =>
    rw [List.forall_mem_cons] at hst
    rcases infix_or_infix_of_not_mem (l := []) hst.1 h with hnil | hr
    · exact List.infix_nil.mp hnil ▸ List.nil_infix
    · exact ih hst.2 hr

/-- An occurrence neither lies in a text with which it shares no character nor reaches into it. -/
theorem infix_or_infix_of_append (ht : t ≠ []) {l r : Word} (h : s <:+: l ++ t ++ r) :
    s <:+: l ∨ s <:+: r := by
  obtain ⟨c, t, rfl⟩ := List.exists_cons_of_ne_nil ht
  rw [List.forall_mem_cons] at hst
  rw [List.append_assoc, List.cons_append] at h
  exact (infix_or_infix_of_not_mem hst.1 h).imp_right (infix_of_infix_append hst.2)

theorem Replaced.not_infix (hs : s ≠ []) (ht : t ≠ []) {w out : Word}
    (h : Replaced s t w out) : ¬ s <:+: out := by
  induction h with
  | none hw => exact hw
  | leftmost front hfront _ ih =>
    intro hi
    rcases infix_or_infix_of_append hst ht hi with ⟨a, b, hab⟩ | hout
    · subst hab
      have hlt : a.length < (a ++ s ++ b).length := by
        have := List.length_pos_iff.mpr hs
        simp only [List.length_append]
        omega
      refine hfront a.length hlt ?_
      simp only [List.append_assoc, List.drop_left]
      exact List.prefix_append s _
    · exact ih hout

end

end

end Word

/-! ## Rules -/

namespace Rule

/-- The rule that turns one text into another one everywhere. -/
def ofTexts (s t : Word) : Rule :=
  ⟨s.map .literal, t.map .literal, none, none, none⟩

theorem apply_ofTexts (s t : Word) (table : CategoryTable) (w : Word) :
    (ofTexts s t).apply table w = Word.scan s (fun _ _ => pure (some t)) [] w := by
  have hchoose (len : Nat) :
      (ofTexts s t).replacementAt table len = fun _ _ => pure (some t) := by
    funext w i
    show Except.ok (some (Pattern.text (t.map .literal))) = _
    rw [Pattern.text_map_literal]
    rfl
  rw [apply_of_target_eq (r := ofTexts s t) rfl (Pattern.isText_map_literal t) nofun, hchoose]

/-- Where the target and the change share no character, the word that comes out has no occurrence
of the target, and the rule leaves it as it is. -/
theorem apply_eliminates_target {s t : Word} (hs : s ≠ []) (ht : t ≠ []) (hst : ∀ c ∈ t, c ∉ s)
    (table : CategoryTable) (w : Word) :
    ∃ out, (ofTexts s t).apply table w = .ok out ∧ ¬ s <:+: out ∧
      (ofTexts s t).apply table out = .ok out := by
  obtain ⟨out, hout⟩ := Word.exists_replaced hs t w
  have hnone : ¬ s <:+: out := hout.not_infix hst hs ht
  refine ⟨out, ?_, hnone, ?_⟩
  · rw [apply_ofTexts]
    exact Word.scan_of_replaced hs hout []
  · rw [apply_ofTexts]
    exact Word.scan_of_replaced hs (.none hnone) []

/-- The target overlaps itself, and what is left of it meets what is put in the place of it. -/
theorem apply_eliminates_target_overlapping :
    ∃ out, (ofTexts "aba".toList "cc".toList).apply .empty "abababaab".toList = .ok out ∧
      ¬ "aba".toList <:+: out ∧ (ofTexts "aba".toList "cc".toList).apply .empty out = .ok out :=
  apply_eliminates_target (by decide) (by decide) (by simp) .empty _

end Rule

end SoundChange
