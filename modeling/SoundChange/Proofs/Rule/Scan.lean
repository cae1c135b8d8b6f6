import SoundChange.Proofs.Rule.Shape

/-!
# Rules about texts in one pass

The search for a text goes on in a word that changes on the way. `Word.scan` does the same in one
pass over the word as it was: what is done stands in front of what is left, and nothing of what is
done is looked at again except as the context of what is left.

* `scan_of_passed`, `scan_of_all_passed`, `scan_of_selected`: the pass over a part of the word, by
  what is selected there.
* `indexFrom?_append`: what a search behind the done part can find is in the part that is left.
* `spliceFrom_eq_scan`: the two agree from any point on, for any way to choose a replacement.
* `Compatible.spliceFrom`: two searches with related choices.
* `apply_eq_scan`: a rule that has nothing but texts makes one pass over a word.
-/

set_option autoImplicit false

namespace SoundChange

namespace Word

section
variable {m : Type → Type} [Monad m] {needle : Word} {choose : Word → Nat → m (Option Word)}

/-! ## The pass -/

/-- Goes over what is left of a word behind `out`. Where `needle` stands in front, `choose` is asked
about the whole word: a replacement that it selects is put out instead of `needle`, and one more
character with it if `needle` has none. Anywhere else one character is put out. -/
def scan (needle : Word) (choose : Word → Nat → m (Option Word)) (out : Word) : Word → m Word
  | [] =>
    if needle = [] then do
      match ← choose out out.length with
      | some replacement => pure (out ++ replacement)
      | none => pure out
    else pure out
  | c :: rest =>
    if needle <+: c :: rest then do
      match ← choose (out ++ c :: rest) out.length with
      | some replacement =>
        if _h : needle = [] then scan needle choose (out ++ replacement ++ [c]) rest
        else scan needle choose (out ++ replacement) ((c :: rest).drop needle.length)
      | none => scan needle choose (out ++ [c]) rest
    else scan needle choose (out ++ [c]) rest
termination_by rest => rest.length
decreasing_by
  · exact Nat.lt_succ_self _
  · rw [List.length_drop]
    exact Nat.sub_lt (Nat.succ_pos _) (List.length_pos_iff.mpr _h)
  · exact Nat.lt_succ_self _
  · exact Nat.lt_succ_self _

/-- Where the needle does not stand, or nothing is selected for it, characters are put out as they
are. -/
theorem scan_of_passed [LawfulMonad m] (done : Word) {front rest : Word}
    (h : ∀ l r, front = l ++ r → r ≠ [] → needle <+: r ++ rest →
      choose (done ++ l ++ (r ++ rest)) (done ++ l).length = pure none) :
    scan needle choose done (front ++ rest) = scan needle choose (done ++ front) rest := by
  induction front generalizing done with
  | nil => rw [List.nil_append, List.append_nil]
  | cons c front ih =>
    have hnext : scan needle choose (done ++ [c]) (front ++ rest) =
        scan needle choose (done ++ c :: front) rest := by
      rw [List.append_cons done c front]
      refine ih (done ++ [c]) fun l r hl hr hp => ?_
      rw [← List.append_cons]
      exact h (c :: l) r (congrArg (c :: ·) hl) hr hp
    rw [List.cons_append, scan]
    split
    case isTrue hp =>
      have hnone := h [] (c :: front) rfl (List.cons_ne_nil c front) hp
      rw [List.append_nil, List.cons_append] at hnone
      rw [hnone, pure_bind]
      exact hnext
    case isFalse => exact hnext

theorem scan_of_all_passed [LawfulMonad m] (hneedle : needle ≠ []) (done w : Word)
    (h : ∀ l r, w = l ++ r → r ≠ [] → needle <+: r →
      choose (done ++ l ++ r) (done ++ l).length = pure none) :
    scan needle choose done w = pure (done ++ w) := by
  have hpassed : scan needle choose done (w ++ []) = scan needle choose (done ++ w) [] := by
    refine scan_of_passed done fun l r hl hr hp => ?_
    rw [List.append_nil] at hp ⊢
    exact h l r hl hr hp
  rw [List.append_nil] at hpassed
  rw [hpassed, scan, if_neg hneedle]

theorem scan_of_selected [LawfulMonad m] (hneedle : needle ≠ []) (done rest : Word)
    {replacement : Word}
    (h : choose (done ++ (needle ++ rest)) done.length = pure (some replacement)) :
    scan needle choose done (needle ++ rest) = scan needle choose (done ++ replacement) rest := by
  obtain ⟨c, needle, rfl⟩ := List.exists_cons_of_ne_nil hneedle
  have hp : c :: needle <+: c :: (needle ++ rest) := List.prefix_append (c :: needle) rest
  rw [List.cons_append] at h ⊢
  rw [scan, if_pos hp, h, pure_bind]
  dsimp only
  rw [dif_neg hneedle, ← List.cons_append, List.drop_left]

/-! ## The search -/

theorem spliceFrom_of_none {w : Word} {start : Nat} (h : indexFrom? needle w start = none) :
    spliceFrom needle choose w start = pure w := by
  rw [spliceFrom]
  split
  · rfl
  · rename_i i hi
    rw [h] at hi
    cases hi

theorem spliceFrom_of_some {w : Word} {start i : Nat} (h : indexFrom? needle w start = some i) :
    spliceFrom needle choose w start = (do
      match ← choose w i with
      | some replacement =>
        spliceFrom needle choose (splice w i needle.length replacement)
          (resumeAt needle replacement i)
      | none => spliceFrom needle choose w (i + 1)) := by
  rw [spliceFrom]
  split
  · rename_i hi
    rw [h] at hi
    cases hi
  · rename_i j hj
    obtain rfl : i = j := Option.some.inj (h.symm.trans hj)
    rfl

/-- Only what a search finds counts, not where it starts. -/
theorem spliceFrom_congr {w : Word} {start start' : Nat}
    (h : indexFrom? needle w start = indexFrom? needle w start') :
    spliceFrom needle choose w start = spliceFrom needle choose w start' := by
  cases hi : indexFrom? needle w start' with
  | none => rw [spliceFrom_of_none hi, spliceFrom_of_none (h.trans hi)]
  | some i => rw [spliceFrom_of_some hi, spliceFrom_of_some (h.trans hi)]

theorem spliceFrom_of_length_lt {w : Word} {start : Nat} (h : w.length < start) :
    spliceFrom needle choose w start = pure w :=
  spliceFrom_of_none (if_neg (Nat.not_le_of_lt h))

theorem indexFrom?_append (needle out rest : Word) :
    indexFrom? needle (out ++ rest) out.length = indexIn? needle out.length rest := by
  rw [indexFrom?, if_pos (by simp), List.drop_left]

theorem indexFrom?_of_starts {needle rest : Word} (out : Word) (h : needle <+: rest) :
    indexFrom? needle (out ++ rest) out.length = some out.length := by
  rw [indexFrom?_append]
  cases rest with
  | nil => simp [indexIn?, List.prefix_nil.mp h]
  | cons c rest => simp [indexIn?, h]

/-- Where the needle does not stand in front, the search goes on behind one more character. -/
theorem indexFrom?_of_not_starts {needle rest : Word} {c : Char} (out : Word)
    (h : ¬ needle <+: c :: rest) :
    indexFrom? needle (out ++ c :: rest) out.length =
      indexFrom? needle (out ++ c :: rest) (out.length + 1) := by
  have hlen : (out ++ [c]).length = out.length + 1 := List.length_append
  rw [indexFrom?_append, List.append_cons, ← hlen, indexFrom?_append, hlen]
  simp [indexIn?, h]

theorem splice_append (out rest replacement : Word) (len : Nat) :
    splice (out ++ rest) out.length len replacement = out ++ replacement ++ rest.drop len := by
  simp [splice, List.drop_append]

/-! ## The agreement -/

/-- The search at a place where the needle stands. -/
theorem spliceFrom_of_starts {rest : Word} (out : Word) (h : needle <+: rest) :
    spliceFrom needle choose (out ++ rest) out.length = (do
      match ← choose (out ++ rest) out.length with
      | some replacement =>
        spliceFrom needle choose (out ++ replacement ++ rest.drop needle.length)
          (resumeAt needle replacement out.length)
      | none => spliceFrom needle choose (out ++ rest) (out.length + 1)) := by
  simp only [spliceFrom_of_some (indexFrom?_of_starts out h), splice_append]

/-- What is done and what is left make up the word that the search has by then, and the search goes
on where they meet. -/
theorem spliceFrom_eq_scan (out rest : Word) :
    spliceFrom needle choose (out ++ rest) out.length = scan needle choose out rest := by
  fun_induction scan needle choose out rest with
  | case1 out hn =>
    rw [spliceFrom_of_starts out (List.prefix_nil.mpr hn)]
    simp only [List.append_nil, List.drop_nil]
    refine bind_congr fun chosen => ?_
    -- the empty text was found behind the last character, so that nothing is left to search
    cases chosen with
    | none => exact spliceFrom_of_length_lt (Nat.lt_succ_self _)
    | some replacement => exact spliceFrom_of_length_lt (by simp [resumeAt, hn])
  | case2 out hn =>
    have hi : indexFrom? needle (out ++ []) out.length = none := by
      rw [indexFrom?_append]
      simp [indexIn?, hn]
    rw [spliceFrom_of_none hi, List.append_nil]
  | case3 out c rest hp ihEmpty ihBehind ihNext =>
    rw [spliceFrom_of_starts out hp]
    refine bind_congr fun chosen => ?_
    cases chosen with
    | none =>
      rw [← List.append_cons, List.length_append] at ihNext
      exact ihNext
    | some replacement =>
      dsimp only
      split
      case isTrue hn =>
        have ih := ihEmpty replacement
        rw [← List.append_cons, List.length_append, List.length_append] at ih
        simpa [resumeAt, hn] using ih
      case isFalse hn =>
        have ih := ihBehind replacement hn
        rw [List.length_append] at ih
        simpa [resumeAt, hn] using ih
  | case4 out c rest hp ih =>
    rw [← List.append_cons, List.length_append] at ih
    rw [spliceFrom_congr (indexFrom?_of_not_starts out hp)]
    exact ih

end

end Word

/-- Searches go the same way with choices that are related wherever there is room for what they look
for. -/
theorem Compatible.spliceFrom {m m' : Type → Type} [Monad m] [Monad m']
    {R : ∀ α : Type, m α → m' α → Prop} (hR : Compatible R) {needle : Word}
    {f : Word → Nat → m (Option Word)} {g : Word → Nat → m' (Option Word)}
    (h : ∀ w i, i + needle.length ≤ w.length → R (Option Word) (f w i) (g w i)) (w : Word)
    (start : Nat) :
    R Word (Word.spliceFrom needle f w start) (Word.spliceFrom needle g w start) := by
  fun_induction Word.spliceFrom needle f w start with
  | case1 w start hi =>
    rw [Word.spliceFrom_of_none hi]
    exact hR.value w
  | case2 w start i hi ihReplaced ihNext =>
    rw [Word.spliceFrom_of_some hi]
    refine hR.sequence (h w i (Word.indexFrom?_eq_some hi).2.1) fun chosen => ?_
    cases chosen with
    | none => exact ihNext
    | some replacement => exact ihReplaced replacement

/-! ## Rules -/

namespace Rule

theorem apply_of_target_eq {r : Rule} {s : Word} (htarget : r.target = s.map .literal)
    (hchange : Pattern.isText r.change = true)
    (helse : ∀ p ∈ r.elseChange, Pattern.isText p = true) (table : CategoryTable) (w : Word) :
    r.apply table w = Word.scan s (r.replacementAt table s.length) [] w := by
  have htext : Pattern.isText r.target = true := htarget ▸ Pattern.isText_map_literal s
  rw [apply_of_isText table w htext, applyToOccurrences_of_isText hchange helse, htarget,
    Pattern.text_map_literal]
  exact Word.spliceFrom_eq_scan [] w

/-- A rule that has nothing but texts makes one pass over the word. -/
theorem apply_eq_scan (r : Rule) (table : CategoryTable) (w : Word)
    (htarget : Pattern.isText r.target = true) (hchange : Pattern.isText r.change = true)
    (helse : ∀ p ∈ r.elseChange, Pattern.isText p = true) :
    r.apply table w =
      Word.scan (Pattern.text r.target)
        (r.replacementAt table (Pattern.text r.target).length) [] w := by
  rw [apply, Pattern.targetShape?_of_isText htarget]
  show r.applyToOccurrences table (Pattern.text r.target) w = _
  rw [applyToOccurrences_of_isText hchange helse]
  exact Word.spliceFrom_eq_scan [] w

/-- The rule `aa/b/_#`. -/
def finalPair : Rule :=
  ⟨[.literal 'a', .literal 'a'], [.literal 'b'], some [.locus, .edge], none, none⟩

/-- Of two overlapping occurrences the first is passed over where the conditions ask for the
second. -/
theorem apply_finalPair :
    finalPair.apply .empty ['a', 'a', 'a'] =
        Word.scan ['a', 'a'] (finalPair.replacementAt .empty 2) [] ['a', 'a', 'a'] ∧
      (finalPair.apply .empty ['a', 'a', 'a']).toOption = some ['a', 'b'] := by
  have h := apply_eq_scan finalPair .empty ['a', 'a', 'a'] rfl rfl nofun
  refine ⟨h, ?_⟩
  rw [h]
  decide +kernel

end Rule

end SoundChange
