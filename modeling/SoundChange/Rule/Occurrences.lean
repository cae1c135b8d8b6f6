import SoundChange.Condition
import SoundChange.Verdict

/-!
# Rules about texts

A target that is a text is looked for from left to right in a word that changes on the way: an
occurrence where the conditions select a replacement is spliced out and the search goes on behind
the replacement; at any other occurrence the search goes on one character further, so that
overlapping occurrences are looked at too.

* `indexFrom?_eq_some`: an occurrence that is found lies in the word, at the position searched from
  or behind it.
* `Word.spliceFrom` is the search. It is stated for any way to choose a replacement, in any monad,
  and ends because fewer characters are left to search at each step (`resumeAt_lt`).
-/

set_option autoImplicit false

namespace SoundChange

namespace Word

/-- The index of the first occurrence of `needle` in a word whose first character counts as
`i`. -/
def indexIn? (needle : Word) (i : Nat) : Word → Option Nat
  | [] => if needle.isEmpty then some i else none
  | c :: w => if needle.isPrefixOf (c :: w) then some i else indexIn? needle (i + 1) w

/-- The index of the first occurrence of `needle` at `start` or behind it. -/
def indexFrom? (needle w : Word) (start : Nat) : Option Nat :=
  if start ≤ w.length then indexIn? needle start (w.drop start) else none

theorem indexIn?_eq_some {needle w : Word} {start i : Nat} (h : indexIn? needle start w = some i) :
    start ≤ i ∧ i - start + needle.length ≤ w.length ∧ needle <+: w.drop (i - start) := by
  fun_induction indexIn? needle start w with
  | case1 start hn => simp_all
  | case2 => simp at h
  | case3 start c w hp =>
    obtain rfl := Option.some.inj h
    have hp := List.isPrefixOf_iff_prefix.mp hp
    simpa using ⟨hp.length_le, hp⟩
  | case4 start c w _ ih =>
    obtain ⟨h₁, h₂, h₃⟩ := ih h
    have hi : i - start = i - (start + 1) + 1 := by omega
    refine ⟨by omega, ?_, ?_⟩
    · rw [List.length_cons]
      omega
    · rwa [hi, List.drop_succ_cons]

theorem indexFrom?_eq_some {needle w : Word} {start i : Nat}
    (h : indexFrom? needle w start = some i) :
    start ≤ i ∧ i + needle.length ≤ w.length ∧ needle <+: w.drop i := by
  unfold indexFrom? at h
  split at h
  · obtain ⟨h₁, h₂, h₃⟩ := indexIn?_eq_some h
    rw [List.drop_drop, Nat.add_sub_cancel' h₁] at h₃
    rw [List.length_drop] at h₂
    exact ⟨h₁, by omega, h₃⟩
  · simp at h

/-- The word with the `len` characters from `i` on replaced. -/
def splice (w : Word) (i len : Nat) (replacement : Word) : Word :=
  w.take i ++ replacement ++ w.drop (i + len)

theorem length_splice {w : Word} {i len : Nat} (h : i + len ≤ w.length) (replacement : Word) :
    (splice w i len replacement).length + len = w.length + replacement.length := by
  simp [splice]
  omega

/-- Where to go on after a replacement at `i`: behind it, and behind one more character if nothing
was taken out. -/
def resumeAt (needle replacement : Word) (i : Nat) : Nat :=
  i + replacement.length + if needle.isEmpty then 1 else 0

theorem resumeAt_lt {needle w : Word} {start i : Nat} (h : indexFrom? needle w start = some i)
    (replacement : Word) :
    (splice w i needle.length replacement).length + 1 - resumeAt needle replacement i <
      w.length + 1 - start := by
  obtain ⟨hs, hi, -⟩ := indexFrom?_eq_some h
  have := length_splice hi replacement
  unfold resumeAt
  cases needle <;> simp_all <;> omega

/-- Replaces the occurrences of `needle` from `start` on, where `choose`, given the word as it is
by then and the index of the occurrence, selects a replacement. -/
def spliceFrom {m : Type → Type} [Monad m] (needle : Word)
    (choose : Word → Nat → m (Option Word)) (w : Word) (start : Nat) : m Word :=
  match _hi : indexFrom? needle w start with
  | none => pure w
  | some i => do
    match ← choose w i with
    | some replacement =>
      spliceFrom needle choose (splice w i needle.length replacement)
        (resumeAt needle replacement i)
    | none => spliceFrom needle choose w (i + 1)
termination_by w.length + 1 - start
decreasing_by
  · exact resumeAt_lt _hi replacement
  · have := indexFrom?_eq_some _hi
    omega

end Word

/-- The text of a change or else-change that has to be one. -/
def Pattern.asText (p : Pattern) : Except RuleFault Word :=
  if isText p then pure (text p) else throw .unfitChange

namespace Rule

/-- Applies a rule about the text `needle`. -/
def applyToOccurrences (r : Rule) (table : CategoryTable) (needle w : Word) :
    Except RuleFault Word := do
  let change ← Pattern.asText r.change
  let elseChange ← r.elseChange.mapM Pattern.asText
  Word.spliceFrom needle
    (fun current i => Verdict.select change elseChange <$>
      r.verdict (Alternative.matchesAround table current i needle.length))
    w 0

end Rule

end SoundChange
