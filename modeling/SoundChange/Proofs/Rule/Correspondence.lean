import Mathlib.Data.List.Infix
import Mathlib.Data.List.Nodup
import SoundChange.Proofs.Rule.Environment

/-!
# Categories that correspond

A rule about two categories turns a member of the one into the member of the other that has the same
index. Where a member is listed more than once it is the first index that counts, so that a member
has one counterpart at most. The way back from there leads to the same index if the other category
lists no member twice.

* `apply_unconditional_lists`: a rule about two lists of members, character by character.
* `exists_counterpart`: a character there and back.
* `apply_there_and_back`: a word there and back.
-/

set_option autoImplicit false

namespace SoundChange.Rule

theorem apply_unconditional_lists {table : CategoryTable} {p q : Pattern} {xs ys : List Word}
    (hp : Pattern.Lists table p xs) (hq : Pattern.Lists table q ys) (w : Word) :
    (unconditional p q).apply table w =
      .ok (w.flatMap (chosenPiece xs (some (.memberwise ys)))) := by
  obtain ⟨hplists, hpmembers⟩ := Pattern.lists_iff.mp hp
  obtain ⟨hqlists, hqmembers⟩ := Pattern.lists_iff.mp hq
  have hs := Substitute.ofPattern_of_listsMembers hqlists hqmembers
  rw [apply_of_listsMembers (r := unconditional p q) table w hplists]
  show Pattern.members table p >>= _ = _
  rw [hpmembers]
  exact applyToMembers_of_verdict (v := .change) (substitutes_unconditional hs p)
    (fun _ _ => rfl) xs

theorem forMember_of_lt {members : List Word} {k : Nat} (h : k < members.length) :
    (Substitute.memberwise members).forMember k = members[k] := by
  rw [Substitute.forMember, List.getD_eq_getElem?_getD, List.getElem?_eq_getElem h,
    Option.getD_some]

section
variable {xs ys : List Word} (hsingle : ∀ m ∈ ys, m.length = 1) (hlen : xs.length ≤ ys.length)
  (hys : ys.Nodup)
include hsingle hlen hys

/-- A character that is not in the second list stays as it is in both directions, or goes to a
character whose only index leads back. -/
theorem exists_counterpart {c : Char} (hc : [c] ∉ ys) :
    ∃ d, chosenPiece xs (some (.memberwise ys)) c = [d] ∧
      chosenPiece ys (some (.memberwise xs)) d = [c] := by
  cases hk : xs.idxOf? [c] with
  | none =>
    refine ⟨c, ?_, ?_⟩
    · rw [chosenPiece, hk]
    · rw [chosenPiece, List.idxOf?_eq_none_iff.mpr hc]
  | some k =>
    obtain ⟨hkx, hxc, -⟩ := List.idxOf?_eq_some_iff.mp hk
    have hky : k < ys.length := Nat.lt_of_lt_of_le hkx hlen
    obtain ⟨d, hd⟩ := List.length_eq_one_iff.mp (hsingle _ (List.getElem_mem hky))
    have hback : ys.idxOf? [d] = some k :=
      List.idxOf?_eq_some_iff.mpr ⟨hky, hd, fun j hj hjd =>
        Nat.ne_of_lt hj (hys.getElem_inj_iff.mp (hjd.trans hd.symm))⟩
    refine ⟨d, ?_, ?_⟩
    · rw [chosenPiece, hk, ← hd]
      exact forMember_of_lt hky
    · rw [chosenPiece, hback, ← hxc]
      exact forMember_of_lt hkx

theorem flatMap_there_and_back {w : Word} (hw : ∀ c ∈ w, [c] ∉ ys) :
    (w.flatMap (chosenPiece xs (some (.memberwise ys)))).length = w.length ∧
      (w.flatMap (chosenPiece xs (some (.memberwise ys)))).flatMap
        (chosenPiece ys (some (.memberwise xs))) = w := by
  induction w with
  | nil => exact ⟨rfl, rfl⟩
  | cons c w ih =>
    rw [List.forall_mem_cons] at hw
    obtain ⟨d, hthere, hback⟩ := exists_counterpart hsingle hlen hys hw.1
    obtain ⟨ihLength, ihBack⟩ := ih hw.2
    rw [List.flatMap_cons, hthere, List.singleton_append]
    constructor
    · rw [List.length_cons, List.length_cons, ihLength]
    · rw [List.flatMap_cons, hback, ihBack, List.singleton_append]

end

/-- The rule about two lists of members and then the one the other way around give a word back that
has no member of the second list, and the word in between is as long. The second list has one
character for each member of the first one, and none of them twice; the first one may list a member
twice or share it with the second one. -/
theorem apply_there_and_back {table : CategoryTable} {p q : Pattern} {xs ys : List Word}
    (hp : Pattern.Lists table p xs) (hq : Pattern.Lists table q ys)
    (hsingle : ∀ m ∈ ys, m.length = 1) (hlen : xs.length ≤ ys.length) (hys : ys.Nodup) {w : Word}
    (hw : ∀ m ∈ ys, ¬ m <:+: w) :
    ∃ between, (unconditional p q).apply table w = .ok between ∧ between.length = w.length ∧
      (unconditional q p).apply table between = .ok w := by
  have hchars : ∀ c ∈ w, [c] ∉ ys := fun c hc hmem =>
    hw [c] hmem ((List.singleton_infix_iff c w).mpr hc)
  obtain ⟨hlength, hback⟩ := flatMap_there_and_back hsingle hlen hys hchars
  refine ⟨_, apply_unconditional_lists hp hq w, hlength, ?_⟩
  rw [apply_unconditional_lists hq hp, hback]

/-- The categories `X=aba` and `Y=bcde`. -/
def sharedVowels : CategoryTable :=
  (CategoryTable.empty.insert 'X' [['a'], ['b'], ['a']]).insert 'Y'
    [['b'], ['c'], ['d'], ['e']]

/-- The category `X` lists `a` twice and shares `b` with `Y`. -/
theorem apply_there_and_back_sharedVowels :
    ∃ between, (unconditional [.category 'X'] [.category 'Y']).apply sharedVowels "axa".toList =
        .ok between ∧ between.length = 3 ∧
      (unconditional [.category 'Y'] [.category 'X']).apply sharedVowels between =
        .ok "axa".toList :=
  apply_there_and_back (.named rfl) (.named rfl) (by decide) (by decide) (by decide) (by decide)

end SoundChange.Rule
