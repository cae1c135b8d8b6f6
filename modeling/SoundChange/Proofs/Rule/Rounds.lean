import SoundChange.Proofs.Rule.Scan

/-!
# The rounds of a search

A search for a text goes through a word that may grow with every replacement, so that neither the
word nor the index by itself says how much is left to do. The places from the index on do: each
round leaves fewer of them. What is counted here is the search itself, with a choice that counts
how often it is made.

* `Round`: one round of a search; `Round.left_lt`: it leaves fewer places.
* `spliceFrom_counted`: the search comes to the same outcome if its rounds are counted, and has no
  more of them than there are places.
* `apply_rounds`: the rounds of a rule that has nothing but texts.
-/

set_option autoImplicit false

namespace SoundChange

namespace Word

section
variable {ε : Type} {needle : Word} {choose : Word → Nat → Except ε (Option Word)}

/-! ## One round -/

/-- A round of the search that is not its last: from the word as it is and the index to search from
to those of the next round. -/
inductive Round (needle : Word) (choose : Word → Nat → Except ε (Option Word)) :
    Word → Nat → Word → Nat → Prop
  | replaced {w : Word} {start i : Nat} {replacement : Word}
    (hi : indexFrom? needle w start = some i) (hc : choose w i = .ok (some replacement)) :
    Round needle choose w start (splice w i needle.length replacement)
      (resumeAt needle replacement i)
  | passed {w : Word} {start i : Nat} (hi : indexFrom? needle w start = some i)
    (hc : choose w i = .ok none) : Round needle choose w start w (i + 1)

theorem resumeAt_le {w : Word} {start i : Nat} (h : indexFrom? needle w start = some i)
    (replacement : Word) :
    resumeAt needle replacement i ≤ (splice w i needle.length replacement).length + 1 := by
  obtain ⟨-, hi, -⟩ := indexFrom?_eq_some h
  have hlen := length_splice hi replacement
  unfold resumeAt
  split
  · omega
  · omega

theorem Round.start_le {w w' : Word} {start start' : Nat}
    (h : Round needle choose w start w' start') : start' ≤ w'.length + 1 := by
  cases h with
  | replaced hi => exact resumeAt_le hi _
  | passed hi =>
    have := indexFrom?_eq_some hi
    omega

/-- The places that are left, that behind the last character among them, become fewer. -/
theorem Round.left_lt {w w' : Word} {start start' : Nat}
    (h : Round needle choose w start w' start') :
    w'.length + 1 - start' < w.length + 1 - start := by
  cases h with
  | replaced hi => exact resumeAt_lt hi _
  | passed hi =>
    have := indexFrom?_eq_some hi
    omega

/-! ## All rounds -/

/-- Makes a choice and counts it. -/
def counted (choose : Word → Nat → Except ε (Option Word)) (w : Word) (i : Nat) :
    ExceptT ε (StateM Nat) (Option Word) := do
  modify (· + 1)
  ExceptT.mk (pure (choose w i))

/-- The outcome of the search and the number of its rounds, counted from `n` on. -/
def spliceCounting (needle : Word) (choose : Word → Nat → Except ε (Option Word)) (w : Word)
    (start n : Nat) : Except ε Word × Nat :=
  Id.run ((spliceFrom needle (counted choose) w start).run.run n)

theorem spliceCounting_of_none {w : Word} {start : Nat} (h : indexFrom? needle w start = none)
    (n : Nat) : spliceCounting needle choose w start n = (.ok w, n) := by
  rw [spliceCounting, spliceFrom_of_none h]
  rfl

theorem spliceCounting_of_error {w : Word} {start i : Nat} {fault : ε}
    (h : indexFrom? needle w start = some i) (hc : choose w i = .error fault) (n : Nat) :
    spliceCounting needle choose w start n = (.error fault, n + 1) := by
  rw [spliceCounting, spliceFrom_of_some h, counted, hc]
  rfl

theorem Round.spliceFrom_eq {w w' : Word} {start start' : Nat}
    (h : Round needle choose w start w' start') :
    spliceFrom needle choose w start = spliceFrom needle choose w' start' := by
  cases h with
  | replaced hi hc =>
    rw [spliceFrom_of_some hi, hc]
    rfl
  | passed hi hc =>
    rw [spliceFrom_of_some hi, hc]
    rfl

theorem Round.spliceCounting_eq {w w' : Word} {start start' : Nat}
    (h : Round needle choose w start w' start') (n : Nat) :
    spliceCounting needle choose w start n = spliceCounting needle choose w' start' (n + 1) := by
  cases h with
  | replaced hi hc =>
    rw [spliceCounting, spliceFrom_of_some hi, counted, hc]
    rfl
  | passed hi hc =>
    rw [spliceCounting, spliceFrom_of_some hi, counted, hc]
    rfl

theorem exists_round {w : Word} {start i : Nat} {chosen : Option Word}
    (hi : indexFrom? needle w start = some i) (hc : choose w i = .ok chosen) :
    ∃ w' start', Round needle choose w start w' start' := by
  cases chosen with
  | none => exact ⟨_, _, .passed hi hc⟩
  | some replacement => exact ⟨_, _, .replaced hi hc⟩

/-- There are no more rounds than places from the index on, and to count them changes nothing. -/
theorem spliceFrom_counted (needle : Word) (choose : Word → Nat → Except ε (Option Word)) (w : Word)
    (start : Nat) :
    ∃ k ≤ w.length + 1 - start, ∀ n, spliceCounting needle choose w start n =
      (spliceFrom needle choose w start, n + k) := by
  -- the induction is on the places that are left, of which a round leaves fewer
  induction hleft : w.length + 1 - start using Nat.strongRecOn generalizing w start with
  | ind left ih =>
    cases hi : indexFrom? needle w start with
    | none =>
      refine ⟨0, Nat.zero_le _, fun n => ?_⟩
      rw [spliceCounting_of_none hi, spliceFrom_of_none hi]
      rfl
    | some i =>
      cases hc : choose w i with
      | error fault =>
        refine ⟨1, ?_, fun n => ?_⟩
        · have := indexFrom?_eq_some hi
          omega
        · rw [spliceCounting_of_error hi hc, spliceFrom_of_some hi, hc]
          rfl
      | ok chosen =>
        obtain ⟨w', start', hround⟩ := exists_round hi hc
        have hlt := hround.left_lt
        obtain ⟨k, hk, hrun⟩ := ih _ (hleft ▸ hlt) w' start' rfl
        refine ⟨k + 1, by omega, fun n => ?_⟩
        rw [hround.spliceCounting_eq, hrun, hround.spliceFrom_eq, Nat.add_assoc, Nat.add_comm 1 k]

end

end Word

/-! ## Rules -/

namespace Rule

/-- A rule that has nothing but texts goes at most once more round than the word has characters,
whatever it puts in; each round but the last leaves fewer places to search, and none of them goes on
further than behind the last character. -/
theorem apply_rounds (r : Rule) (table : CategoryTable) (w : Word)
    (htarget : Pattern.isText r.target = true) (hchange : Pattern.isText r.change = true)
    (helse : ∀ p ∈ r.elseChange, Pattern.isText p = true) :
    (∃ n ≤ w.length + 1,
      Word.spliceCounting (Pattern.text r.target)
        (r.replacementAt table (Pattern.text r.target).length) w 0 0 = (r.apply table w, n)) ∧
    ∀ w₁ start₁ w₂ start₂,
      Word.Round (Pattern.text r.target) (r.replacementAt table (Pattern.text r.target).length)
        w₁ start₁ w₂ start₂ →
      w₂.length + 1 - start₂ < w₁.length + 1 - start₁ ∧ start₂ ≤ w₂.length + 1 ∧
        ∀ n, Word.spliceCounting (Pattern.text r.target)
            (r.replacementAt table (Pattern.text r.target).length) w₁ start₁ n =
          Word.spliceCounting (Pattern.text r.target)
            (r.replacementAt table (Pattern.text r.target).length) w₂ start₂ (n + 1) := by
  constructor
  · have happly : r.apply table w = Word.spliceFrom (Pattern.text r.target)
        (r.replacementAt table (Pattern.text r.target).length) w 0 := by
      rw [apply, Pattern.targetShape?_of_isText htarget]
      exact applyToOccurrences_of_isText hchange helse table _ w
    obtain ⟨n, hn, hrun⟩ := Word.spliceFrom_counted (Pattern.text r.target)
      (r.replacementAt table (Pattern.text r.target).length) w 0
    refine ⟨n, hn, ?_⟩
    rw [hrun, happly, Nat.zero_add]
  · intro w₁ start₁ w₂ start₂ hround
    exact ⟨hround.left_lt, hround.start_le, hround.spliceCounting_eq⟩

/-- The rule `/xy`. -/
def infixation : Rule :=
  ⟨[], [.literal 'x', .literal 'y'], none, none, none⟩

/-- The empty text is found before every character and behind the last one, and that is as often as
a text can be found. -/
theorem apply_rounds_infixation :
    ∃ n ≤ 3, Word.spliceCounting [] (infixation.replacementAt .empty 0) ['a', 'b'] 0 0 =
        (infixation.apply .empty ['a', 'b'], n) ∧
      n = 3 ∧ (infixation.apply .empty ['a', 'b']).toOption = some "xyaxybxy".toList := by
  obtain ⟨⟨n, hn, hrun⟩, -⟩ := apply_rounds infixation .empty ['a', 'b'] rfl rfl nofun
  have hcount : n = _ := (congrArg Prod.snd hrun).symm
  have hout : infixation.apply .empty ['a', 'b'] = _ := (congrArg Prod.fst hrun).symm
  refine ⟨n, hn, hrun, ?_, ?_⟩
  · rw [hcount]
    decide +kernel
  · rw [hout]
    decide +kernel

end Rule

end SoundChange
