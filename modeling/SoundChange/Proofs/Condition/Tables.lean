import SoundChange.Proofs.Condition

/-!
# One condition under two tables

Of a table an alternative reads the members of the letters that it mentions, and no more than it
needs by the way. Where a second table has what the first one has of these letters, the alternative
is decided the same under both, unless it stops under the first one at a letter that only the second
one defines.

* `matchesInWord_agree`, `matchesAround_agree`: alternatives about the whole word and about a place.
-/

set_option autoImplicit false

namespace SoundChange

/-- The tables have the same of a letter, or the first one lacks it and to ask for it is excused. -/
def AgreeAt (excused : RuleFault → Prop) (table table' : CategoryTable) (letter : Char) : Prop :=
  table.get? letter = table'.get? letter ∨
    table.get? letter = none ∧ excused (.unknownCategory letter)

section
variable {excused : RuleFault → Prop} {table table' : CategoryTable}

/-! ## Symbols -/

theorem Symbol.matchesChar_agree {t : Symbol}
    (h : ∀ letter, t = .category letter → AgreeAt excused table table' letter) (c : Char) :
    AgreeUnless excused (t.matchesChar table c) (t.matchesChar table' c) := by
  cases t with
  | category letter =>
    rcases h letter rfl with heq | ⟨hnone, he⟩
    · rw [matchesChar, matchesChar, heq]
      exact agreeUnless_refl _
    · refine .inr ⟨_, he, ?_⟩
      rw [matchesChar, hnone]
      rfl
  | _ => exact agreeUnless_refl _

theorem matchSymbols_agree {ts : List Symbol}
    (h : ∀ letter, .category letter ∈ ts → AgreeAt excused table table' letter) (w : Word) :
    AgreeUnless excused (matchSymbols table ts w) (matchSymbols table' ts w) := by
  induction ts generalizing w with
  | nil => exact agreeUnless_refl _
  | cons t ts ih =>
    cases w with
    | nil => exact agreeUnless_refl _
    | cons c w =>
      rw [matchSymbols, matchSymbols]
      refine agreeUnless_bind (Symbol.matchesChar_agree ?_ c) fun b => ?_
      · rintro letter rfl
        exact h letter (.head _)
      · exact agreeUnless_ite (ih (fun letter hl => h letter (.tail _ hl)) w) (agreeUnless_refl _)

theorem matchAnyOf_agree {ts : List Symbol}
    (h : ∀ letter, .category letter ∈ ts → AgreeAt excused table table' letter) (count : Nat)
    (w : Word) :
    AgreeUnless excused (matchAnyOf table ts count w) (matchAnyOf table' ts count w) := by
  induction count generalizing w with
  | zero => exact agreeUnless_refl _
  | succ count ih =>
    rw [matchAnyOf, matchAnyOf]
    refine agreeUnless_bind (matchSymbols_agree h w) fun b => ?_
    exact agreeUnless_ite (agreeUnless_refl _) (ih w.tail)

/-! ## Alternatives -/

namespace Alternative

variable {alt : Alternative}
  (h : ∀ letter, .category letter ∈ alt → AgreeAt excused table table' letter)
include h

/-- Symbols taken out of an alternative agree as the alternative does. -/
theorem matchSymbols_agree_of_subset {ts : List Symbol} (hts : ts ⊆ alt) (w : Word) :
    AgreeUnless excused (matchSymbols table ts w) (matchSymbols table' ts w) :=
  matchSymbols_agree (fun letter hl => h letter (hts hl)) w

theorem matchesInWord_agree (w : Word) :
    AgreeUnless excused (matchesInWord table w alt) (matchesInWord table' w alt) := by
  rw [matchesInWord, matchesInWord]
  refine agreeUnless_ite (agreeUnless_refl _) ?_
  refine agreeUnless_ite (agreeUnless_refl _) ?_
  refine agreeUnless_ite ?_ (agreeUnless_ite ?_ ?_)
  · exact agreeUnless_ite (matchSymbols_agree_of_subset h (fun _ => List.mem_of_mem_tail) _)
      (agreeUnless_refl _)
  · exact agreeUnless_ite (matchSymbols_agree_of_subset h (List.dropLast_subset alt) _)
      (agreeUnless_refl _)
  · exact agreeUnless_ite (agreeUnless_refl _) (matchAnyOf_agree h _ w)

theorem matchesBeside_agree {before after : List Symbol} (hb : before ⊆ alt) (ha : after ⊆ alt)
    (w : Word) (start len : Nat) :
    AgreeUnless excused (matchesBeside table w start len before after)
      (matchesBeside table' w start len before after) := by
  have hleft := List.Subset.trans (anchorLeft_subset before) hb
  have hright := List.Subset.trans (anchorRight_subset after) ha
  rw [matchesBeside, matchesBeside]
  refine agreeUnless_ite ?_ (agreeUnless_refl _)
  refine agreeUnless_bind (matchSymbols_agree_of_subset h hleft _) fun b => ?_
  exact agreeUnless_ite (matchSymbols_agree_of_subset h hright _) (agreeUnless_refl _)

theorem matchesAround_agree (w : Word) (start len : Nat) :
    AgreeUnless excused (matchesAround table w start len alt)
      (matchesAround table' w start len alt) := by
  rw [matchesAround, matchesAround]
  split
  case h_1 => exact matchesInWord_agree h w
  case h_2 t after hdrop =>
    refine agreeUnless_ite (agreeUnless_refl _) ?_
    refine matchesBeside_agree h (List.takeWhile_subset _) (fun s hs => ?_) w start len
    exact (List.dropWhile_sublist (· != .locus)).subset (hdrop ▸ .tail t hs)

end Alternative

end

end SoundChange
