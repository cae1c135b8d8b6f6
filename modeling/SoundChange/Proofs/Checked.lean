import SoundChange.Machine
import SoundChange.Proofs.Outcome

/-!
# What a machine does where there is no harm in it

Where a difference is not below zero, a sum not too large and a part is in its list, a machine comes
to what there is to come to; and so does a computation that is put together from such parts.

* `difference_of_le`, `sum_of_le`, `slice_of_le`: the single steps.
* `lift_bind`, `ite_eq_lift`, `compatible_lift`: computations that are put together.
* `Within`: a computation comes to what it comes to without a machine, or there is no room for a
  list.
-/

set_option autoImplicit false

namespace SoundChange

namespace Checked

/-! ## Single steps -/

theorem difference_of_le {a b : Nat} (h : b ≤ a) : difference a b = pure (a - b) :=
  if_pos h

theorem sum_of_le {M : Machine} {a b : Nat} (h : a + b ≤ M.top) : sum M a b = pure (a + b) :=
  if_pos h

section
variable {α : Type} {l : List α} {i j : Nat}

theorem slice_of_le (hij : i ≤ j) (hj : j ≤ l.length) : slice l i j = pure ((l.take j).drop i) :=
  if_pos ⟨hij, hj⟩

theorem slice_zero (hj : j ≤ l.length) : slice l 0 j = pure (l.take j) :=
  slice_of_le (Nat.zero_le j) hj

theorem slice_length (hi : i ≤ l.length) : slice l i l.length = pure (l.drop i) := by
  rw [slice_of_le hi (Nat.le_refl _), List.take_length]

theorem store_eq_ok_iff {M : Machine} {l' : List α} :
    store M l = .ok l' ↔ l.length ≤ M.capacity ∧ l = l' := by
  rw [store]
  split
  case isTrue h => simp [h]
  case isFalse h => simp [h]

end

/-! ## Without a machine -/

section
variable {α β : Type} {x x' : Except RuleFault α} {y y' : Checked α}

theorem lift_bind (x : Except RuleFault α) (f : α → Except RuleFault β) :
    lift (x >>= f) = lift x >>= fun a => lift (f a) := by
  cases x with
  | error cause => rfl
  | ok a => rfl

theorem ite_eq_lift {p : Prop} [Decidable p] (hy : p → y = lift x) (hy' : ¬ p → y' = lift x') :
    (if p then y else y') = lift (if p then x else x') := by
  split
  case isTrue hp => exact hy hp
  case isFalse hp => exact hy' hp

theorem compatible_lift :
    Compatible fun α (x : Except RuleFault α) (y : Checked α) => y = lift x where
  value _ := rfl
  sequence hx hf := by rw [hx, lift_bind, funext hf]

/-- The computation comes to what it comes to without a machine, unless there is no room for a
list, which there is in the case `enough`. -/
def Within {α : Type} (enough : Prop) (x : Except RuleFault α) (y : Checked α) : Prop :=
  y = lift x ∨ ¬ enough ∧ y = .error .noRoom

section
variable {enough : Prop}

theorem within_pure (a : α) : Within enough (pure a) (pure a) := .inl rfl

theorem within_lift_bind {f : α → Except RuleFault β} {g : α → Checked β}
    (h : ∀ a, x = .ok a → Within enough (f a) (g a)) :
    Within enough (x >>= f) (lift x >>= g) := by
  cases x with
  | error cause => exact .inl rfl
  | ok a => exact h a rfl

theorem Within.mono {enough' : Prop} (h : Within enough x y) (hmono : enough' → enough) :
    Within enough' x y :=
  h.imp id fun ⟨hroom, hy⟩ => ⟨fun henough => hroom (hmono henough), hy⟩

theorem Within.eq_ok {a : α} (h : Within enough x (.ok a)) : x = .ok a := by
  rcases h with h | ⟨-, h⟩
  · exact mapError_eq_ok_iff.mp h.symm
  · cases h

/-- A computation that stops does not get to what comes behind it. -/
theorem Within.bind_of_error {halt : Halt} (h : Within enough x (.error halt))
    (f : α → Except RuleFault β) : Within enough (x >>= f) (.error halt) := by
  rcases h with h | ⟨hroom, h⟩
  · obtain ⟨cause, rfl, rfl⟩ := mapError_eq_error_iff.mp h.symm
    exact .inl rfl
  · cases h
    exact .inr ⟨hroom, rfl⟩

end

end

end Checked

end SoundChange
