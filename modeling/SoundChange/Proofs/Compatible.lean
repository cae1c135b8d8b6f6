import Mathlib.Init

/-!
# Relations between computations

Two computations can be in two monads and go the same way: where a relation holds of equal values
and goes from the parts of a sequence to the whole, it holds of all that is put together from
related parts in the same order. A statement about one computation is such a relation too.

* `Compatible`: these relations.
* `Compatible.anyM`, `Compatible.findM?`, `Compatible.mapM`: traversals of a list.
-/

set_option autoImplicit false

namespace SoundChange

/-- The relation holds of equal values and goes through sequences. -/
structure Compatible {m m' : Type → Type} [Monad m] [Monad m']
    (R : ∀ α : Type, m α → m' α → Prop) : Prop where
  value : ∀ {α : Type} (a : α), R α (pure a) (pure a)
  sequence : ∀ {α β : Type} {x : m α} {y : m' α} {f : α → m β} {g : α → m' β},
    R α x y → (∀ a, R β (f a) (g a)) → R β (x >>= f) (y >>= g)

/-- Computations that are equal. -/
theorem compatible_eq {m : Type → Type} [Monad m] :
    Compatible fun α (x y : m α) => x = y where
  value _ := rfl
  sequence hx hf := by rw [hx, funext hf]

namespace Compatible

section
variable {m m' : Type → Type} [Monad m] [Monad m'] {R : ∀ α : Type, m α → m' α → Prop}
  (hR : Compatible R) {α β : Type}
include hR

theorem anyM {f : α → m Bool} {g : α → m' Bool} {l : List α}
    (h : ∀ a ∈ l, R Bool (f a) (g a)) : R Bool (l.anyM f) (l.anyM g) := by
  induction l with
  | nil => exact hR.value false
  | cons a l ih =>
    rw [List.forall_mem_cons] at h
    rw [List.anyM, List.anyM]
    refine hR.sequence h.1 fun b => ?_
    cases b with
    | false => exact ih h.2
    | true => exact hR.value true

theorem findM? {f : α → m Bool} {g : α → m' Bool} {l : List α}
    (h : ∀ a ∈ l, R Bool (f a) (g a)) : R (Option α) (l.findM? f) (l.findM? g) := by
  induction l with
  | nil => exact hR.value none
  | cons a l ih =>
    rw [List.forall_mem_cons] at h
    rw [List.findM?, List.findM?]
    refine hR.sequence h.1 fun b => ?_
    cases b with
    | false => exact ih h.2
    | true => exact hR.value (some a)

theorem map [LawfulMonad m] [LawfulMonad m'] (f : α → β) {x : m α} {y : m' α} (h : R α x y) :
    R β (f <$> x) (f <$> y) := by
  rw [map_eq_pure_bind, map_eq_pure_bind]
  exact hR.sequence h fun a => hR.value (f a)

theorem mapM [LawfulMonad m] [LawfulMonad m'] {f : α → m β} {g : α → m' β} {l : List α}
    (h : ∀ a ∈ l, R β (f a) (g a)) : R (List β) (l.mapM f) (l.mapM g) := by
  induction l with
  | nil => exact hR.value []
  | cons a l ih =>
    rw [List.forall_mem_cons] at h
    rw [List.mapM_cons, List.mapM_cons]
    exact hR.sequence h.1 fun b => hR.sequence (ih h.2) fun bs => hR.value (b :: bs)

end

end Compatible

end SoundChange
