import SoundChange.Fault

/-!
# Computations on a machine

On a machine numbers are not below zero and do not go beyond the largest one, and a list has no more
than there is room for. So what is computed with indices can go wrong: a difference may be below
zero, a sum too large, a part of a list not in the list, and a list too long.

* `Machine`: the largest number, the longest list, and what becomes of a sum that is too large.
* `Halt`, `Checked`: why a computation on a machine stops.
* `Checked.difference`, `Checked.sum`, `Checked.slice`, `Checked.store`: what a machine does.
-/

set_option autoImplicit false

namespace SoundChange

/-- What a machine has for numbers and for lists. -/
structure Machine where
  /-- The largest number. -/
  top : Nat
  /-- The length of the longest list. -/
  capacity : Nat
  /-- Whether sums above the largest number begin again at zero. Otherwise the machine stops. -/
  wraps : Bool
  /-- One can count through two lists, and one further. -/
  room : 2 * capacity < top

/-- A machine with numbers of 64 bits. -/
def Machine.wide (wraps : Bool) : Machine where
  top := UInt64.size - 1
  capacity := UInt64.size / 2 - 1
  wraps := wraps
  room := by decide

/-- Why a computation on a machine stops. -/
inductive Halt where
  /-- It would stop on any machine. -/
  | fault (cause : RuleFault)
  /-- A difference below zero, or a part that is not in the list. -/
  | outOfRange
  /-- A sum above the largest number. -/
  | overflow
  /-- A list that there is no room for. -/
  | noRoom
  deriving DecidableEq, Repr

/-- A computation on a machine. -/
abbrev Checked := Except Halt

namespace Checked

/-- The computation that needs no machine. -/
def lift {α : Type} (x : Except RuleFault α) : Checked α :=
  x.mapError .fault

/-- One number less another. -/
def difference (a b : Nat) : Checked Nat :=
  if b ≤ a then pure (a - b) else throw .outOfRange

/-- Two numbers added up. -/
def sum (M : Machine) (a b : Nat) : Checked Nat :=
  if a + b ≤ M.top then pure (a + b)
  else if M.wraps then pure ((a + b) % (M.top + 1))
  else throw .overflow

/-- The part of a list from the index `i` up to the index `j`. -/
def slice {α : Type} (l : List α) (i j : Nat) : Checked (List α) :=
  if i ≤ j ∧ j ≤ l.length then pure ((l.take j).drop i) else throw .outOfRange

/-- A list that is put together. -/
def store {α : Type} (M : Machine) (l : List α) : Checked (List α) :=
  if l.length ≤ M.capacity then pure l else throw .noRoom

end Checked

end SoundChange
