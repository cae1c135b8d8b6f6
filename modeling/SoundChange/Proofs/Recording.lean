import SoundChange.Proofs.Outcome
import SoundChange.Proofs.Verdict

/-!
# Computations that keep a record

A computation can write down something on its way and come to what it came to before. What two of
them write down, one after the other, stands in the record one behind the other, so that whatever
holds of all entries of the parts holds of all entries of the whole.

* `Attempt.lift`, `Attempt.note`: the computation that writes nothing down, and a single entry.
* `Records`: an outcome that is kept, with entries of some kind.
* `records_bind`, `compatible_records`: what is put together.
-/

set_option autoImplicit false

namespace SoundChange

open Verdict (Attempt startedIn_bind_ok startedIn_bind_error)

/-- The computation that does nothing to the state. -/
def Verdict.Attempt.lift {σ α : Type} (x : Except RuleFault α) : Attempt σ α :=
  ExceptT.mk (pure x)

/-- Writes down an entry. -/
def Verdict.Attempt.note {β : Type} (entry : β) : Attempt (List β) Unit :=
  modify (· ++ [entry])

/-- The attempt comes to `x`, whatever was written down before, and writes down nothing but entries
of that kind. -/
def Records {α β : Type} (kind : β → Prop) (x : Except RuleFault α) (y : Attempt (List β) α) :
    Prop :=
  ∀ log, ∃ entries, y.startedIn log = (x, log ++ entries) ∧ ∀ entry ∈ entries, kind entry

section
variable {α α' β : Type} {kind : β → Prop} {x x' : Except RuleFault α} {y y' : Attempt (List β) α}

theorem records_lift (x : Except RuleFault α) : Records kind x (.lift x) :=
  fun log => ⟨[], by rw [List.append_nil]; rfl, nofun⟩

theorem records_pure (a : α) : Records kind (.ok a) (pure a) :=
  records_lift (.ok a)

theorem records_throw (fault : RuleFault) :
    Records kind (.error fault : Except RuleFault α) (throw fault) :=
  records_lift (.error fault)

theorem records_bind {f : α → Except RuleFault α'} {g : α → Attempt (List β) α'}
    (hx : Records kind x y) (hf : ∀ a, Records kind (f a) (g a)) :
    Records kind (x >>= f) (y >>= g) := by
  intro log
  obtain ⟨entries, hy, hkind⟩ := hx log
  cases x with
  | error fault => exact ⟨entries, startedIn_bind_error hy g, hkind⟩
  | ok a =>
    obtain ⟨entries', hg, hkind'⟩ := hf a (log ++ entries)
    refine ⟨entries ++ entries', ?_, List.forall_mem_append.mpr ⟨hkind, hkind'⟩⟩
    rw [startedIn_bind_ok hy, hg, List.append_assoc]
    rfl

/-- An entry does not change what the computation behind it comes to. -/
theorem records_note {entry : β} (hentry : kind entry) (h : Records kind x y) :
    Records kind x (do Attempt.note entry; y) := by
  have hnote : Records kind (.ok ()) (Attempt.note entry) := fun log =>
    ⟨[entry], rfl, List.forall_mem_singleton.mpr hentry⟩
  exact records_bind hnote fun _ => h

theorem records_ite {p : Prop} [Decidable p] (hx : p → Records kind x y)
    (hx' : ¬ p → Records kind x' y') :
    Records kind (if p then x else x') (if p then y else y') := by
  split
  case isTrue hp => exact hx hp
  case isFalse hp => exact hx' hp

theorem compatible_records (kind : β → Prop) :
    Compatible fun α (x : Except RuleFault α) (y : Attempt (List β) α) => Records kind x y where
  value := records_pure
  sequence := records_bind

end

end SoundChange
