import Mathlib.Data.List.Forall2
import SoundChange.Proofs.Compatible

/-!
# Outcomes that are no fault

Computations that can fail are sequences, images and traversals of other ones. Here is, for each of
these forms, when the whole is no fault in terms of its parts, which of them is its fault if it is
one, and what a traversal comes to without some of its parts. To fill places one by one comes to
what a traversal from the left comes to, in whatever order they are filled (`foldlM_set_eq_ok_iff`).
Where all faults of computations are of some kind (`FaultsIn`), so are those of what is put together
from them; and where two computations differ in faults of some kind only (`AgreeUnless`), so does
what is put together from such ones in the same order.
-/

set_option autoImplicit false

namespace SoundChange

section
variable {ε α β : Type}

@[simp] theorem pure_eq_ok_iff {a b : α} : (pure a : Except ε α) = .ok b ↔ a = b := by
  simp [pure, Except.pure]

@[simp] theorem throw_ne_ok {e : ε} {a : α} : (throw e : Except ε α) ≠ .ok a :=
  nofun

@[simp] theorem throw_eq_error_iff {e e' : ε} : (throw e : Except ε α) = .error e' ↔ e = e' := by
  simp [throw, throwThe, MonadExceptOf.throw]

@[simp] theorem pure_ne_error {a : α} {e : ε} : (pure a : Except ε α) ≠ .error e :=
  nofun

theorem exists_eq_ok_iff {x : Except ε α} : (∃ a, x = .ok a) ↔ ∀ e, x ≠ .error e := by
  cases x with
  | error _ => simp
  | ok _ => simp

theorem bind_eq_ok_iff {x : Except ε α} {f : α → Except ε β} {b : β} :
    x >>= f = .ok b ↔ ∃ a, x = .ok a ∧ f a = .ok b := by
  cases x with
  | error _ => simp [Bind.bind, Except.bind]
  | ok _ => simp [Bind.bind, Except.bind]

theorem bind_eq_error_iff {x : Except ε α} {f : α → Except ε β} {e : ε} :
    x >>= f = .error e ↔ x = .error e ∨ ∃ a, x = .ok a ∧ f a = .error e := by
  cases x with
  | error _ => simp [Bind.bind, Except.bind]
  | ok _ => simp [Bind.bind, Except.bind]

theorem map_eq_ok_iff {f : α → β} {x : Except ε α} {b : β} :
    f <$> x = .ok b ↔ ∃ a, x = .ok a ∧ f a = b := by
  cases x with
  | error _ => simp [Functor.map, Except.map]
  | ok _ => simp [Functor.map, Except.map]

theorem map_eq_error_iff {f : α → β} {x : Except ε α} {e : ε} :
    f <$> x = .error e ↔ x = .error e := by
  cases x with
  | error _ => simp [Functor.map, Except.map]
  | ok _ => simp [Functor.map, Except.map]

theorem mapError_eq_ok_iff {ε' : Type} {f : ε → ε'} {x : Except ε α} {a : α} :
    x.mapError f = .ok a ↔ x = .ok a := by
  cases x with
  | error _ => simp [Except.mapError]
  | ok _ => simp [Except.mapError]

theorem mapError_eq_error_iff {ε' : Type} {f : ε → ε'} {x : Except ε α} {e' : ε'} :
    x.mapError f = .error e' ↔ ∃ e, x = .error e ∧ e' = f e := by
  cases x with
  | error _ => simp [Except.mapError, eq_comm (b := e')]
  | ok _ => simp [Except.mapError]

/-- A reader of a whole is no fault if the reader of its front leaves nothing behind. -/
theorem bind_isEmpty_eq_ok_iff {x : Except ε (α × List β)} {e : ε} {a : α} :
    (do
      let (b, rest) ← x
      if rest.isEmpty then pure b else throw e) = .ok a ↔ x = .ok (a, []) := by
  rw [bind_eq_ok_iff]
  constructor
  · rintro ⟨⟨b, rest⟩, hx, h⟩
    cases rest with
    | nil =>
      cases h
      exact hx
    | cons _ _ => cases h
  · intro hx
    exact ⟨_, hx, rfl⟩

theorem forM_eq_ok_iff {f : α → Except ε Unit} {l : List α} :
    forM l f = .ok () ↔ ∀ a ∈ l, f a = .ok () := by
  induction l with
  | nil => simp
  | cons a l ih =>
    rw [List.forM_cons, bind_eq_ok_iff, List.forall_mem_cons, ← ih]
    exact ⟨fun ⟨_, ha, hl⟩ => ⟨ha, hl⟩, fun ⟨ha, hl⟩ => ⟨(), ha, hl⟩⟩

theorem mapM_eq_ok_iff {f : α → Except ε β} {l : List α} {bs : List β} :
    l.mapM f = .ok bs ↔ List.Forall₂ (fun a b => f a = .ok b) l bs := by
  induction l generalizing bs with
  | nil => rw [List.mapM_nil, pure_eq_ok_iff, List.forall₂_nil_left_iff, eq_comm]
  | cons a l ih =>
    rw [List.mapM_cons, bind_eq_ok_iff, List.forall₂_cons_left_iff]
    constructor
    · rintro ⟨b, hb, h⟩
      obtain ⟨bs, hbs, h⟩ := bind_eq_ok_iff.mp h
      cases h
      exact ⟨b, bs, hb, ih.mp hbs, rfl⟩
    · rintro ⟨b, bs, hb, hbs, rfl⟩
      exact ⟨b, hb, bind_eq_ok_iff.mpr ⟨bs, ih.mpr hbs, rfl⟩⟩

/-- A traversal stops at the first fault. -/
theorem mapM_eq_error_iff {f : α → Except ε β} {l : List α} {e : ε} :
    l.mapM f = .error e ↔
      ∃ (i : Nat) (a : α), l[i]? = some a ∧ f a = .error e ∧
        ∀ j < i, ∀ b, l[j]? = some b → ∃ c, f b = .ok c := by
  induction l with
  | nil => simp
  | cons a l ih =>
    have htail : ∀ b, (l.mapM f >>= fun bs => pure (b :: bs)) = .error e ↔ l.mapM f = .error e :=
      fun b => map_eq_error_iff (f := (b :: ·))
    rw [List.mapM_cons, bind_eq_error_iff]
    simp only [htail, ih]
    constructor
    · rintro (ha | ⟨c, hc, i, a', ha', hf, hbefore⟩)
      · exact ⟨0, a, rfl, ha, nofun⟩
      · refine ⟨i + 1, a', ha', hf, fun j hj b hb => ?_⟩
        cases j with
        | zero => exact ⟨c, Option.some.inj hb ▸ hc⟩
        | succ j => exact hbefore j (Nat.lt_of_succ_lt_succ hj) b hb
    · rintro ⟨_ | i, a', ha', hf, hbefore⟩
      · exact .inl (Option.some.inj ha' ▸ hf)
      · obtain ⟨c, hc⟩ := hbefore 0 i.succ_pos a rfl
        exact .inr ⟨c, hc, i, a', ha', hf,
          fun j hj b hb => hbefore (j + 1) (Nat.succ_lt_succ hj) b hb⟩

/-- A fold stops at the first element that is refused, if that hangs on the element alone. -/
theorem foldlM_eq_error_iff {f : β → α → Except ε β} {Refused : α → ε → Prop} {l : List α} {b : β}
    (h : ∀ a ∈ l, ∀ b e, f b a = .error e ↔ Refused a e) {e : ε} :
    l.foldlM f b = .error e ↔
      ∃ before a after, l = before ++ a :: after ∧ (∀ c ∈ before, ∀ e', ¬ Refused c e') ∧
        Refused a e := by
  induction l generalizing b with
  | nil => simp
  | cons a l ih =>
    rw [List.forall_mem_cons] at h
    rw [List.foldlM_cons, bind_eq_error_iff, h.1]
    constructor
    · rintro (ha | ⟨b', hb', hl⟩)
      · exact ⟨[], a, l, rfl, nofun, ha⟩
      · have hnone : ∀ e', ¬ Refused a e' := fun e' he => by
          rw [← h.1 b, hb'] at he
          cases he
        obtain ⟨before, c, after, rfl, hbefore, hc⟩ := (ih h.2).mp hl
        exact ⟨a :: before, c, after, rfl, List.forall_mem_cons.mpr ⟨hnone, hbefore⟩, hc⟩
    · rintro ⟨_ | ⟨_, before⟩, c, after, hl, hbefore, hc⟩
      · obtain ⟨rfl, -⟩ := List.cons.inj hl
        exact .inl hc
      · obtain ⟨rfl, rfl⟩ := List.cons.inj hl
        obtain ⟨hnone, hbefore⟩ := List.forall_mem_cons.mp hbefore
        obtain ⟨b', hb'⟩ := exists_eq_ok_iff.mpr fun e' => mt (h.1 b e').mp (hnone e')
        exact .inr ⟨b', hb', (ih h.2).mpr ⟨before, c, after, rfl, hbefore, hc⟩⟩

theorem forM_eq_foldlM (f : α → Except ε Unit) (l : List α) :
    forM l f = l.foldlM (fun _ a => f a) () := by
  induction l with
  | nil => rfl
  | cons a l ih =>
    rw [List.forM_cons, List.foldlM_cons]
    exact bind_congr fun _ => ih

/-- Checks that are made one after the other stop at the first one that fails. -/
theorem forM_eq_error_iff {f : α → Except ε Unit} {Refused : α → ε → Prop} {l : List α}
    (h : ∀ a ∈ l, ∀ e, f a = .error e ↔ Refused a e) {e : ε} :
    forM l f = .error e ↔
      ∃ before a after, l = before ++ a :: after ∧ (∀ b ∈ before, ∀ e', ¬ Refused b e') ∧
        Refused a e := by
  rw [forM_eq_foldlM]
  exact foldlM_eq_error_iff fun a ha _ => h a ha

/-- What holds of the start and is kept by every step holds of what a fold comes to. -/
theorem foldlM_eq_ok_induction {P : β → Prop} {f : β → α → Except ε β} {l : List α} {b b' : β}
    (hf : ∀ b a b', P b → f b a = .ok b' → P b') (hb : P b) (h : l.foldlM f b = .ok b') :
    P b' := by
  induction l generalizing b with
  | nil =>
    cases h
    exact hb
  | cons a l ih =>
    rw [List.foldlM_cons] at h
    obtain ⟨c, hc, h⟩ := bind_eq_ok_iff.mp h
    exact ih (hf b a c hb hc) h

theorem length_of_mapM_eq_ok {f : α → Except ε β} {l : List α} {l' : List β}
    (h : l.mapM f = .ok l') : l'.length = l.length :=
  (mapM_eq_ok_iff.mp h).length_eq.symm

/-- A traversal from the other end can stop at another fault, but it is no fault of its own. -/
theorem mapM_reverse_eq_ok_iff {f : α → Except ε β} {l : List α} {bs : List β} :
    l.reverse.mapM f = .ok bs.reverse ↔ l.mapM f = .ok bs := by
  rw [mapM_eq_ok_iff, mapM_eq_ok_iff, List.forall₂_reverse_iff]

/-! ## Images of lists -/

theorem mapM_map_of_forall {γ δ : Type} {f : α → Except ε β} {f' : γ → Except ε δ} {g : α → γ}
    {g' : β → δ} {l : List α} (h : ∀ a ∈ l, f' (g a) = g' <$> f a) :
    (l.map g).mapM f' = List.map g' <$> l.mapM f := by
  induction l with
  | nil => rfl
  | cons a l ih =>
    rw [List.forall_mem_cons] at h
    rw [List.map_cons, List.mapM_cons, List.mapM_cons, h.1, ih h.2]
    cases f a with
    | error _ => rfl
    | ok b => cases l.mapM f <;> rfl

theorem anyM_map_of_forall {γ : Type} {f : α → Except ε Bool} {f' : γ → Except ε Bool} {g : α → γ}
    {l : List α} (h : ∀ a ∈ l, f' (g a) = f a) : (l.map g).anyM f' = l.anyM f := by
  induction l with
  | nil => rfl
  | cons a l ih =>
    rw [List.forall_mem_cons] at h
    rw [List.map_cons, List.anyM, List.anyM, h.1, ih h.2]

/-! ## Parts that are left out -/

theorem filter_mapM_cons (q : β → Bool) (f : α → Except ε β) (a : α) (l : List α) :
    List.filter q <$> (a :: l).mapM f =
      f a >>= fun b => (fun bs => if q b then b :: bs else bs) <$> List.filter q <$> l.mapM f := by
  rw [List.mapM_cons]
  cases f a with
  | error _ => rfl
  | ok b =>
    cases l.mapM f with
    | error _ => rfl
    | ok bs => exact congrArg Except.ok (List.filter_cons ..)

/-- What is kept of a traversal hangs on no element whose outcome is not kept. -/
theorem filter_mapM_filter {f : α → Except ε β} {p : α → Bool} {q : β → Bool} {l : List α}
    (h : ∀ a ∈ l, p a = false → ∃ b, f a = .ok b ∧ q b = false) :
    List.filter q <$> (l.filter p).mapM f = List.filter q <$> l.mapM f := by
  induction l with
  | nil => rfl
  | cons a l ih =>
    rw [List.forall_mem_cons] at h
    rw [List.filter_cons, filter_mapM_cons]
    cases hp : p a with
    | true =>
      rw [if_pos rfl, filter_mapM_cons, ih h.2]
    | false =>
      obtain ⟨b, hb, hq⟩ := h.1 hp
      rw [if_neg nofun, ih h.2, hb]
      show _ = (fun bs => if q b then b :: bs else bs) <$> _
      simp [hq]

/-! ## No part is a fault -/

theorem exists_bind_eq_ok {x : Except ε α} {f : α → Except ε β} (hx : ∃ a, x = .ok a)
    (hf : ∀ a, ∃ b, f a = .ok b) : ∃ b, x >>= f = .ok b := by
  obtain ⟨a, ha⟩ := hx
  obtain ⟨b, hb⟩ := hf a
  exact ⟨b, bind_eq_ok_iff.mpr ⟨a, ha, hb⟩⟩

theorem exists_map_eq_ok (f : α → β) {x : Except ε α} (hx : ∃ a, x = .ok a) :
    ∃ b, f <$> x = .ok b := by
  obtain ⟨a, ha⟩ := hx
  exact ⟨f a, map_eq_ok_iff.mpr ⟨a, ha, rfl⟩⟩

theorem compatible_exists_eq_ok : Compatible fun α (x _ : Except ε α) => ∃ a, x = .ok a where
  value a := ⟨a, rfl⟩
  sequence := exists_bind_eq_ok

theorem exists_mapM_eq_ok_iff {f : α → Except ε β} {l : List α} :
    (∃ bs, l.mapM f = .ok bs) ↔ ∀ a ∈ l, ∃ b, f a = .ok b := by
  induction l with
  | nil => simp
  | cons a l ih =>
    rw [List.forall_mem_cons, ← ih, List.mapM_cons]
    constructor
    · rintro ⟨_, h⟩
      obtain ⟨b, hb, h⟩ := bind_eq_ok_iff.mp h
      obtain ⟨bs, hbs, -⟩ := bind_eq_ok_iff.mp h
      exact ⟨⟨b, hb⟩, bs, hbs⟩
    · rintro ⟨ha, hl⟩
      exact exists_bind_eq_ok ha fun b => exists_bind_eq_ok hl fun bs => ⟨b :: bs, rfl⟩

theorem exists_foldlM_eq_ok {f : β → α → Except ε β} {l : List α}
    (h : ∀ a ∈ l, ∀ b, ∃ b', f b a = .ok b') (b : β) : ∃ b', l.foldlM f b = .ok b' := by
  induction l generalizing b with
  | nil => exact ⟨b, rfl⟩
  | cons a l ih =>
    rw [List.forall_mem_cons] at h
    rw [List.foldlM_cons]
    obtain ⟨b', hb'⟩ := h.1 b
    rw [hb']
    exact ih h.2 b'

/-! ## Places in any order -/

theorem getElem?_range_iff {n i a : Nat} : (List.range n)[i]? = some a ↔ i < n ∧ i = a := by
  simp [List.getElem?_eq_some_iff]

theorem mapM_range_eq_error_iff {f : Nat → Except ε β} {n : Nat} {e : ε} :
    (List.range n).mapM f = .error e ↔
      ∃ i < n, f i = .error e ∧ ∀ j < i, ∃ b, f j = .ok b := by
  simp only [mapM_eq_error_iff, getElem?_range_iff]
  constructor
  · rintro ⟨i, _, ⟨hi, rfl⟩, hf, hbefore⟩
    exact ⟨i, hi, hf, fun j hj => hbefore j hj j ⟨Nat.lt_trans hj hi, rfl⟩⟩
  · rintro ⟨i, hi, hf, hbefore⟩
    exact ⟨i, i, ⟨hi, rfl⟩, hf, fun j hj b hb => hb.2 ▸ hbefore j hj⟩

theorem forall₂_iff_getElem? {γ : Type} {R : α → γ → Prop} {l : List α} {l' : List γ} :
    List.Forall₂ R l l' ↔
      l.length = l'.length ∧
        ∀ (i : Nat) (a : α) (c : γ), l[i]? = some a → l'[i]? = some c → R a c := by
  rw [List.forall₂_iff_get]
  refine and_congr_right fun hlen => ?_
  constructor
  · intro h i a c ha hc
    obtain ⟨hi, rfl⟩ := List.getElem?_eq_some_iff.mp ha
    obtain ⟨hi', rfl⟩ := List.getElem?_eq_some_iff.mp hc
    exact h i hi hi'
  · intro h i hi hi'
    exact h i _ _ (List.getElem?_eq_getElem hi) (List.getElem?_eq_getElem hi')

theorem forall₂_range_iff {R : Nat → β → Prop} {n : Nat} {bs : List β} :
    List.Forall₂ R (List.range n) bs ↔
      bs.length = n ∧ ∀ i b, bs[i]? = some b → R i b := by
  rw [forall₂_iff_getElem?, List.length_range, eq_comm]
  refine and_congr_right fun hlen => ?_
  simp only [getElem?_range_iff]
  constructor
  · intro h i b hb
    exact h i i b ⟨hlen ▸ (List.getElem?_eq_some_iff.mp hb).1, rfl⟩ hb
  · rintro h i _ b ⟨-, rfl⟩ hb
    exact h i b hb

/-- What is put in place after place: at those of `order` what was found for them, at the others
what was there. -/
theorem foldlM_set_of_eq_ok {f : Nat → Except ε β} {order : List Nat} {start bs : List β}
    (h : order.foldlM (fun bs i => bs.set i <$> f i) start = .ok bs) :
    bs.length = start.length ∧ ∀ i b, bs[i]? = some b →
      (i ∈ order → f i = .ok b) ∧ (i ∉ order → start[i]? = some b) := by
  induction order generalizing start with
  | nil =>
    obtain rfl := pure_eq_ok_iff.mp h
    exact ⟨rfl, fun i b hb => ⟨nofun, fun _ => hb⟩⟩
  | cons j order ih =>
    rw [List.foldlM_cons] at h
    obtain ⟨next, hnext, h⟩ := bind_eq_ok_iff.mp h
    obtain ⟨c, hc, rfl⟩ := map_eq_ok_iff.mp hnext
    obtain ⟨hlen, hplaces⟩ := ih h
    rw [List.length_set] at hlen
    refine ⟨hlen, fun i b hb => ?_⟩
    obtain ⟨hmem, hnot⟩ := hplaces i b hb
    by_cases hi : i ∈ order
    · exact ⟨fun _ => hmem hi, fun h => absurd (.tail j hi) h⟩
    have hset := hnot hi
    by_cases hij : i = j
    · subst hij
      have hlt : i < start.length := hlen ▸ (List.getElem?_eq_some_iff.mp hb).1
      rw [List.getElem?_set_self hlt, Option.some.injEq] at hset
      exact ⟨fun _ => hset ▸ hc, fun h => absurd (.head order) h⟩
    · rw [List.getElem?_set_ne (Ne.symm hij)] at hset
      exact ⟨fun h => absurd (List.mem_of_ne_of_mem hij h) hi, fun _ => hset⟩

/-- To fill all places in some order comes to what a traversal from the left comes to, or to some
fault if there is one. -/
theorem foldlM_set_eq_ok_iff {f : Nat → Except ε β} {order : List Nat} {start bs : List β}
    (horder : ∀ i, i ∈ order ↔ i < start.length) :
    order.foldlM (fun bs i => bs.set i <$> f i) start = .ok bs ↔
      (List.range start.length).mapM f = .ok bs := by
  have hfilled : ∀ {bs}, order.foldlM (fun bs i => bs.set i <$> f i) start = .ok bs →
      (List.range start.length).mapM f = .ok bs := by
    intro bs h
    obtain ⟨hlen, hplaces⟩ := foldlM_set_of_eq_ok h
    refine mapM_eq_ok_iff.mpr (forall₂_range_iff.mpr ⟨hlen, fun i b hb => ?_⟩)
    have hi : i < start.length := hlen ▸ (List.getElem?_eq_some_iff.mp hb).1
    exact (hplaces i b hb).1 ((horder i).mpr hi)
  refine ⟨hfilled, fun h => ?_⟩
  have hok : ∀ i ∈ order, ∃ b, f i = .ok b := by
    intro i hi
    obtain ⟨hlen, hplaces⟩ := forall₂_range_iff.mp (mapM_eq_ok_iff.mp h)
    have hlt : i < bs.length := hlen.symm ▸ (horder i).mp hi
    exact ⟨bs[i], hplaces i _ (List.getElem?_eq_getElem hlt)⟩
  obtain ⟨bs', hbs'⟩ := exists_foldlM_eq_ok (f := fun bs i => bs.set i <$> f i)
    (fun i hi bs => exists_map_eq_ok _ (hok i hi)) start
  rwa [Except.ok.inj (h.symm.trans (hfilled hbs'))]

/-! ## The faults that there can be -/

/-- If the outcome is a fault, it is one of that kind. -/
def FaultsIn (kind : ε → Prop) (x : Except ε α) : Prop :=
  ∀ fault, x = .error fault → kind fault

section
variable {kind : ε → Prop} {x : Except ε α}

theorem faultsIn_ok (a : α) : FaultsIn kind (.ok a : Except ε α) := nofun

theorem faultsIn_error {fault : ε} (h : kind fault) :
    FaultsIn kind (.error fault : Except ε α) := by
  rintro _ ⟨⟩
  exact h

theorem FaultsIn.mono {kind' : ε → Prop} (h : FaultsIn kind x)
    (hkind : ∀ fault, kind fault → kind' fault) : FaultsIn kind' x :=
  fun fault hx => hkind fault (h fault hx)

theorem faultsIn_bind {f : α → Except ε β} (hx : FaultsIn kind x)
    (hf : ∀ a, FaultsIn kind (f a)) : FaultsIn kind (x >>= f) := by
  intro fault h
  rcases bind_eq_error_iff.mp h with h | ⟨a, -, h⟩
  · exact hx fault h
  · exact hf a fault h

theorem faultsIn_map (f : α → β) (hx : FaultsIn kind x) : FaultsIn kind (f <$> x) :=
  fun fault h => hx fault (map_eq_error_iff.mp h)

theorem faultsIn_ite {p : Prop} [Decidable p] {y : Except ε α} (hx : p → FaultsIn kind x)
    (hy : ¬ p → FaultsIn kind y) : FaultsIn kind (if p then x else y) := by
  split
  case isTrue hp => exact hx hp
  case isFalse hp => exact hy hp

theorem compatible_faultsIn (kind : ε → Prop) :
    Compatible fun α (x _ : Except ε α) => FaultsIn kind x where
  value := faultsIn_ok
  sequence := faultsIn_bind

end

/-! ## The same outcome, some faults excused -/

/-- The outcomes are the same, unless the first one is a fault that is excused. -/
def AgreeUnless (excused : ε → Prop) (x y : Except ε α) : Prop :=
  x = y ∨ ∃ fault, excused fault ∧ x = .error fault

variable {excused : ε → Prop} {x y : Except ε α}

theorem agreeUnless_refl (x : Except ε α) : AgreeUnless excused x x := .inl rfl

theorem AgreeUnless.eq_of_not_excused (h : AgreeUnless excused x y)
    (hx : ∀ fault, excused fault → x ≠ .error fault) : x = y := by
  rcases h with rfl | ⟨fault, he, hf⟩
  · rfl
  · exact absurd hf (hx fault he)

theorem agreeUnless_bind {f g : α → Except ε β} (hx : AgreeUnless excused x y)
    (hf : ∀ a, AgreeUnless excused (f a) (g a)) : AgreeUnless excused (x >>= f) (y >>= g) := by
  rcases hx with rfl | ⟨fault, he, rfl⟩
  · cases x with
    | error _ => exact .inl rfl
    | ok a => exact hf a
  · exact .inr ⟨fault, he, rfl⟩

theorem agreeUnless_map (f : α → β) (h : AgreeUnless excused x y) :
    AgreeUnless excused (f <$> x) (f <$> y) := by
  rcases h with rfl | ⟨fault, he, rfl⟩
  · exact .inl rfl
  · exact .inr ⟨fault, he, rfl⟩

theorem agreeUnless_ite {p : Prop} [Decidable p] {x' y' : Except ε α}
    (h : AgreeUnless excused x y) (h' : AgreeUnless excused x' y') :
    AgreeUnless excused (if p then x else x') (if p then y else y') := by
  split
  · exact h
  · exact h'

theorem compatible_agreeUnless (excused : ε → Prop) :
    Compatible fun α (x y : Except ε α) => AgreeUnless excused x y where
  value _ := agreeUnless_refl _
  sequence := agreeUnless_bind

end

end SoundChange
