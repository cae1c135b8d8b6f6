import SoundChange.Proofs.Rule.Shape

/-!
# Rules about categories all at once

A rule about a category judges every character of a word on the word as it was. So the new word is
made of pieces, one for each character, and each of them is told from the old word alone: no piece
counts for another, and it does not matter in which order they are found.

* `StandsAt`, `FaultsAt`: the piece for one character, and the fault that there can be in its place.
* `pieceOf_eq_ok_iff`, `pieceOf_eq_error_iff`: what is found for a character is one or the other.
* `applyInOrder`: the places of a word filled in any order, for comparison.
* `apply_simultaneous`: rules whose members and changes can be told.
-/

set_option autoImplicit false

namespace SoundChange

/-! ## Members and changes -/

namespace Pattern

/-- The members that a pattern lists: those of the category that it names, or its own. -/
inductive Lists (table : CategoryTable) : Pattern → List Word → Prop
  | named {letter : Char} {members : List Word} (h : table.get? letter = some members) :
    Lists table [.category letter] members
  | inline {p : Pattern} (h : isInlineCategory p = true) : Lists table p (inlineMembers p)

/-- What a change gives for the member with index `k`: its text, or the member with that index of
those that it lists, or nothing if it lists fewer. -/
inductive Gives (table : CategoryTable) (p : Pattern) (k : Nat) : Word → Prop
  | text (h : isText p = true) : Gives table p k (text p)
  | member {members : List Word} {m : Word} (h : Lists table p members)
    (hk : members[k]? = some m) : Gives table p k m
  | nothing {members : List Word} (h : Lists table p members) (hk : members.length ≤ k) :
    Gives table p k []

section
variable {table : CategoryTable} {p : Pattern}

theorem categoryLetter?_eq_none_of_isInlineCategory (h : isInlineCategory p = true) :
    categoryLetter? p = none := by
  cases hl : categoryLetter? p with
  | none => rfl
  | some letter =>
    rw [categoryLetter?_eq_some_iff.mp hl] at h
    cases h

theorem lists_iff {ms : List Word} :
    Lists table p ms ↔ listsMembers p = true ∧ members table p = .ok ms := by
  constructor
  · intro h
    cases h with
    | named h =>
      refine ⟨rfl, ?_⟩
      simp only [members, categoryLetter?, h]
      rfl
    | inline h =>
      refine ⟨listsMembers_iff.mpr (.inr h), ?_⟩
      rw [members, categoryLetter?_eq_none_of_isInlineCategory h]
      rfl
  · rintro ⟨hlists, hms⟩
    rcases listsMembers_iff.mp hlists with ⟨letter, rfl⟩ | h
    · simp only [members, categoryLetter?] at hms
      split at hms
      case h_1 members' hm => exact .named (pure_eq_ok_iff.mp hms ▸ hm)
      case h_2 => cases hms
    · rw [members, categoryLetter?_eq_none_of_isInlineCategory h, pure_eq_ok_iff] at hms
      exact hms ▸ .inline h

/-- A change that can be told gives one thing for each member. -/
theorem gives_iff {s : Substitute} (h : Substitute.ofPattern table p = .ok s) {k : Nat}
    {piece : Word} : Gives table p k piece ↔ piece = s.forMember k := by
  rw [Substitute.ofPattern] at h
  split at h
  case isTrue hlists =>
    obtain ⟨ms, hms, rfl⟩ := map_eq_ok_iff.mp h
    have heq : ∀ {members}, Lists table p members → members = ms := fun hm =>
      Except.ok.inj ((lists_iff.mp hm).2.symm.trans hms)
    rw [Substitute.forMember, List.getD_eq_getElem?_getD]
    constructor
    · intro hg
      cases hg with
      | text ht =>
        rw [listsMembers_eq_false_of_isText ht] at hlists
        cases hlists
      | member hm hk =>
        rw [← heq hm, hk]
        rfl
      | nothing hm hk =>
        rw [← heq hm, List.getElem?_eq_none hk]
        rfl
    · rintro rfl
      have hm : Lists table p ms := lists_iff.mpr ⟨hlists, hms⟩
      cases hk : ms[k]? with
      | some m => exact .member hm hk
      | none => exact .nothing hm (List.getElem?_eq_none_iff.mp hk)
  case isFalse hlists =>
    split at h
    case isTrue ht =>
      obtain rfl := pure_eq_ok_iff.mp h
      constructor
      · intro hg
        cases hg with
        | text => rfl
        | member hm => exact absurd (lists_iff.mp hm).1 hlists
        | nothing hm => exact absurd (lists_iff.mp hm).1 hlists
      · rintro rfl
        exact .text ht
    case isFalse => cases h

end

end Pattern

/-! ## Places -/

namespace Rule

/-- The member with index `k` is `m`, and none with a smaller index is. -/
def IsFirstAt (members : List Word) (m : Word) (k : Nat) : Prop :=
  members[k]? = some m ∧ ∀ j < k, members[j]? ≠ some m

section
variable (r : Rule) (table : CategoryTable) (members : List Word) (w : Word) (i : Nat)

/-- What stands in the new word for the character at index `i` of the word `w`, with `members` for
those of the target. -/
inductive StandsAt : Word → Prop
  | other {c : Char} (hc : w[i]? = some c) (hmember : [c] ∉ members) : StandsAt [c]
  | changed {c : Char} {k : Nat} {piece : Word} (hc : w[i]? = some c)
    (hk : IsFirstAt members [c] k)
    (hv : r.verdict (Alternative.matchesAround table w i 1) = .ok .change)
    (hpiece : Pattern.Gives table r.change k piece) : StandsAt piece
  | elseChanged {c : Char} {k : Nat} {p : Pattern} {piece : Word} (hc : w[i]? = some c)
    (hk : IsFirstAt members [c] k)
    (hv : r.verdict (Alternative.matchesAround table w i 1) = .ok .elseChange)
    (hp : r.elseChange = some p) (hpiece : Pattern.Gives table p k piece) : StandsAt piece
  | excepted {c : Char} (hc : w[i]? = some c) (hmember : [c] ∈ members)
    (hv : r.verdict (Alternative.matchesAround table w i 1) = .ok .elseChange)
    (hp : r.elseChange = none) : StandsAt [c]
  | kept {c : Char} (hc : w[i]? = some c) (hmember : [c] ∈ members)
    (hv : r.verdict (Alternative.matchesAround table w i 1) = .ok .keep) : StandsAt [c]

/-- The conditions cannot be tried on a member at index `i` of the word `w`. -/
def FaultsAt (fault : RuleFault) : Prop :=
  ∃ c, w[i]? = some c ∧ [c] ∈ members ∧
    r.verdict (Alternative.matchesAround table w i 1) = .error fault

/-- What is found for the character at index `i` of the word `w`. -/
def pieceOf (change : Substitute) (elseChange : Option Substitute) : Except RuleFault Word :=
  match w[i]? with
  | some c => r.pieceAt table members change elseChange w c i
  | none => pure []

end

section
variable {r : Rule} {table : CategoryTable} {members : List Word} {change : Substitute}
  {elseChange : Option Substitute} {w : Word} {i : Nat}

theorem isFirstAt_iff {m : Word} {k : Nat} : IsFirstAt members m k ↔ members.idxOf? m = some k := by
  rw [IsFirstAt, List.idxOf?_eq_some_iff]
  constructor
  · rintro ⟨hk, hfirst⟩
    obtain ⟨hlt, hm⟩ := List.getElem?_eq_some_iff.mp hk
    exact ⟨hlt, hm, fun j hj he => hfirst j hj (List.getElem?_eq_some_iff.mpr ⟨_, he⟩)⟩
  · rintro ⟨hlt, hm, hfirst⟩
    refine ⟨List.getElem?_eq_some_iff.mpr ⟨hlt, hm⟩, fun j hj he => ?_⟩
    obtain ⟨_, he⟩ := List.getElem?_eq_some_iff.mp he
    exact hfirst j hj he

theorem IsFirstAt.mem {m : Word} {k : Nat} (h : IsFirstAt members m k) : m ∈ members :=
  List.mem_of_getElem? h.1

theorem ofPattern_of_substitutes (h : r.substitutes table = .ok (change, elseChange)) :
    Substitute.ofPattern table r.change = .ok change ∧
      r.elseChange.mapM (Substitute.ofPattern table) = .ok elseChange := by
  rw [substitutes] at h
  obtain ⟨s, hs, h⟩ := bind_eq_ok_iff.mp h
  split at h
  case h_1 hnone =>
    cases h
    rw [hnone]
    exact ⟨hs, rfl⟩
  case h_2 p hp =>
    obtain ⟨t, ht, h⟩ := bind_eq_ok_iff.mp h
    split at h
    · cases h
      rw [hp]
      exact ⟨hs, congrArg (some <$> ·) ht⟩
    · cases h

theorem pieceOf_of_some {c : Char} (hc : w[i]? = some c) :
    r.pieceOf table members w i change elseChange =
      r.pieceAt table members change elseChange w c i := by
  rw [pieceOf, hc]

theorem pieceOf_of_isFirstAt {c : Char} {k : Nat} (hc : w[i]? = some c)
    (hk : IsFirstAt members [c] k) :
    r.pieceOf table members w i change elseChange =
      (fun v : Verdict => (v.select change elseChange).elim [c] (·.forMember k)) <$>
        r.verdict (Alternative.matchesAround table w i 1) := by
  rw [pieceOf_of_some hc]
  exact pieceAt_of_idxOf? r table w i (isFirstAt_iff.mp hk)

/-- What stands for a member is what the verdict about its place selects. -/
theorem standsAt_iff (hs : r.substitutes table = .ok (change, elseChange)) {c : Char} {k : Nat}
    (hc : w[i]? = some c) (hk : IsFirstAt members [c] k) {piece : Word} :
    r.StandsAt table members w i piece ↔
      ∃ v, r.verdict (Alternative.matchesAround table w i 1) = .ok v ∧
        (v.select change elseChange).elim [c] (·.forMember k) = piece := by
  obtain ⟨hchange, helse⟩ := ofPattern_of_substitutes hs
  constructor
  · intro h
    cases h with
    | other hc' hmember =>
      obtain rfl := Option.some.inj (hc.symm.trans hc')
      exact absurd hk.mem hmember
    | changed hc' hk' hv hpiece =>
      obtain rfl := Option.some.inj (hc.symm.trans hc')
      obtain rfl := Option.some.inj ((isFirstAt_iff.mp hk).symm.trans (isFirstAt_iff.mp hk'))
      exact ⟨_, hv, ((Pattern.gives_iff hchange).mp hpiece).symm⟩
    | elseChanged hc' hk' hv hp hpiece =>
      obtain rfl := Option.some.inj (hc.symm.trans hc')
      obtain rfl := Option.some.inj ((isFirstAt_iff.mp hk).symm.trans (isFirstAt_iff.mp hk'))
      rw [hp] at helse
      obtain ⟨other, hother, rfl⟩ := map_eq_ok_iff.mp helse
      exact ⟨_, hv, ((Pattern.gives_iff hother).mp hpiece).symm⟩
    | excepted hc' _ hv hp =>
      obtain rfl := Option.some.inj (hc.symm.trans hc')
      rw [hp] at helse
      obtain rfl := pure_eq_ok_iff.mp helse
      exact ⟨_, hv, rfl⟩
    | kept hc' _ hv =>
      obtain rfl := Option.some.inj (hc.symm.trans hc')
      exact ⟨_, hv, rfl⟩
  · rintro ⟨v, hv, rfl⟩
    cases v with
    | change => exact .changed hc hk hv ((Pattern.gives_iff hchange).mpr rfl)
    | elseChange =>
      cases hp : r.elseChange with
      | none =>
        rw [hp] at helse
        obtain rfl := pure_eq_ok_iff.mp helse
        exact .excepted hc hk.mem hv hp
      | some p =>
        rw [hp] at helse
        obtain ⟨other, hother, rfl⟩ := map_eq_ok_iff.mp helse
        exact .elseChanged hc hk hv hp ((Pattern.gives_iff hother).mpr rfl)
    | keep => exact .kept hc hk.mem hv

theorem exists_isFirstAt {m : Word} (h : m ∈ members) : ∃ k, IsFirstAt members m k := by
  obtain ⟨k, hk⟩ := Option.isSome_iff_exists.mp (List.isSome_idxOf?.mpr h)
  exact ⟨k, isFirstAt_iff.mpr hk⟩

theorem pieceOf_eq_ok_iff (hs : r.substitutes table = .ok (change, elseChange))
    (hi : i < w.length) {piece : Word} :
    r.pieceOf table members w i change elseChange = .ok piece ↔
      r.StandsAt table members w i piece := by
  have hc : w[i]? = some w[i] := List.getElem?_eq_getElem hi
  by_cases hmember : [w[i]] ∈ members
  · obtain ⟨k, hk⟩ := exists_isFirstAt hmember
    rw [pieceOf_of_isFirstAt hc hk, standsAt_iff hs hc hk, map_eq_ok_iff]
  · rw [pieceOf_of_some hc, pieceAt_of_not_mem r table w i hmember, Except.ok.injEq]
    constructor
    · rintro rfl
      exact .other hc hmember
    · intro h
      cases h with
      | other hc' => rw [Option.some.inj (hc.symm.trans hc')]
      | changed hc' hk | elseChanged hc' hk =>
        exact absurd (Option.some.inj (hc.symm.trans hc') ▸ hk.mem) hmember
      | excepted hc' h | kept hc' h =>
        exact absurd (Option.some.inj (hc.symm.trans hc') ▸ h) hmember

theorem FaultsAt.lt {fault : RuleFault} (h : r.FaultsAt table members w i fault) :
    i < w.length := by
  obtain ⟨_, hc, -⟩ := h
  exact (List.getElem?_eq_some_iff.mp hc).1

theorem pieceOf_eq_error_iff (hi : i < w.length) {fault : RuleFault} :
    r.pieceOf table members w i change elseChange = .error fault ↔
      r.FaultsAt table members w i fault := by
  have hc : w[i]? = some w[i] := List.getElem?_eq_getElem hi
  constructor
  · intro h
    by_cases hmember : [w[i]] ∈ members
    · obtain ⟨k, hk⟩ := exists_isFirstAt hmember
      rw [pieceOf_of_isFirstAt hc hk, map_eq_error_iff] at h
      exact ⟨_, hc, hmember, h⟩
    · rw [pieceOf_of_some hc, pieceAt_of_not_mem r table w i hmember] at h
      cases h
  · rintro ⟨c, hc', hmember, hv⟩
    obtain ⟨k, hk⟩ := exists_isFirstAt hmember
    rw [pieceOf_of_isFirstAt hc' hk, map_eq_error_iff]
    exact hv

/-! ## Words -/

theorem zipIdx_mapM_pieceAt :
    (w.zipIdx.mapM fun (c, i) => r.pieceAt table members change elseChange w c i) =
      (List.range w.length).mapM fun i => r.pieceOf table members w i change elseChange := by
  have hsnd : List.range w.length = w.zipIdx.map Prod.snd := by
    rw [List.zipIdx_map_snd, List.range_eq_range']
  have hpieces : ∀ q ∈ w.zipIdx, r.pieceOf table members w q.2 change elseChange =
      id <$> r.pieceAt table members change elseChange w q.1 q.2 := by
    rintro ⟨c, i⟩ hq
    have hc : w[i]? = some c := List.mem_zipIdx_iff_getElem?.mp hq
    rw [pieceOf_of_some hc, id_map]
  rw [hsnd, mapM_map_of_forall hpieces, List.map_id_fun, id_map]

/-- Applies a rule about a category by filling the places of the word in the given order, each with
what is found for it in the word as it was. -/
def applyInOrder (r : Rule) (table : CategoryTable) (order : List Nat) (w : Word) :
    Except RuleFault Word := do
  let members ← Pattern.members table r.target
  let (change, elseChange) ← r.substitutes table
  let pieces ← order.foldlM
    (fun pieces i => pieces.set i <$> r.pieceOf table members w i change elseChange)
    (w.map fun c => [c])
  pure pieces.flatten

theorem apply_eq_pieces (hs : r.substitutes table = .ok (change, elseChange))
    (htarget : Pattern.Lists table r.target members) :
    r.apply table w = List.flatten <$>
      (List.range w.length).mapM fun i => r.pieceOf table members w i change elseChange := by
  obtain ⟨hlists, hmembers⟩ := Pattern.lists_iff.mp htarget
  rw [apply_of_listsMembers table w hlists, hmembers]
  show r.applyToMembers table members w = _
  rw [applyToMembers, hs, ← zipIdx_mapM_pieceAt]
  rfl

theorem applyInOrder_eq_pieces (hs : r.substitutes table = .ok (change, elseChange))
    (htarget : Pattern.Lists table r.target members) (order : List Nat) :
    r.applyInOrder table order w = List.flatten <$> order.foldlM
      (fun pieces i => pieces.set i <$> r.pieceOf table members w i change elseChange)
      (w.map fun c => [c]) := by
  rw [applyInOrder, (Pattern.lists_iff.mp htarget).2, hs]
  rfl

end

/-- Where members and changes can be told, a rule about a category puts a word together from what
stands for its characters, each told from the word as it was, and stops at the first of them that
is a fault. To fill the places in any order comes to the same word. -/
theorem apply_simultaneous (r : Rule) (table : CategoryTable) {members : List Word}
    (htarget : Pattern.Lists table r.target members)
    (hchanges : ∃ s, r.substitutes table = .ok s) (w : Word) :
    (∀ out, r.apply table w = .ok out ↔
      ∃ pieces, List.Forall₂ (r.StandsAt table members w) (List.range w.length) pieces ∧
        out = pieces.flatten) ∧
    (∀ fault, r.apply table w = .error fault ↔
      ∃ i, r.FaultsAt table members w i fault ∧
        ∀ j < i, ∀ fault', ¬ r.FaultsAt table members w j fault') ∧
    ∀ order, (∀ i, i ∈ order ↔ i < w.length) →
      ∀ out, r.applyInOrder table order w = .ok out ↔ r.apply table w = .ok out := by
  obtain ⟨⟨change, elseChange⟩, hs⟩ := hchanges
  have happly := apply_eq_pieces (w := w) hs htarget
  refine ⟨fun out => ?_, fun fault => ?_, fun order horder out => ?_⟩
  · rw [happly, map_eq_ok_iff]
    refine exists_congr fun pieces => and_congr ?_ eq_comm
    rw [mapM_eq_ok_iff, forall₂_range_iff, forall₂_range_iff]
    refine and_congr_right fun hlen => forall₂_congr fun i piece => forall_congr' fun hpiece => ?_
    exact pieceOf_eq_ok_iff hs (hlen ▸ (List.getElem?_eq_some_iff.mp hpiece).1)
  · rw [happly, map_eq_error_iff, mapM_range_eq_error_iff]
    refine exists_congr fun i => ?_
    constructor
    · rintro ⟨hi, hfault, hbefore⟩
      refine ⟨(pieceOf_eq_error_iff hi).mp hfault, fun j hj fault' hfault' => ?_⟩
      obtain ⟨piece, hpiece⟩ := hbefore j hj
      rw [(pieceOf_eq_error_iff (Nat.lt_trans hj hi)).mpr hfault'] at hpiece
      cases hpiece
    · rintro ⟨hfault, hbefore⟩
      have hi : i < w.length := hfault.lt
      refine ⟨hi, (pieceOf_eq_error_iff hi).mpr hfault, fun j hj => ?_⟩
      cases hpiece : r.pieceOf table members w j change elseChange with
      | ok piece => exact ⟨piece, rfl⟩
      | error fault' =>
        exact absurd ((pieceOf_eq_error_iff (Nat.lt_trans hj hi)).mp hpiece) (hbefore j hj fault')
  · have hplaces : (w.map fun c => [c]).length = w.length := List.length_map _
    rw [happly, applyInOrder_eq_pieces hs htarget, map_eq_ok_iff, map_eq_ok_iff, ← hplaces]
    refine exists_congr fun pieces => and_congr_left fun _ => foldlM_set_eq_ok_iff ?_
    rwa [hplaces]

/-- The rule `a,bc,a,b/x,y,z/_b|a_/#_/u,v`. -/
def overlapping : Rule where
  target := [.literal 'a', .comma, .literal 'b', .literal 'c', .comma, .literal 'a', .comma,
    .literal 'b']
  change := [.literal 'x', .comma, .literal 'y', .comma, .literal 'z']
  environment := some [.locus, .literal 'b', .bar, .literal 'a', .locus]
  exception := some [.edge, .locus]
  elseChange := some [.literal 'u', .comma, .literal 'v']

/-- The `b` falls out because an `a` is before it, though that is an `x` in the new word. -/
theorem apply_simultaneous_overlapping :
    (∃ pieces, List.Forall₂ (overlapping.StandsAt .empty [['a'], ['b', 'c'], ['a'], ['b']]
        ['a', 'a', 'b', 'c']) (List.range 4) pieces ∧ ['u', 'x', 'c'] = pieces.flatten) ∧
      overlapping.applyInOrder .empty [2, 0, 3, 1] ['a', 'a', 'b', 'c'] = .ok ['u', 'x', 'c'] := by
  have htarget : Pattern.Lists .empty overlapping.target [['a'], ['b', 'c'], ['a'], ['b']] :=
    .inline rfl
  have hsubstitutes : overlapping.substitutes .empty = .ok
      (.memberwise [['x'], ['y'], ['z']], some (.memberwise [['u'], ['v']])) := rfl
  have horder : ∀ i, i ∈ [2, 0, 3, 1] ↔ i < ['a', 'a', 'b', 'c'].length := by
    intro i
    simp only [List.mem_cons, List.not_mem_nil, or_false, List.length_cons, List.length_nil]
    omega
  obtain ⟨hok, -, hany⟩ := apply_simultaneous overlapping .empty htarget ⟨_, hsubstitutes⟩
    ['a', 'a', 'b', 'c']
  have happly : overlapping.apply .empty ['a', 'a', 'b', 'c'] = .ok ['u', 'x', 'c'] := rfl
  exact ⟨(hok _).mp happly, (hany _ horder _).mpr happly⟩

end Rule

end SoundChange
