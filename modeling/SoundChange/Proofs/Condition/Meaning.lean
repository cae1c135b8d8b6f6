import Mathlib.Data.List.Forall2
import SoundChange.Condition

/-!
# What an alternative says of a word

Symbols stand for characters, one for each, and an alternative that can be tried says where in a
word there are characters that its symbols stand for. The trials of `SoundChange.Condition` decide
(`Decides`) these statements, which speak of the word as a whole and of no order in which it is
gone through.

* `matchSymbols_decides`, `matchAnyOf_decides`: symbols from a place on, or from any of some places.
* `matchesInWord_edge_cons_decides`, `matchesInWord_concat_edge_decides`,
  `matchesInWord_plain_decides`: alternatives about the whole word.
* `HoldsIn`: the same said of all of them at once.
* `matchesBeside_decides`, `matchesBeside_decides_at`: the two sides of a place of a word, and of
  any place.
* `edge_cases`: where an alternative can have its word edge.
-/

set_option autoImplicit false

namespace SoundChange

/-! ## Decisions -/

/-- The outcome is no fault, and it is `true` if and only if the statement holds. -/
def Decides {ε : Type} (x : Except ε Bool) (p : Prop) : Prop :=
  ∃ b, x = .ok b ∧ (b = true ↔ p)

section
variable {ε : Type} {x y : Except ε Bool} {p q : Prop}

theorem Decides.ok (hx : Decides x p) : ∃ b, x = .ok b := by
  obtain ⟨b, hb, -⟩ := hx
  exact ⟨b, hb⟩

theorem decides_pure (b : Bool) : Decides (pure b : Except ε Bool) (b = true) :=
  ⟨b, rfl, Iff.rfl⟩

theorem Decides.congr (hx : Decides x p) (h : p ↔ q) : Decides x q := by
  obtain ⟨b, hb, hp⟩ := hx
  exact ⟨b, hb, hp.trans h⟩

/-- Two decisions of the same statement have the same outcome. -/
theorem Decides.eq (hx : Decides x p) (hy : Decides y q) (h : p ↔ q) : x = y := by
  obtain ⟨b, rfl, hp⟩ := hx
  obtain ⟨b', rfl, hq⟩ := hy
  rw [Bool.eq_iff_iff.mpr ((hp.trans h).trans hq.symm)]

theorem Decides.eq_decide [Decidable p] (hx : Decides x p) : x = .ok (decide p) := by
  obtain ⟨b, rfl, hb⟩ := hx
  rw [Except.ok.injEq, Bool.eq_iff_iff, hb, decide_eq_true_iff]

theorem decides_and (hx : Decides x p) (hy : Decides y q) :
    Decides (do if ← x then y else pure false) (p ∧ q) := by
  obtain ⟨b, rfl, hp⟩ := hx
  cases b with
  | false => exact ⟨false, rfl, by simp [← hp]⟩
  | true => exact hy.congr (by simp [← hp])

theorem decides_or (hx : Decides x p) (hy : Decides y q) :
    Decides (do if ← x then pure true else y) (p ∨ q) := by
  obtain ⟨b, rfl, hp⟩ := hx
  cases b with
  | false => exact hy.congr (by simp [← hp])
  | true => exact ⟨true, rfl, by simp [← hp]⟩

theorem decides_guard {g : Prop} [Decidable g] (hx : g → Decides x p) :
    Decides (if g then x else pure false) (g ∧ p) := by
  split
  case isTrue hg => exact (hx hg).congr (by simp [hg])
  case isFalse hg => exact ⟨false, rfl, by simp [hg]⟩

end

/-! ## Symbols and characters -/

/-- A literal stands for its own character, a category for those of its members that are one
character long, and nothing else for any. -/
def Symbol.StandsFor (table : CategoryTable) : Symbol → Char → Prop
  | literal d, c => d = c
  | category letter, c => ∃ members, table.get? letter = some members ∧ [c] ∈ members
  | _, _ => False

/-- A symbol that can be compared with a character: no word edge, no locus and no category that the
table lacks. -/
def Symbol.Comparable (table : CategoryTable) (t : Symbol) : Prop :=
  t ≠ .edge ∧ t ≠ .locus ∧ ∀ letter, t = .category letter → table.contains letter = true

/-- The symbols stand for the first characters of the word. -/
def StartsWith (table : CategoryTable) (ts : List Symbol) (w : Word) : Prop :=
  ∃ u, u <+: w ∧ List.Forall₂ (Symbol.StandsFor table) ts u

/-- The symbols stand for the last characters of the word. -/
def EndsWith (table : CategoryTable) (ts : List Symbol) (w : Word) : Prop :=
  ∃ u, u <:+ w ∧ List.Forall₂ (Symbol.StandsFor table) ts u

/-- The symbols stand for characters of the word that are in a row. -/
def OccursIn (table : CategoryTable) (ts : List Symbol) (w : Word) : Prop :=
  ∃ u, u <:+: w ∧ List.Forall₂ (Symbol.StandsFor table) ts u

section
variable {table : CategoryTable} {ts : List Symbol} {w : Word}

theorem Symbol.matchesChar_decides {t : Symbol} (h : t.Comparable table) (c : Char) :
    Decides (t.matchesChar table c) (t.StandsFor table c) := by
  obtain ⟨he, hl, hd⟩ := h
  cases t with
  | literal d => exact (decides_pure (d == c)).congr beq_iff_eq
  | category letter =>
    obtain ⟨members, hm⟩ := Option.isSome_iff_exists.mp (hd letter rfl)
    refine ⟨members.contains [c], by rw [matchesChar, hm]; rfl, ?_⟩
    simp [StandsFor, hm]
  | comma => exact ⟨false, rfl, by simp [StandsFor]⟩
  | edge => exact absurd rfl he
  | bar => exact ⟨false, rfl, by simp [StandsFor]⟩
  | locus => exact absurd rfl hl

theorem startsWith_nil (table : CategoryTable) (w : Word) : StartsWith table [] w :=
  ⟨[], List.nil_prefix, .nil⟩

theorem not_startsWith_cons_nil {t : Symbol} : ¬ StartsWith table (t :: ts) [] := by
  rintro ⟨u, hu, h⟩
  rw [List.prefix_nil.mp hu] at h
  cases h

theorem startsWith_cons {t : Symbol} {c : Char} :
    StartsWith table (t :: ts) (c :: w) ↔ t.StandsFor table c ∧ StartsWith table ts w := by
  constructor
  · rintro ⟨u, hu, h⟩
    obtain ⟨d, v, htd, hv, rfl⟩ := List.forall₂_cons_left_iff.mp h
    obtain ⟨rfl, hvw⟩ := List.cons_prefix_cons.mp hu
    exact ⟨htd, v, hvw, hv⟩
  · rintro ⟨htc, v, hvw, hv⟩
    exact ⟨c :: v, List.cons_prefix_cons.mpr ⟨rfl, hvw⟩, .cons htc hv⟩

theorem StartsWith.length_le (h : StartsWith table ts w) : ts.length ≤ w.length := by
  obtain ⟨u, hu, hts⟩ := h
  rw [hts.length_eq]
  exact hu.length_le

theorem EndsWith.length_le (h : EndsWith table ts w) : ts.length ≤ w.length := by
  obtain ⟨u, hu, hts⟩ := h
  rw [hts.length_eq]
  exact hu.length_le

/-- Symbols that reach from some place of `l ++ r` to the end of `l` are at the end of `l`. -/
theorem startsWith_drop_append {l : Word} (h : ts.length ≤ l.length) (r : Word) :
    StartsWith table ts ((l ++ r).drop (l.length - ts.length)) ↔ EndsWith table ts l := by
  have hdrop : (l ++ r).drop (l.length - ts.length) = l.drop (l.length - ts.length) ++ r :=
    List.drop_append_of_le_length (Nat.sub_le _ _)
  rw [hdrop]
  constructor
  · rintro ⟨u, hu, hts⟩
    have hlen : u.length = (l.drop (l.length - ts.length)).length := by
      rw [List.length_drop, Nat.sub_sub_self h, hts.length_eq]
    obtain rfl := (List.prefix_of_prefix_length_le hu (List.prefix_append _ r)
      (Nat.le_of_eq hlen)).eq_of_length hlen
    exact ⟨_, List.drop_suffix _ l, hts⟩
  · rintro ⟨u, hu, hts⟩
    have heq := List.suffix_iff_eq_drop.mp hu
    rw [← hts.length_eq] at heq
    exact ⟨u, heq ▸ List.prefix_append _ r, hts⟩

/-- Symbols occur in a word if a part of it starts with them. -/
theorem occursIn_iff_exists_drop :
    OccursIn table ts w ↔ ∃ i < w.length + 1 - ts.length, StartsWith table ts (w.drop i) := by
  constructor
  · rintro ⟨u, ⟨l, r, rfl⟩, hts⟩
    refine ⟨l.length, ?_, u, ?_, hts⟩
    · rw [hts.length_eq, List.length_append, List.length_append]
      omega
    · rw [List.append_assoc, List.drop_left]
      exact List.prefix_append u r
  · rintro ⟨i, -, u, hu, hts⟩
    exact ⟨u, hu.isInfix.trans (List.drop_suffix i w).isInfix, hts⟩

theorem matchSymbols_decides (h : ∀ t ∈ ts, t.Comparable table) (w : Word) :
    Decides (matchSymbols table ts w) (StartsWith table ts w) := by
  induction ts generalizing w with
  | nil => exact ⟨true, rfl, by simp [startsWith_nil]⟩
  | cons t ts ih =>
    rw [List.forall_mem_cons] at h
    cases w with
    | nil => exact ⟨false, rfl, by simp [not_startsWith_cons_nil]⟩
    | cons c w =>
      rw [matchSymbols]
      exact (decides_and (Symbol.matchesChar_decides h.1 c) (ih h.2 w)).congr startsWith_cons.symm

theorem matchAnyOf_decides (h : ∀ t ∈ ts, t.Comparable table) (count : Nat) (w : Word) :
    Decides (matchAnyOf table ts count w) (∃ i < count, StartsWith table ts (w.drop i)) := by
  induction count generalizing w with
  | zero => exact ⟨false, rfl, by simp⟩
  | succ count ih =>
    rw [matchAnyOf]
    refine (decides_or (matchSymbols_decides h w) (ih w.tail)).congr ?_
    rw [Nat.exists_lt_succ_left]
    simp

theorem edge_not_mem_of_comparable (h : ∀ t ∈ ts, t.Comparable table) : .edge ∉ ts :=
  fun he => (h _ he).1 rfl

theorem locus_not_mem_of_comparable (h : ∀ t ∈ ts, t.Comparable table) : .locus ∉ ts :=
  fun hl => (h _ hl).2.1 rfl

/-! ## Alternatives about the whole word -/

namespace Alternative

/-- An alternative with no more than one word edge has none, has it in front, has it at the end or
has it at neither. -/
theorem edge_cases {alt : Alternative} (h : Pattern.edgeCount alt ≤ 1) :
    .edge ∉ alt ∨ (∃ ts, alt = .edge :: ts ∧ .edge ∉ ts) ∨
      (∃ ts, alt = ts ++ [.edge] ∧ .edge ∉ ts) ∨
      (.edge ∈ alt ∧ alt.head? ≠ some .edge ∧ alt.getLast? ≠ some .edge) := by
  by_cases he : .edge ∉ alt
  · exact .inl he
  by_cases hhead : alt.head? = some .edge
  · obtain ⟨ts, rfl⟩ := List.head?_eq_some_iff.mp hhead
    rw [Pattern.edgeCount, List.count_cons_self] at h
    exact .inr (.inl ⟨ts, rfl, List.count_eq_zero.mp (by omega)⟩)
  by_cases hlast : alt.getLast? = some .edge
  · obtain ⟨ts, rfl⟩ := List.getLast?_eq_some_iff.mp hlast
    rw [Pattern.edgeCount, List.count_append, List.count_singleton_self] at h
    exact .inr (.inr (.inl ⟨ts, rfl, List.count_eq_zero.mp (by omega)⟩))
  · exact .inr (.inr (.inr ⟨not_not.mp he, hhead, hlast⟩))

theorem matchesInWord_edge_cons_decides (h : ∀ t ∈ ts, t.Comparable table) (w : Word) :
    Decides (matchesInWord table w (.edge :: ts)) (StartsWith table ts w) := by
  have he := edge_not_mem_of_comparable h
  have hl := locus_not_mem_of_comparable h
  have hcount : Pattern.edgeCount (.edge :: ts) = 1 := by
    rw [Pattern.edgeCount, List.count_cons_self, List.count_eq_zero.mpr he]
  rw [matchesInWord, if_neg (by simpa using hl), if_neg (by rw [hcount]; exact Nat.lt_irrefl 1),
    if_pos List.head?_cons, List.tail_cons]
  refine (decides_guard fun _ => matchSymbols_decides h w).congr ?_
  exact and_iff_right_of_imp StartsWith.length_le

theorem matchesInWord_concat_edge_decides (h : ∀ t ∈ ts, t.Comparable table) (w : Word) :
    Decides (matchesInWord table w (ts ++ [.edge])) (EndsWith table ts w) := by
  have he := edge_not_mem_of_comparable h
  have hl := locus_not_mem_of_comparable h
  cases ts with
  | nil =>
    -- a bare word edge is looked at as a leading one
    refine (matchesInWord_edge_cons_decides h w).congr ?_
    exact iff_of_true (startsWith_nil table w) ⟨[], List.nil_suffix, .nil⟩
  | cons t ts =>
    have hcount : Pattern.edgeCount (t :: ts ++ [.edge]) = 1 := by
      rw [Pattern.edgeCount, List.count_append, List.count_eq_zero.mpr he,
        List.count_singleton_self]
    have hhead : (t :: ts ++ [Symbol.edge]).head? ≠ some .edge := fun hh =>
      he (Option.some.inj hh ▸ .head ts)
    rw [matchesInWord, if_neg (by simpa using hl), if_neg (by rw [hcount]; exact Nat.lt_irrefl 1),
      if_neg hhead, if_pos List.getLast?_concat, List.dropLast_concat]
    refine (decides_guard fun hle => ?_).congr (and_iff_right_of_imp EndsWith.length_le)
    refine (matchSymbols_decides h _).congr ?_
    rw [← startsWith_drop_append hle [], List.append_nil]

theorem matchesInWord_plain_decides (h : ∀ t ∈ ts, t.Comparable table) (w : Word) :
    Decides (matchesInWord table w ts) (OccursIn table ts w) := by
  have he := edge_not_mem_of_comparable h
  have hl := locus_not_mem_of_comparable h
  have hcount : ¬ 1 < Pattern.edgeCount ts := by
    rw [Pattern.edgeCount, List.count_eq_zero.mpr he]
    exact Nat.not_lt_zero 1
  have hhead : ts.head? ≠ some .edge := fun hh => he (List.mem_of_head? hh)
  have hlast : ts.getLast? ≠ some .edge := fun hh => he (List.mem_of_getLast? hh)
  rw [matchesInWord, if_neg (by simpa using hl), if_neg hcount, if_neg hhead, if_neg hlast,
    if_neg (by simpa using he)]
  exact (matchAnyOf_decides h _ w).congr occursIn_iff_exists_drop.symm

/-- Without its word edges, the alternative stands for characters of the word that are in a row: for
the first ones with a word edge in front, for the last ones with one at the end. -/
def HoldsIn (table : CategoryTable) (alt : Alternative) (w : Word) : Prop :=
  ∃ u x v, w = u ++ x ++ v ∧
    List.Forall₂ (Symbol.StandsFor table) (alt.filter (· != .edge)) x ∧
    (alt.head? = some .edge → u = []) ∧
    (alt.getLast? = some .edge → alt.head? ≠ some .edge → v = [])

theorem filter_edge_eq_self {ts : List Symbol} (h : .edge ∉ ts) :
    ts.filter (· != .edge) = ts :=
  List.filter_eq_self.mpr fun _ ht => bne_iff_ne.mpr fun he => h (he ▸ ht)

theorem holdsIn_plain {ts : List Symbol} (h : .edge ∉ ts) (w : Word) :
    HoldsIn table ts w ↔ OccursIn table ts w := by
  have hhead : ts.head? ≠ some .edge := fun hh => h (List.mem_of_head? hh)
  have hlast : ts.getLast? ≠ some .edge := fun hh => h (List.mem_of_getLast? hh)
  rw [HoldsIn, OccursIn, filter_edge_eq_self h]
  constructor
  · rintro ⟨u, x, v, rfl, hts, -⟩
    exact ⟨x, ⟨u, v, rfl⟩, hts⟩
  · rintro ⟨x, ⟨u, v, rfl⟩, hts⟩
    exact ⟨u, x, v, rfl, hts, (absurd · hhead), (absurd · hlast)⟩

theorem holdsIn_edge_cons {ts : List Symbol} (h : .edge ∉ ts) (w : Word) :
    HoldsIn table (.edge :: ts) w ↔ StartsWith table ts w := by
  have hfilter : (.edge :: ts).filter (· != .edge) = ts := filter_edge_eq_self h
  rw [HoldsIn, StartsWith, hfilter]
  constructor
  · rintro ⟨u, x, v, rfl, hts, hfront, -⟩
    obtain rfl := hfront rfl
    exact ⟨x, ⟨v, rfl⟩, hts⟩
  · rintro ⟨x, ⟨v, rfl⟩, hts⟩
    exact ⟨[], x, v, rfl, hts, fun _ => rfl, fun _ hhead => absurd rfl hhead⟩

theorem holdsIn_concat_edge {ts : List Symbol} (h : .edge ∉ ts) (w : Word) :
    HoldsIn table (ts ++ [.edge]) w ↔ EndsWith table ts w := by
  cases ts with
  | nil =>
    -- a bare word edge is one in front
    rw [List.nil_append, holdsIn_edge_cons h]
    exact iff_of_true (startsWith_nil table w) ⟨[], List.nil_suffix, .nil⟩
  | cons t ts =>
    have hhead : (t :: ts ++ [Symbol.edge]).head? ≠ some .edge := fun hh =>
      h (Option.some.inj hh ▸ .head ts)
    have hfilter : (t :: ts ++ [Symbol.edge]).filter (· != .edge) = t :: ts := by
      rw [List.filter_append, filter_edge_eq_self h]
      exact List.append_nil _
    rw [HoldsIn, EndsWith, hfilter]
    constructor
    · rintro ⟨u, x, v, rfl, hts, -, hback⟩
      obtain rfl := hback List.getLast?_concat hhead
      rw [List.append_nil]
      exact ⟨x, ⟨u, rfl⟩, hts⟩
    · rintro ⟨x, ⟨u, rfl⟩, hts⟩
      exact ⟨u, x, [], (List.append_nil _).symm, hts, (absurd · hhead), fun _ _ => rfl⟩

/-! ## Alternatives about a place -/

theorem matchesAround_of_locus_not_mem {alt : Alternative} (hl : .locus ∉ alt) (w : Word)
    (start len : Nat) : matchesAround table w start len alt = matchesInWord table w alt := by
  have hall : ∀ t ∈ alt, (t != Symbol.locus) = true := fun t ht =>
    bne_iff_ne.mpr fun h => hl (h ▸ ht)
  have hdrop : alt.dropWhile (· != .locus) = [] := by
    rw [← List.append_nil alt, List.dropWhile_append_of_pos hall, List.dropWhile_nil]
  rw [matchesAround, hdrop]

theorem matchesAround_append {before : List Symbol} (hl : .locus ∉ before) (after : List Symbol)
    (w : Word) (start len : Nat) :
    matchesAround table w start len (before ++ .locus :: after) =
      if .edge ∈ (before ++ .locus :: after).tail.dropLast then .error .misplacedEdge
      else matchesBeside table w start len before after := by
  have hall : ∀ t ∈ before, (t != Symbol.locus) = true := fun t ht =>
    bne_iff_ne.mpr fun h => hl (h ▸ ht)
  have hdrop : (before ++ .locus :: after).dropWhile (· != Symbol.locus) = .locus :: after := by
    rw [List.dropWhile_append_of_pos hall]
    rfl
  have htake : (before ++ .locus :: after).takeWhile (· != Symbol.locus) = before := by
    rw [List.takeWhile_append_of_pos hall]
    simp
  rw [matchesAround, hdrop, htake]
  simp only [List.contains_iff_mem]
  rfl

theorem matchesAround_locus_cons (after : List Symbol) (w : Word) (start len : Nat) :
    matchesAround table w start len (.locus :: after) =
      if .edge ∈ after.dropLast then .error .misplacedEdge
      else matchesBeside table w start len [] after :=
  matchesAround_append List.not_mem_nil after w start len

/-- What stands in front of a place ends with what the symbols before the locus stand for, and with
a word edge in front of them it is no more than that. -/
def FitsBefore (table : CategoryTable) (before : List Symbol) (l : Word) : Prop :=
  EndsWith table (anchorLeft before).2 l ∧
    ((anchorLeft before).1 = true → l.length = (anchorLeft before).2.length)

/-- What stands behind a place starts with what the symbols after the locus stand for, and with a
word edge behind them it is no more than that. -/
def FitsAfter (table : CategoryTable) (after : List Symbol) (r : Word) : Prop :=
  StartsWith table (anchorRight after).2 r ∧
    ((anchorRight after).1 = true → r.length = (anchorRight after).2.length)

@[simp] theorem fitsBefore_nil (l : Word) : FitsBefore table [] l :=
  ⟨⟨[], List.nil_suffix, .nil⟩, nofun⟩

@[simp] theorem fitsAfter_nil (r : Word) : FitsAfter table [] r :=
  ⟨startsWith_nil table r, nofun⟩

@[simp] theorem fitsBefore_edge {l : Word} : FitsBefore table [.edge] l ↔ l = [] := by
  simp [FitsBefore, anchorLeft, EndsWith]

@[simp] theorem fitsAfter_edge {r : Word} : FitsAfter table [.edge] r ↔ r = [] := by
  simp [FitsAfter, anchorRight, startsWith_nil]

theorem matchesBeside_decides {before after : List Symbol}
    (hb : ∀ t ∈ (anchorLeft before).2, t.Comparable table)
    (ha : ∀ t ∈ (anchorRight after).2, t.Comparable table) (l x r : Word) :
    Decides (matchesBeside table (l ++ x ++ r) l.length x.length before after)
      (FitsBefore table before l ∧ FitsAfter table after r) := by
  rw [matchesBeside, FitsBefore, FitsAfter]
  generalize anchorLeft before = anchored at hb ⊢
  obtain ⟨atStart, left⟩ := anchored
  generalize anchorRight after = anchored at ha ⊢
  obtain ⟨atEnd, right⟩ := anchored
  have hdrop : (l ++ x ++ r).drop (l.length + x.length) = r := by
    rw [← List.length_append, List.drop_left]
  have hlen : (l ++ x ++ r).length = l.length + x.length + r.length := by
    rw [List.length_append, List.length_append]
  dsimp only at hb ha ⊢
  rw [hdrop, hlen, Nat.add_sub_cancel_left]
  refine Decides.congr (decides_guard fun _ =>
    decides_and (matchSymbols_decides hb _) (matchSymbols_decides ha r)) ?_
  constructor
  · rintro ⟨⟨hle, -, hstart, hend⟩, hleft, hright⟩
    rw [List.append_assoc, startsWith_drop_append hle] at hleft
    exact ⟨⟨hleft, hstart⟩, hright, hend⟩
  · rintro ⟨⟨hleft, hstart⟩, hright, hend⟩
    refine ⟨⟨hleft.length_le, Nat.add_le_add_left hright.length_le _, hstart, hend⟩, ?_, hright⟩
    rw [List.append_assoc]
    exact (startsWith_drop_append hleft.length_le _).mpr hleft

theorem exists_parts {w : Word} {start len : Nat} (h : start + len ≤ w.length) :
    ∃ l x r, w = l ++ x ++ r ∧ l.length = start ∧ x.length = len := by
  refine ⟨w.take start, (w.drop start).take len, w.drop (start + len), ?_, ?_, ?_⟩
  · rw [List.append_assoc, ← List.drop_drop, List.take_append_drop, List.take_append_drop]
  · rw [List.length_take]
    omega
  · rw [List.length_take, List.length_drop]
    omega

theorem matchesBeside_of_length_lt {w : Word} {start len : Nat} (h : w.length < start + len)
    (before after : List Symbol) : matchesBeside table w start len before after = .ok false := by
  rw [matchesBeside]
  exact if_neg fun ⟨_, hroom, _⟩ => by omega

/-- The two sides of any place, which may reach out of the word. -/
theorem matchesBeside_decides_at {before after : List Symbol}
    (hb : ∀ t ∈ (anchorLeft before).2, t.Comparable table)
    (ha : ∀ t ∈ (anchorRight after).2, t.Comparable table) (w : Word) (start len : Nat) :
    Decides (matchesBeside table w start len before after)
      (∃ l x r, w = l ++ x ++ r ∧ l.length = start ∧ x.length = len ∧
        FitsBefore table before l ∧ FitsAfter table after r) := by
  by_cases hroom : start + len ≤ w.length
  · obtain ⟨l, x, r, rfl, rfl, rfl⟩ := exists_parts hroom
    refine (matchesBeside_decides hb ha l x r).congr ⟨fun h => ⟨l, x, r, rfl, rfl, rfl, h⟩, ?_⟩
    rintro ⟨l', x', r', hw, hl, hx, h⟩
    obtain ⟨hlx, rfl⟩ := List.append_inj hw (by simp [hl, hx])
    obtain ⟨rfl, rfl⟩ := List.append_inj hlx hl.symm
    exact h
  · refine ⟨false, matchesBeside_of_length_lt (Nat.lt_of_not_le hroom) before after, ?_⟩
    refine iff_of_false Bool.false_ne_true ?_
    rintro ⟨l, x, r, rfl, rfl, rfl, -⟩
    exact hroom (by simp)

end Alternative

end

end SoundChange
