import SoundChange.Proofs.Condition.Meaning
import SoundChange.Proofs.Outcome

/-!
# Conditions that can be tried

Which alternatives of a condition can be tried on every word without a fault. A fault comes from a
category that is not defined or from a word edge or a locus that would have to stand for a
character; where both are kept away from the symbols that have to match, there is an answer.

* `edgesAtEnds_iff`: where the word edges of an alternative can be.
* `matchesInWord_of_locus_mem`, `matchesInWord_of_tooManyEdges`, `matchesInWord_of_misplaced`: the
  alternatives about the whole word that cannot be tried.
* `matchesInWord_decides`, `matchesInWord_ok`: those that can (`ValidInWord`).
* `matchesAround_ok`: alternatives about both sides of a place (`ValidAround`).
-/

set_option autoImplicit false

namespace SoundChange

/-- Whether the symbol refers to no category or to one that is defined. -/
def Symbol.isDefinedIn (table : CategoryTable) : Symbol → Bool
  | category letter => table.contains letter
  | _ => true

namespace Alternative

/-- A word edge is only the first or the last symbol. -/
def EdgesAtEnds (alt : Alternative) : Prop :=
  ∀ i, (h : i < alt.length) → alt[i] = .edge → i = 0 ∨ i + 1 = alt.length

/-- The alternatives for a whole word: no locus, and at most one word edge, at an end. -/
def ValidInWord (alt : Alternative) : Prop :=
  .locus ∉ alt ∧ Pattern.edgeCount alt ≤ 1 ∧ alt.EdgesAtEnds

/-- The alternatives for a place of a word: one locus and word edges at the ends, or an alternative
for the whole word. -/
def ValidAround (alt : Alternative) : Prop :=
  (alt.count .locus = 1 ∧ alt.EdgesAtEnds) ∨ alt.ValidInWord

instance (alt : Alternative) : Decidable alt.EdgesAtEnds :=
  inferInstanceAs (Decidable (∀ i, (h : i < alt.length) → alt[i] = .edge → _))

instance (alt : Alternative) : Decidable alt.ValidInWord :=
  inferInstanceAs (Decidable (_ ∧ _ ∧ _))

instance (alt : Alternative) : Decidable alt.ValidAround :=
  inferInstanceAs (Decidable (_ ∨ _))

end Alternative

/-! ## Symbols -/

section
variable {table : CategoryTable}

/-- Symbols of an alternative that are no word edge and no locus can be compared with characters. -/
theorem comparable_of_subset {alt : Alternative} {ts : List Symbol} (hts : ts ⊆ alt)
    (he : .edge ∉ ts) (hl : .locus ∉ ts) (hd : ∀ t ∈ alt, t.isDefinedIn table = true) :
    ∀ t ∈ ts, t.Comparable table := by
  refine fun t ht => ⟨fun h => he (h ▸ ht), fun h => hl (h ▸ ht), ?_⟩
  rintro letter rfl
  exact hd _ (hts ht)

/-! ## Alternatives -/

namespace Alternative

/-- A symbol at neither end of an alternative is between the ends. -/
theorem mem_ends_or_mem_inner {alt : Alternative} {t : Symbol} (h : t ∈ alt) :
    alt.head? = some t ∨ alt.getLast? = some t ∨ t ∈ alt.tail.dropLast := by
  cases alt with
  | nil => cases h
  | cons first rest =>
    rcases List.mem_cons.mp h with rfl | h
    · exact .inl rfl
    · have hrest : rest ≠ [] := List.ne_nil_of_mem h
      rw [← List.dropLast_concat_getLast hrest] at h
      rcases List.mem_append.mp h with h | h
      · exact .inr (.inr h)
      · rw [List.mem_singleton] at h
        rw [List.getLast?_cons_of_ne_nil hrest, List.getLast?_eq_some_getLast hrest, h]
        exact .inr (.inl rfl)

/-- The trial of an alternative looks for word edges between its ends. -/
theorem edgesAtEnds_iff {alt : Alternative} : alt.EdgesAtEnds ↔ .edge ∉ alt.tail.dropLast := by
  constructor
  · intro h hm
    obtain ⟨i, hi, he⟩ := List.mem_iff_getElem.mp hm
    rw [List.length_dropLast, List.length_tail] at hi
    rw [List.getElem_dropLast, List.getElem_tail] at he
    have := h (i + 1) (by omega) he
    omega
  · intro h i hi he
    by_contra hne
    have hinner : i - 1 < alt.tail.dropLast.length := by
      rw [List.length_dropLast, List.length_tail]
      omega
    have hback : i - 1 + 1 = i := by omega
    refine h (List.mem_iff_getElem.mpr ⟨i - 1, hinner, ?_⟩)
    simpa only [List.getElem_dropLast, List.getElem_tail, hback] using he

theorem matchesInWord_of_locus_mem {alt : Alternative} (hl : .locus ∈ alt) (w : Word) :
    matchesInWord table w alt = .error .locusInWordCondition := by
  rw [matchesInWord, if_pos (by simpa using hl)]
  rfl

theorem matchesInWord_of_tooManyEdges {alt : Alternative} (hl : .locus ∉ alt)
    (hmany : 1 < Pattern.edgeCount alt) (w : Word) :
    matchesInWord table w alt = .error .tooManyEdges := by
  rw [matchesInWord, if_neg (by simpa using hl), if_pos hmany]
  rfl

theorem matchesInWord_of_misplaced {alt : Alternative} (hl : .locus ∉ alt)
    (hcount : ¬ 1 < Pattern.edgeCount alt) (he : .edge ∈ alt) (hhead : alt.head? ≠ some .edge)
    (hlast : alt.getLast? ≠ some .edge) (w : Word) :
    matchesInWord table w alt = .error .misplacedEdge := by
  rw [matchesInWord, if_neg (by simpa using hl), if_neg hcount, if_neg hhead, if_neg hlast,
    if_pos (by simpa using he)]
  rfl

theorem matchesInWord_decides {alt : Alternative} (h : alt.ValidInWord)
    (hd : ∀ t ∈ alt, t.isDefinedIn table = true) (w : Word) :
    Decides (matchesInWord table w alt) (HoldsIn table alt w) := by
  obtain ⟨hl, hcount, hends⟩ := h
  rcases edge_cases hcount with he | ⟨ts, rfl, he⟩ | ⟨ts, rfl, he⟩ | ⟨he, hhead, hlast⟩
  · have hts := comparable_of_subset (List.Subset.refl alt) he hl hd
    exact (matchesInWord_plain_decides hts w).congr (holdsIn_plain he w).symm
  · have hts := comparable_of_subset (List.subset_cons_self _ ts) he (fun h => hl (.tail _ h)) hd
    exact (matchesInWord_edge_cons_decides hts w).congr (holdsIn_edge_cons he w).symm
  · have hts := comparable_of_subset (List.subset_append_left ts _) he
      (fun h => hl (List.mem_append_left _ h)) hd
    exact (matchesInWord_concat_edge_decides hts w).congr (holdsIn_concat_edge he w).symm
  · rcases mem_ends_or_mem_inner he with h | h | h
    · exact absurd h hhead
    · exact absurd h hlast
    · exact absurd h (edgesAtEnds_iff.mp hends)

theorem matchesInWord_ok {alt : Alternative} (h : alt.ValidInWord)
    (hd : ∀ t ∈ alt, t.isDefinedIn table = true) (w : Word) :
    ∃ b, matchesInWord table w alt = .ok b :=
  (matchesInWord_decides h hd w).ok

theorem anchorLeft_subset (before : List Symbol) : (anchorLeft before).2 ⊆ before := by
  rw [anchorLeft]
  split
  · exact fun _ => List.mem_of_mem_tail
  · exact List.Subset.refl before

theorem anchorRight_subset (after : List Symbol) : (anchorRight after).2 ⊆ after := by
  rw [anchorRight]
  split
  · exact List.dropLast_subset after
  · exact List.Subset.refl after

theorem edge_not_mem_anchorLeft {before : List Symbol} (h : .edge ∉ before.tail) :
    .edge ∉ (anchorLeft before).2 := by
  rw [anchorLeft]
  split
  case isTrue => exact h
  case isFalse hhead =>
    intro he
    cases before with
    | nil => cases he
    | cons t before =>
      rcases List.mem_cons.mp he with rfl | he
      · exact hhead rfl
      · exact h he

theorem edge_not_mem_anchorRight {after : List Symbol} (h : .edge ∉ after.dropLast) :
    .edge ∉ (anchorRight after).2 := by
  rw [anchorRight]
  split
  case isTrue => exact h
  case isFalse hlast =>
    intro he
    have hne : after ≠ [] := List.ne_nil_of_mem he
    rw [List.getLast?_eq_some_getLast hne, Option.some.injEq] at hlast
    rw [← List.dropLast_concat_getLast hne] at he
    rcases List.mem_append.mp he with he | he
    · exact h he
    · exact hlast (List.mem_singleton.mp he).symm

theorem mem_inner_of_mem_tail {before after : List Symbol} {t : Symbol} (h : t ∈ before.tail) :
    t ∈ (before ++ .locus :: after).tail.dropLast := by
  cases before with
  | nil => cases h
  | cons first before =>
    rw [List.cons_append, List.tail_cons, List.dropLast_append_cons]
    exact List.mem_append_left _ h

theorem mem_inner_of_mem_dropLast {before after : List Symbol} {t : Symbol}
    (h : t ∈ after.dropLast) : t ∈ (before ++ .locus :: after).tail.dropLast := by
  have hne : after ≠ [] := by
    rintro rfl
    cases h
  cases before with
  | nil => exact h
  | cons first before =>
    rw [List.cons_append, List.tail_cons, List.dropLast_append_cons,
      List.dropLast_cons_of_ne_nil hne]
    exact List.mem_append_right _ (.tail _ h)

section
variable {before after : List Symbol}
  (hinner : .edge ∉ (before ++ Symbol.locus :: after).tail.dropLast)
  (hd : ∀ t ∈ before ++ Symbol.locus :: after, t.isDefinedIn table = true)
include hinner hd

theorem comparable_anchorLeft (hl : .locus ∉ before) :
    ∀ t ∈ (anchorLeft before).2, t.Comparable table := by
  refine comparable_of_subset ?_ ?_ (fun h => hl (anchorLeft_subset before h)) hd
  · exact List.Subset.trans (anchorLeft_subset before) (List.subset_append_left _ _)
  · exact edge_not_mem_anchorLeft fun h => hinner (mem_inner_of_mem_tail h)

theorem comparable_anchorRight (hl : .locus ∉ after) :
    ∀ t ∈ (anchorRight after).2, t.Comparable table := by
  refine comparable_of_subset ?_ ?_ (fun h => hl (anchorRight_subset after h)) hd
  · exact fun t ht => List.mem_append_right _ (.tail _ (anchorRight_subset after ht))
  · exact edge_not_mem_anchorRight fun h => hinner (mem_inner_of_mem_dropLast h)

end

theorem matchesAround_ok {alt : Alternative} (h : alt.ValidAround)
    (hd : ∀ t ∈ alt, t.isDefinedIn table = true) (w : Word) (start len : Nat) :
    ∃ b, matchesAround table w start len alt = .ok b := by
  rcases h with ⟨hcount, hends⟩ | h
  · have hl : .locus ∈ alt := List.count_pos_iff.mp (Nat.lt_of_lt_of_eq Nat.one_pos hcount.symm)
    obtain ⟨before, after, rfl, hlb⟩ := List.eq_append_cons_of_mem hl
    have hinner := edgesAtEnds_iff.mp hends
    rw [List.count_append, List.count_cons_self] at hcount
    have hla : .locus ∉ after := List.count_eq_zero.mp (by omega)
    rw [matchesAround_append hlb, if_neg hinner]
    exact (matchesBeside_decides_at (comparable_anchorLeft hinner hd hlb)
      (comparable_anchorRight hinner hd hla) w start len).ok
  · rw [matchesAround_of_locus_not_mem h.1]
    exact matchesInWord_ok h hd w

end Alternative

end

end SoundChange
