import SoundChange.Proofs.Condition
import SoundChange.Proofs.Pattern.Mirror

/-!
# Conditions from right to left

A reversed alternative, tried on a reversed word under the mirrored table, does what the alternative
does on the word. The trials go through a word from left to right either way, so that the two do
not look at the same characters in the same order; but they decide statements of which one is the
other from right to left (`SoundChange.Proofs.Condition.Meaning`).

* `matchesInWord_mirrored`: alternatives about the whole word.
* `matchesAround_mirrored`: alternatives about a place; what stands in front of the place and what
  stands behind it change sides.
-/

set_option autoImplicit false

namespace SoundChange

section
variable {table : CategoryTable}

/-! ## Symbols -/

/-- One character is its own mirror image, and so a symbol stands for the same characters. -/
theorem Symbol.standsFor_mirrored : StandsFor table.mirrored = StandsFor table := by
  funext t c
  cases t with
  | category letter =>
    simp only [StandsFor, CategoryTable.get?_mirrored, Option.map_eq_some_iff, eq_iff_iff]
    constructor
    · rintro ⟨_, ⟨members, hm, rfl⟩, hc⟩
      obtain ⟨member, hmem, hrev⟩ := List.mem_map.mp hc
      obtain rfl : member = [c] := List.reverse_eq_iff.mp hrev
      exact ⟨members, hm, hmem⟩
    · rintro ⟨members, hm, hc⟩
      exact ⟨_, ⟨members, hm, rfl⟩, List.mem_map.mpr ⟨[c], hc, rfl⟩⟩
  | _ => rfl

theorem CategoryTable.contains_mirrored (table : CategoryTable) (letter : Char) :
    table.mirrored.contains letter = table.contains letter := by
  rw [contains, contains, get?_mirrored, Option.isSome_map]

theorem comparable_reverse {ts : List Symbol} (h : ∀ t ∈ ts, t.Comparable table) :
    ∀ t ∈ ts.reverse, t.Comparable table.mirrored := by
  intro t ht
  obtain ⟨he, hl, hd⟩ := h t (List.mem_reverse.mp ht)
  refine ⟨he, hl, fun letter hletter => ?_⟩
  rw [CategoryTable.contains_mirrored]
  exact hd letter hletter

theorem endsWith_mirrored {ts : List Symbol} {w : Word} :
    EndsWith table.mirrored ts.reverse w.reverse ↔ StartsWith table ts w := by
  rw [EndsWith, StartsWith, List.reverse_surjective.exists, Symbol.standsFor_mirrored]
  simp only [List.reverse_suffix, List.forall₂_reverse_iff]

theorem startsWith_mirrored {ts : List Symbol} {w : Word} :
    StartsWith table.mirrored ts.reverse w.reverse ↔ EndsWith table ts w := by
  rw [EndsWith, StartsWith, List.reverse_surjective.exists, Symbol.standsFor_mirrored]
  simp only [List.reverse_prefix, List.forall₂_reverse_iff]

theorem occursIn_mirrored {ts : List Symbol} {w : Word} :
    OccursIn table.mirrored ts.reverse w.reverse ↔ OccursIn table ts w := by
  rw [OccursIn, OccursIn, List.reverse_surjective.exists, Symbol.standsFor_mirrored]
  simp only [List.reverse_infix, List.forall₂_reverse_iff]

namespace Alternative

/-! ## Alternatives about the whole word -/

theorem matchesInWord_mirrored {alt : Alternative} (hd : ∀ t ∈ alt, t.isDefinedIn table = true)
    (w : Word) :
    matchesInWord table.mirrored w.reverse alt.reverse = matchesInWord table w alt := by
  by_cases hl : .locus ∈ alt
  · rw [matchesInWord_of_locus_mem hl, matchesInWord_of_locus_mem (List.mem_reverse.mpr hl)]
  by_cases hmany : 1 < Pattern.edgeCount alt
  · rw [matchesInWord_of_tooManyEdges hl hmany,
      matchesInWord_of_tooManyEdges (by simpa using hl) (by simpa using hmany)]
  -- the word edge of the reversed alternative is at the other end, and so are the symbols beside it
  rcases edge_cases (Nat.not_lt.mp hmany) with
    he | ⟨ts, rfl, he⟩ | ⟨ts, rfl, he⟩ | ⟨he, hhead, hlast⟩
  · have hts := comparable_of_subset (List.Subset.refl alt) he hl hd
    exact (matchesInWord_plain_decides (comparable_reverse hts) w.reverse).eq
      (matchesInWord_plain_decides hts w) occursIn_mirrored
  · have hts := comparable_of_subset (List.subset_cons_self _ ts) he (fun h => hl (.tail _ h)) hd
    rw [List.reverse_cons]
    exact (matchesInWord_concat_edge_decides (comparable_reverse hts) w.reverse).eq
      (matchesInWord_edge_cons_decides hts w) endsWith_mirrored
  · have hts := comparable_of_subset (List.subset_append_left ts _) he
      (fun h => hl (List.mem_append_left _ h)) hd
    rw [List.reverse_concat]
    exact (matchesInWord_edge_cons_decides (comparable_reverse hts) w.reverse).eq
      (matchesInWord_concat_edge_decides hts w) startsWith_mirrored
  · rw [matchesInWord_of_misplaced hl hmany he hhead hlast,
      matchesInWord_of_misplaced (by simpa using hl) (by simpa using hmany) (by simpa using he)
        (by rwa [List.head?_reverse]) (by rwa [List.getLast?_reverse])]

/-! ## Alternatives about a place -/

theorem anchorLeft_reverse (after : List Symbol) :
    anchorLeft after.reverse = ((anchorRight after).1, (anchorRight after).2.reverse) := by
  rw [anchorLeft, anchorRight, List.head?_reverse]
  split
  · rw [List.tail_reverse]
  · rfl

theorem anchorRight_reverse (before : List Symbol) :
    anchorRight before.reverse = ((anchorLeft before).1, (anchorLeft before).2.reverse) := by
  rw [anchorLeft, anchorRight, List.getLast?_reverse]
  split
  · rw [List.dropLast_reverse]
  · rfl

theorem fitsBefore_mirrored {after : List Symbol} {r : Word} :
    FitsBefore table.mirrored after.reverse r.reverse ↔ FitsAfter table after r := by
  rw [FitsBefore, FitsAfter, anchorLeft_reverse, endsWith_mirrored, List.length_reverse,
    List.length_reverse]

theorem fitsAfter_mirrored {before : List Symbol} {l : Word} :
    FitsAfter table.mirrored before.reverse l.reverse ↔ FitsBefore table before l := by
  rw [FitsBefore, FitsAfter, anchorRight_reverse, startsWith_mirrored, List.length_reverse,
    List.length_reverse]

theorem matchesBeside_mirrored {before after : List Symbol}
    (hb : ∀ t ∈ (anchorLeft before).2, t.Comparable table)
    (ha : ∀ t ∈ (anchorRight after).2, t.Comparable table) (l x r : Word) :
    matchesBeside table.mirrored (l ++ x ++ r).reverse r.length x.length after.reverse
        before.reverse =
      matchesBeside table (l ++ x ++ r) l.length x.length before after := by
  have hrev : (l ++ x ++ r).reverse = r.reverse ++ x.reverse ++ l.reverse := by simp
  have ha' : ∀ t ∈ (anchorLeft after.reverse).2, t.Comparable table.mirrored := by
    rw [anchorLeft_reverse]
    exact comparable_reverse ha
  have hb' : ∀ t ∈ (anchorRight before.reverse).2, t.Comparable table.mirrored := by
    rw [anchorRight_reverse]
    exact comparable_reverse hb
  have hdecides := matchesBeside_decides ha' hb' r.reverse x.reverse l.reverse
  rw [List.length_reverse, List.length_reverse, ← hrev] at hdecides
  refine hdecides.eq (matchesBeside_decides hb ha l x r) ?_
  rw [fitsBefore_mirrored, fitsAfter_mirrored, and_comm]

/-- The symbols between the ends of a reversed alternative. -/
theorem inner_reverse (alt : Alternative) :
    alt.reverse.tail.dropLast = alt.tail.dropLast.reverse := by
  rw [List.tail_reverse, List.dropLast_reverse, List.tail_dropLast]

theorem matchesAround_mirrored {alt : Alternative} (hcount : alt.count .locus ≤ 1)
    (hd : ∀ t ∈ alt, t.isDefinedIn table = true) (l x r : Word) :
    matchesAround table.mirrored (l ++ x ++ r).reverse r.length x.length alt.reverse =
      matchesAround table (l ++ x ++ r) l.length x.length alt := by
  by_cases hl : .locus ∉ alt
  · rw [matchesAround_of_locus_not_mem hl, matchesAround_of_locus_not_mem (by simpa using hl)]
    exact matchesInWord_mirrored hd _
  obtain ⟨before, after, rfl, hlb⟩ := List.eq_append_cons_of_mem (not_not.mp hl)
  have hla : .locus ∉ after := by
    rw [List.count_append, List.count_cons_self] at hcount
    exact List.count_eq_zero.mp (by omega)
  have hrev : (before ++ Symbol.locus :: after).reverse =
      after.reverse ++ .locus :: before.reverse := by simp
  have hinner := inner_reverse (before ++ .locus :: after)
  rw [hrev] at hinner ⊢
  rw [matchesAround_append hlb, matchesAround_append (by simpa using hla), hinner]
  simp only [List.mem_reverse]
  split
  case isTrue => rfl
  case isFalse he =>
    exact matchesBeside_mirrored (comparable_anchorLeft he hd hlb)
      (comparable_anchorRight he hd hla) l x r

end Alternative

end

end SoundChange
