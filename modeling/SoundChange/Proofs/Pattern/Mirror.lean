import SoundChange.Proofs.Pattern
import SoundChange.Rule.Members

/-!
# Patterns from right to left

The mirror image of a pattern that has marks in it keeps the pieces between the marks in their
order and reverses each of them (`reverseBetween`); without a mark it is the reversed pattern. What
a pattern stands for is reversed with it, and its shape stays.

* `alternatives_reverseBetween`, `inlineMembers_reverseBetween`: the pieces, reversed.
* `categoryLetter?_reverseBetween`, `listsMembers_reverseBetween`, `isText_reverseBetween`: shapes.
* `aroundEdge_reverse`: the texts on both sides of a word edge change sides.
* `members_mirrored`: the members that a pattern lists, under the mirrored table.
-/

set_option autoImplicit false

namespace SoundChange

namespace Pattern

/-- The pattern with each piece between two marks reversed in its place. -/
def reverseBetween (mark : Symbol) (p : Pattern) : Pattern :=
  [mark].intercalate ((p.splitOn mark).map List.reverse)

theorem splitOn_reverseBetween (mark : Symbol) (p : Pattern) :
    (reverseBetween mark p).splitOn mark = (p.splitOn mark).map List.reverse := by
  refine List.splitOn_intercalate mark (fun piece hpiece => ?_) ?_
  · obtain ⟨piece, h, rfl⟩ := List.mem_map.mp hpiece
    rw [List.mem_reverse]
    exact not_mem_of_mem_splitOn h
  · rw [Ne, List.map_eq_nil_iff]
    exact List.splitOn_ne_nil mark p

theorem intercalate_map_reverse_perm (mark : Symbol) (pieces : List Pattern) :
    ([mark].intercalate (pieces.map List.reverse)).Perm ([mark].intercalate pieces) := by
  induction pieces with
  | nil => exact .refl _
  | cons first others ih =>
    cases others with
    | nil =>
      rw [List.map_singleton, List.intercalate_singleton, List.intercalate_singleton]
      exact List.reverse_perm first
    | cons second others =>
      rw [List.map_cons, List.map_cons, List.intercalate_cons_cons, List.intercalate_cons_cons]
      exact ((List.reverse_perm first).append_right [mark]).append ih

/-- The mirror image has the same symbols. -/
theorem reverseBetween_perm (mark : Symbol) (p : Pattern) : (reverseBetween mark p).Perm p := by
  have h := intercalate_map_reverse_perm mark (p.splitOn mark)
  rwa [List.intercalate_splitOn] at h

theorem reverseBetween_of_not_mem {mark : Symbol} {p : Pattern} (h : mark ∉ p) :
    reverseBetween mark p = p.reverse := by
  rw [reverseBetween, List.splitOn_eq_singleton h, List.map_singleton,
    List.intercalate_singleton]

@[simp] theorem reverseBetween_eq_nil_iff {mark : Symbol} {p : Pattern} :
    reverseBetween mark p = [] ↔ p = [] := by
  rw [← List.length_eq_zero_iff, (reverseBetween_perm mark p).length_eq, List.length_eq_zero_iff]

/-! ## Conditions -/

theorem alternatives_reverseBetween (p : Pattern) :
    alternatives (reverseBetween .bar p) = (alternatives p).map List.reverse :=
  splitOn_reverseBetween .bar p

/-! ## Texts and lists of members -/

@[simp] theorem text_reverse (p : Pattern) : text p.reverse = (text p).reverse :=
  List.filterMap_reverse

@[simp] theorem edgeCount_reverse (p : Pattern) : edgeCount p.reverse = edgeCount p :=
  List.count_reverse

theorem inlineMembers_reverseBetween (p : Pattern) :
    inlineMembers (reverseBetween .comma p) = (inlineMembers p).map List.reverse := by
  rw [inlineMembers, inlineMembers, splitOn_reverseBetween, List.map_map, List.map_map]
  exact List.map_congr_left fun piece _ => text_reverse piece

theorem categoryLetter?_reverseBetween (mark : Symbol) (p : Pattern) :
    categoryLetter? (reverseBetween mark p) = categoryLetter? p := by
  refine Option.ext fun letter => ?_
  rw [categoryLetter?_eq_some_iff, categoryLetter?_eq_some_iff, ← List.perm_singleton,
    ← List.perm_singleton]
  exact ⟨(reverseBetween_perm mark p).symm.trans, (reverseBetween_perm mark p).trans⟩

theorem listsMembers_reverseBetween (mark : Symbol) (p : Pattern) :
    listsMembers (reverseBetween mark p) = listsMembers p := by
  have hp := reverseBetween_perm mark p
  rw [listsMembers, listsMembers, isInlineCategory, isInlineCategory,
    categoryLetter?_reverseBetween, hp.all_eq, hp.contains_eq]

theorem isText_reverseBetween (mark : Symbol) (p : Pattern) :
    isText (reverseBetween mark p) = isText p :=
  (reverseBetween_perm mark p).all_eq

theorem text_reverseBetween_of_isText {p : Pattern} (h : isText p = true) :
    text (reverseBetween .comma p) = (text p).reverse := by
  have hcomma : .comma ∉ p := fun hc => nomatch isLiteral_of_isText h hc
  rw [reverseBetween_of_not_mem hcomma, text_reverse]

/-! ## Word edges -/

theorem aroundEdge_reverse {p : Pattern} (h : edgeCount p = 1) :
    aroundEdge p.reverse = ((aroundEdge p).2.reverse, (aroundEdge p).1.reverse) := by
  obtain ⟨before, after, rfl, hbefore, hafter⟩ := exists_append_edge h
  have hrev : (before ++ Symbol.edge :: after).reverse =
      after.reverse ++ .edge :: before.reverse := by simp
  rw [hrev, aroundEdge_append hbefore, aroundEdge_append (by simpa using hafter), text_reverse,
    text_reverse]

end Pattern

/-! ## Tables -/

/-- The table with every member reversed. -/
def CategoryTable.mirrored (table : CategoryTable) : CategoryTable where
  categories := table.categories.map fun c => (c.1, c.2.map List.reverse)
  ascending := List.pairwise_map.mpr table.ascending

theorem CategoryTable.lookup_map_reverse (categories : List Category) (letter : Char) :
    (categories.map fun c => (c.1, c.2.map List.reverse)).lookup letter =
      (categories.lookup letter).map (List.map List.reverse) := by
  induction categories with
  | nil => rfl
  | cons c categories ih =>
    rw [List.map_cons, lookup_cons, lookup_cons, ih]
    split <;> rfl

theorem CategoryTable.get?_mirrored (table : CategoryTable) (letter : Char) :
    table.mirrored.get? letter = (table.get? letter).map (List.map List.reverse) :=
  lookup_map_reverse table.categories letter

theorem Pattern.members_mirrored (table : CategoryTable) (p : Pattern) :
    members table.mirrored (reverseBetween .comma p) =
      List.map List.reverse <$> members table p := by
  rw [members, members, categoryLetter?_reverseBetween]
  split
  case h_1 letter _ =>
    rw [CategoryTable.get?_mirrored]
    cases table.get? letter <;> rfl
  case h_2 =>
    rw [inlineMembers_reverseBetween]
    rfl

end SoundChange
