import SoundChange.Pattern

/-!
# Patterns of one shape

What a pattern of some shape is made of, and what it is not.

* `splitOn_mark_cons`, `exists_splitOn_cons`: the pieces between marks, from the left.
* `not_mem_of_mem_splitOn`, `exists_mem_splitOn`: what stands between marks is all but the marks.
* `sublist_of_mem_splitOn`: a piece, within the whole.
* `length_splitOn`, `splitOn_map`: how many pieces there are, and those of an image.
* `alternatives_bar`, `alternatives_cons`: the alternatives of a condition, symbol by symbol.
* `listsMembers_eq_false_of_isText`: no pattern is both a text and a list of members.
* `edgeCount_of_isText`, `edgeCount_of_listsMembers`: neither of them mentions a word edge.
* `exists_append_edge`, `edgeCount_append_edge`: a pattern with one word edge, taken apart.
* `aroundEdge_append`, `aroundEdge_map_literal`: the texts on both sides of a word edge.
-/

set_option autoImplicit false

namespace SoundChange

/-! ## Pieces between marks -/

section
variable {α : Type} [BEq α] [LawfulBEq α] {mark : α}

theorem splitOn_mark_cons (l : List α) : (mark :: l).splitOn mark = [] :: l.splitOn mark := by
  simp [List.splitOn_cons_eq_if_modifyHead]

/-- What is no mark belongs to the first piece. -/
theorem exists_splitOn_cons {a : α} (ha : a ≠ mark) (l : List α) :
    ∃ first others, l.splitOn mark = first :: others ∧
      (a :: l).splitOn mark = (a :: first) :: others := by
  obtain ⟨first, others, h⟩ := List.exists_cons_of_ne_nil (List.splitOn_ne_nil mark l)
  exact ⟨first, others, h, by simp [List.splitOn_cons_eq_if_modifyHead, ha, h]⟩

theorem not_mem_of_mem_splitOn {l piece : List α} (h : piece ∈ l.splitOn mark) :
    mark ∉ piece := by
  induction l generalizing piece with
  | nil =>
    rw [List.splitOn_nil, List.mem_singleton] at h
    rw [h]
    exact List.not_mem_nil
  | cons a l ih =>
    by_cases ha : a = mark
    · rw [ha, splitOn_mark_cons] at h
      rcases List.mem_cons.mp h with rfl | h
      · exact List.not_mem_nil
      · exact ih h
    · obtain ⟨first, others, hl, hal⟩ := exists_splitOn_cons ha l
      rw [hl] at ih
      rw [hal] at h
      rcases List.mem_cons.mp h with rfl | h
      · rw [List.mem_cons, not_or]
        exact ⟨Ne.symm ha, ih (.head _)⟩
      · exact ih (.tail _ h)

theorem sublist_of_mem_splitOn {l piece : List α} (h : piece ∈ l.splitOn mark) :
    piece.Sublist l := by
  induction l generalizing piece with
  | nil =>
    rw [List.splitOn_nil, List.mem_singleton] at h
    exact h ▸ List.Sublist.refl _
  | cons a l ih =>
    by_cases ha : a = mark
    · rw [ha, splitOn_mark_cons] at h
      rcases List.mem_cons.mp h with rfl | h
      · exact List.nil_sublist _
      · exact (ih h).cons a
    · obtain ⟨first, others, hl, hal⟩ := exists_splitOn_cons ha l
      rw [hl] at ih
      rw [hal] at h
      rcases List.mem_cons.mp h with rfl | h
      · exact (ih (.head _)).cons_cons a
      · exact (ih (.tail _ h)).cons a

theorem mem_of_mem_splitOn {l piece : List α} {a : α} (h : piece ∈ l.splitOn mark)
    (ha : a ∈ piece) : a ∈ l :=
  (sublist_of_mem_splitOn h).subset ha

theorem exists_mem_splitOn {l : List α} {a : α} (h : a ∈ l) (ha : a ≠ mark) :
    ∃ piece ∈ l.splitOn mark, a ∈ piece := by
  induction l with
  | nil => cases h
  | cons b l ih =>
    by_cases hb : b = mark
    · have hl : a ∈ l := (List.mem_cons.mp h).resolve_left fun hab => ha (hab.trans hb)
      obtain ⟨piece, hpiece, hap⟩ := ih hl
      rw [hb, splitOn_mark_cons]
      exact ⟨piece, .tail _ hpiece, hap⟩
    · obtain ⟨first, others, hl, hbl⟩ := exists_splitOn_cons hb l
      rw [hl] at ih
      rw [hbl]
      rcases List.mem_cons.mp h with rfl | h
      · exact ⟨a :: first, .head _, .head _⟩
      · obtain ⟨piece, hpiece, hap⟩ := ih h
        rcases List.mem_cons.mp hpiece with rfl | hpiece
        · exact ⟨b :: piece, .head _, .tail _ hap⟩
        · exact ⟨piece, .tail _ hpiece, hap⟩

theorem length_splitOn (l : List α) : (l.splitOn mark).length = 1 + l.count mark := by
  induction l with
  | nil => simp
  | cons a l ih =>
    by_cases ha : a = mark
    · rw [ha, splitOn_mark_cons, List.length_cons, ih, List.count_cons_self, Nat.add_assoc]
    · obtain ⟨first, others, hl, hal⟩ := exists_splitOn_cons ha l
      rw [List.count_cons_of_ne ha, ← ih, hal, hl, List.length_cons, List.length_cons]

/-- An image has its marks where they were, if nothing else becomes one. -/
theorem splitOn_map {β : Type} [BEq β] [LawfulBEq β] {f : α → β} {l : List α}
    (h : ∀ a ∈ l, f a = f mark → a = mark) :
    (l.map f).splitOn (f mark) = (l.splitOn mark).map (List.map f) := by
  induction l with
  | nil => simp
  | cons a l ih =>
    rw [List.forall_mem_cons] at h
    rw [List.map_cons]
    by_cases ha : a = mark
    · rw [ha, splitOn_mark_cons, splitOn_mark_cons, ih h.2]
      rfl
    · obtain ⟨first, others, hl, hal⟩ := exists_splitOn_cons ha l
      obtain ⟨first', others', hl', hal'⟩ := exists_splitOn_cons (mt h.1 ha) (l.map f)
      rw [ih h.2, hl, List.map_cons] at hl'
      obtain ⟨rfl, rfl⟩ := List.cons.inj hl'
      rw [hal, hal', List.map_cons, List.map_cons]

end

namespace Pattern

/-! ## Alternatives -/

theorem alternatives_bar (p : Pattern) : alternatives (.bar :: p) = [] :: alternatives p :=
  splitOn_mark_cons p

theorem alternatives_cons {t : Symbol} (ht : t ≠ .bar) (p : Pattern) :
    ∃ alt alts, alternatives p = alt :: alts ∧ alternatives (t :: p) = (t :: alt) :: alts :=
  exists_splitOn_cons ht p

theorem mem_of_mem_alternatives {p : Pattern} {alt : Alternative} {t : Symbol}
    (halt : alt ∈ alternatives p) (ht : t ∈ alt) : t ∈ p :=
  mem_of_mem_splitOn halt ht

theorem length_le_of_mem_alternatives {p : Pattern} {alt : Alternative}
    (h : alt ∈ alternatives p) : alt.length ≤ p.length :=
  (sublist_of_mem_splitOn h).length_le

/-! ## Texts and lists of members -/

theorem isLiteral_of_isText {p : Pattern} (h : isText p = true) {t : Symbol} (ht : t ∈ p) :
    t.isLiteral = true :=
  List.all_eq_true.mp h t ht

theorem categoryLetter?_eq_some_iff {p : Pattern} {letter : Char} :
    categoryLetter? p = some letter ↔ p = [.category letter] := by
  constructor
  · intro h
    unfold categoryLetter? at h
    split at h
    · rw [Option.some.inj h]
    · cases h
  · rintro rfl
    rfl

theorem listsMembers_iff {p : Pattern} :
    listsMembers p = true ↔
      (∃ letter, p = [.category letter]) ∨ isInlineCategory p = true := by
  rw [listsMembers, Bool.or_eq_true, Option.isSome_iff_exists]
  simp only [categoryLetter?_eq_some_iff]

theorem listsMembers_eq_false_of_isText {p : Pattern} (h : isText p = true) :
    listsMembers p = false := by
  refine Bool.eq_false_iff.mpr fun hm => ?_
  rcases listsMembers_iff.mp hm with ⟨letter, rfl⟩ | hi
  · cases h
  · obtain ⟨hc, -⟩ := Bool.and_eq_true_iff.mp hi
    cases isLiteral_of_isText h (List.contains_iff_mem.mp hc)

theorem edgeCount_of_isText {p : Pattern} (h : isText p = true) : edgeCount p = 0 :=
  List.count_eq_zero.mpr fun he => nomatch isLiteral_of_isText h he

theorem edgeCount_of_listsMembers {p : Pattern} (h : listsMembers p = true) :
    edgeCount p = 0 := by
  rcases listsMembers_iff.mp h with ⟨letter, rfl⟩ | hi
  · rfl
  · obtain ⟨-, ha⟩ := Bool.and_eq_true_iff.mp hi
    exact List.count_eq_zero.mpr fun he => nomatch List.all_eq_true.mp ha _ he

/-! ## Word edges -/

theorem edgeCount_append_edge {before after : Pattern} :
    edgeCount (before ++ .edge :: after) = 1 ↔ .edge ∉ before ∧ .edge ∉ after := by
  rw [edgeCount, List.count_append, List.count_cons_self, ← List.count_eq_zero,
    ← List.count_eq_zero]
  omega

theorem exists_append_edge {p : Pattern} (h : edgeCount p = 1) :
    ∃ before after, p = before ++ .edge :: after ∧ .edge ∉ before ∧ .edge ∉ after := by
  have he : .edge ∈ p := List.count_pos_iff.mp (Nat.lt_of_lt_of_eq Nat.one_pos h.symm)
  obtain ⟨before, after, rfl⟩ := List.append_of_mem he
  exact ⟨before, after, rfl, edgeCount_append_edge.mp h⟩

theorem aroundEdge_append {before : Pattern} (h : .edge ∉ before) (after : Pattern) :
    aroundEdge (before ++ .edge :: after) = (text before, text after) := by
  have hall : ∀ t ∈ before, (t != Symbol.edge) = true := fun t ht =>
    bne_iff_ne.mpr fun he => h (he ▸ ht)
  rw [aroundEdge, List.takeWhile_append_of_pos hall, List.dropWhile_append_of_pos hall]
  simp

theorem aroundEdge_map_literal (before after : Word) :
    aroundEdge (before.map .literal ++ .edge :: after.map .literal) = (before, after) := by
  rw [aroundEdge_append (by simp), text_map_literal, text_map_literal]

end Pattern

end SoundChange
