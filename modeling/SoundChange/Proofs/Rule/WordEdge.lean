import SoundChange.Proofs.Condition.Meaning
import SoundChange.Proofs.Rule.Scan

/-!
# Texts at a word edge

That a text stands at an edge of the word can be said by the condition of a rule about a text or by
a word edge in the target. The first one searches the word and splices, the second one takes the
text off and looks no further. They do the same at the end of the word. They do at its beginning
too, unless what takes the place of the text is empty: then the next one stands at the beginning,
and it is taken out as well.

* `matchesAround_before_end`, `matchesAround_at_start`: the two conditions.
* `scan_before_end`, `scan_at_start`, `scan_of_stripped`: the pass under either of them.
* `apply_beside_edge`: the rules.
-/

set_option autoImplicit false

namespace SoundChange

/-! ## Conditions -/

namespace Alternative

theorem matchesAround_before_end (table : CategoryTable) (l x r : Word) :
    matchesAround table (l ++ (x ++ r)) l.length x.length [.locus, .edge] =
      .ok (decide (r = [])) := by
  rw [matchesAround_locus_cons, if_neg (by decide), ← List.append_assoc]
  refine ((matchesBeside_decides ?_ ?_ l x r).congr ?_).eq_decide
  · simp [anchorLeft]
  · simp [anchorRight]
  · simp

theorem matchesAround_at_start (table : CategoryTable) (l x r : Word) :
    matchesAround table (l ++ (x ++ r)) l.length x.length [.edge, .locus] =
      .ok (decide (l = [])) := by
  have hleft : Symbol.locus ∉ [Symbol.edge] := by decide
  rw [← List.singleton_append, matchesAround_append hleft, if_neg (by decide), ← List.append_assoc]
  refine ((matchesBeside_decides ?_ ?_ l x r).congr ?_).eq_decide
  · simp [anchorLeft]
  · simp [anchorRight]
  · simp

end Alternative

/-! ## The pass -/

namespace Word

/-- The word `v` is `w` without any `t` that it begins with. -/
def Stripped (t w v : Word) : Prop :=
  (∃ k, w = (List.replicate k t).flatten ++ v) ∧ ¬ t <+: v

section
variable {m : Type → Type} [Monad m] [LawfulMonad m] {choose : Word → Nat → m (Option Word)}
  {t r : Word}

theorem exists_stripped (ht : t ≠ []) (w : Word) : ∃ v, Stripped t w v := by
  induction hn : w.length using Nat.strongRecOn generalizing w with
  | ind n ih =>
    by_cases hp : t <+: w
    · obtain ⟨rest, rfl⟩ := hp
      have hlt : rest.length < n := by
        rw [← hn, List.length_append]
        exact Nat.lt_add_of_pos_left (List.length_pos_iff.mpr ht)
      obtain ⟨v, ⟨k, hk⟩, hv⟩ := ih _ hlt rest rfl
      refine ⟨v, ⟨k + 1, ?_⟩, hv⟩
      rw [List.replicate_succ, List.flatten_cons, List.append_assoc, ← hk]
    · exact ⟨w, ⟨0, rfl⟩, hp⟩

/-- Only an occurrence with nothing behind it is replaced. -/
theorem scan_before_end (ht : t ≠ [])
    (h : ∀ l x, choose (l ++ (t ++ x)) l.length = pure (if x = [] then some r else none))
    (done w : Word) :
    scan t choose done w = pure (done ++ (t.isSuffixOf? w).elim w (· ++ r)) := by
  cases hw : t.isSuffixOf? w with
  | some front =>
    obtain rfl := List.isSuffixOf?_eq_some_iff_append_eq.mp hw
    have hpassed : scan t choose done (front ++ t) = scan t choose (done ++ front) t := by
      refine scan_of_passed done fun l x _ hx hp => ?_
      obtain ⟨y, hy⟩ := hp
      rw [← hy, h, if_neg]
      rintro rfl
      have hlen := congrArg List.length hy
      exact hx (by simpa using hlen)
    have hlast := scan_of_selected ht (done ++ front) [] ((h _ []).trans (by rw [if_pos rfl]))
    rw [List.append_nil] at hlast
    rw [hpassed, hlast, scan, if_neg ht]
    simp
  | none =>
    refine scan_of_all_passed ht done w fun l x hl _ hp => ?_
    obtain ⟨y, hy⟩ := hp
    rw [← hy, h, if_neg]
    rintro rfl
    rw [List.append_nil] at hy
    exact isSuffixOf?_eq_none_iff.mp hw ⟨l, hl ▸ hy ▸ rfl⟩

section
variable (ht : t ≠ [])
  (h : ∀ l x, choose (l ++ (t ++ x)) l.length = pure (if l = [] then some r else none))
include ht h

theorem scan_behind_start {done : Word} (hdone : done ≠ []) (w : Word) :
    scan t choose done w = pure (done ++ w) := by
  refine scan_of_all_passed ht done w fun l x _ _ hp => ?_
  obtain ⟨y, hy⟩ := hp
  rw [← hy, h, if_neg (by simp [hdone])]

theorem scan_of_not_at_start {w : Word} (hw : ¬ t <+: w) : scan t choose [] w = pure w := by
  cases w with
  | nil => rw [scan, if_neg ht]
  | cons c w =>
    rw [scan, if_neg hw, scan_behind_start ht h (by simp)]
    rfl

/-- Only an occurrence with nothing in front of it is replaced, and what takes its place is then in
front of the others. -/
theorem scan_at_start (hr : r ≠ []) (w : Word) :
    scan t choose [] w = pure ((t.isPrefixOf? w).elim w (r ++ ·)) := by
  cases hw : t.isPrefixOf? w with
  | some rest =>
    obtain rfl := List.isPrefixOf?_eq_some_iff_append_eq.mp hw
    rw [scan_of_selected ht [] rest (h [] rest), List.nil_append, scan_behind_start ht h hr]
    rfl
  | none => exact scan_of_not_at_start ht h (isPrefixOf?_eq_none_iff.mp hw)

end

/-- With nothing in the place of an occurrence at the beginning, the next one is there again. -/
theorem scan_of_stripped (ht : t ≠ [])
    (h : ∀ l x, choose (l ++ (t ++ x)) l.length = pure (if l = [] then some [] else none))
    {w v : Word} (hv : Stripped t w v) : scan t choose [] w = pure v := by
  obtain ⟨⟨k, rfl⟩, hv⟩ := hv
  induction k with
  | zero => exact scan_of_not_at_start ht h hv
  | succ k ih =>
    rw [List.replicate_succ, List.flatten_cons, List.append_assoc,
      scan_of_selected ht [] _ (h [] _)]
    exact ih

end

end Word

/-! ## Rules -/

namespace Rule

/-- The rule `t/r` with an environment. -/
def ofTextsIn (environment : Pattern) (t r : Word) : Rule :=
  ⟨t.map .literal, r.map .literal, some environment, none, none⟩

/-- The rule with `r` in the place of the texts on both sides of a word edge, one of which has to be
empty. -/
def ofEdge (before after r : Word) : Rule :=
  ⟨before.map .literal ++ .edge :: after.map .literal, r.map .literal, none, none, none⟩

section
variable {t r : Word} (table : CategoryTable)

/-- With one alternative in the environment, the text is replaced where that one holds. -/
theorem replacementAt_ofTextsIn {alt : Alternative} (hne : alt ≠ []) (hbar : .bar ∉ alt)
    {len i : Nat} {w : Word} {p : Prop} [Decidable p]
    (h : Alternative.matchesAround table w i len alt = .ok (decide p)) :
    (ofTextsIn alt t r).replacementAt table len w i = .ok (if p then some r else none) := by
  obtain ⟨s, alt, rfl⟩ := List.exists_cons_of_ne_nil hne
  have halts : Verdict.alternativesOf (some (s :: alt)) = [s :: alt] :=
    List.splitOn_eq_singleton hbar
  have hverdict : (ofTextsIn (s :: alt) t r).verdict (Alternative.matchesAround table w i len) =
      .ok (if p then .change else .keep) := by
    rw [verdict, Verdict.reach]
    simp only [ofTextsIn, halts, List.anyM, h]
    by_cases hp : p <;> simp only [hp] <;> rfl
  rw [replacementAt, hverdict, ofTextsIn, Pattern.text_map_literal]
  by_cases hp : p <;> simp only [hp] <;> rfl

theorem apply_ofTextsIn (environment : Pattern) (w : Word) :
    (ofTextsIn environment t r).apply table w =
      Word.scan t ((ofTextsIn environment t r).replacementAt table t.length) [] w :=
  apply_of_target_eq (r := ofTextsIn environment t r) rfl (Pattern.isText_map_literal r) nofun
    table w

theorem choose_before_end (l x : Word) :
    (ofTextsIn [.locus, .edge] t r).replacementAt table t.length (l ++ (t ++ x)) l.length =
      pure (if x = [] then some r else none) :=
  replacementAt_ofTextsIn table (List.cons_ne_nil _ _) (by decide)
    (Alternative.matchesAround_before_end table l t x)

theorem choose_at_start (l x : Word) :
    (ofTextsIn [.edge, .locus] t r).replacementAt table t.length (l ++ (t ++ x)) l.length =
      pure (if l = [] then some r else none) :=
  replacementAt_ofTextsIn table (List.cons_ne_nil _ _) (by decide)
    (Alternative.matchesAround_at_start table l t x)

theorem apply_ofEdge (before after : Word) (w : Word) :
    (ofEdge before after r).apply table w =
      replaceAtEdge (before.map .literal ++ .edge :: after.map .literal) r w := by
  have hedge (s : Word) : (s.map Symbol.literal).count .edge = 0 :=
    Pattern.edgeCount_of_isText (Pattern.isText_map_literal s)
  have htarget : Pattern.edgeCount (ofEdge before after r).target = 1 := by
    rw [ofEdge, Pattern.edgeCount, List.count_append, List.count_cons_self, hedge, hedge]
  have hcategory : Pattern.mentionsCategory (ofEdge before after r).target = false := by
    simp [ofEdge, Pattern.mentionsCategory, Symbol.isCategory]
  rw [apply_of_edgeCount table w htarget hcategory]
  show changeAtEdge _ (r.map .literal) w = _
  rw [changeAtEdge_of_isText _ (Pattern.isText_map_literal r), Pattern.text_map_literal]
  rfl

/-- A condition on the word edge and a word edge in the target do the same, but for an empty text in
the place of what is in front. -/
theorem apply_beside_edge (ht : t ≠ []) (w : Word) :
    (ofTextsIn [.locus, .edge] t r).apply table w = (ofEdge t [] r).apply table w ∧
      (r ≠ [] →
        (ofTextsIn [.edge, .locus] t r).apply table w = (ofEdge [] t r).apply table w) ∧
      (∃ v, (ofTextsIn [.edge, .locus] t []).apply table w = .ok v ∧ Word.Stripped t w v ∧
        ∀ u, Word.Stripped t w u → u = v) ∧
      ((∃ v, w = t ++ v ∧ (ofEdge [] t []).apply table w = .ok v) ∨
        (¬ t <+: w ∧ (ofEdge [] t []).apply table w = .ok w)) := by
  have hstart (r : Word) :
      (ofEdge [] t r).apply table w = .ok ((t.isPrefixOf? w).elim w (r ++ ·)) := by
    rw [apply_ofEdge, replaceAtEdge_of_after (Pattern.aroundEdge_map_literal [] t) ht]
  have hend : (ofEdge t [] r).apply table w = .ok ((t.isSuffixOf? w).elim w (· ++ r)) := by
    rw [apply_ofEdge, replaceAtEdge_of_before (Pattern.aroundEdge_map_literal t []) ht]
  refine ⟨?_, fun hr => ?_, ?_, ?_⟩
  · rw [hend, apply_ofTextsIn]
    exact Word.scan_before_end ht (choose_before_end table) [] w
  · rw [hstart, apply_ofTextsIn]
    exact Word.scan_at_start ht (choose_at_start table) hr w
  · have hstripped {u : Word} (hu : Word.Stripped t w u) :
        (ofTextsIn [.edge, .locus] t []).apply table w = .ok u := by
      rw [apply_ofTextsIn]
      exact Word.scan_of_stripped ht (choose_at_start table) hu
    obtain ⟨v, hv⟩ := Word.exists_stripped ht w
    refine ⟨v, hstripped hv, hv, fun u hu => ?_⟩
    exact Except.ok.inj ((hstripped hu).symm.trans (hstripped hv))
  · rw [hstart]
    cases hw : t.isPrefixOf? w with
    | some v => exact .inl ⟨v, (List.isPrefixOf?_eq_some_iff_append_eq.mp hw).symm, rfl⟩
    | none => exact .inr ⟨Word.isPrefixOf?_eq_none_iff.mp hw, rfl⟩

/-- Of the five letters of `aaaaa` a rule about `aa` at the beginning takes two, and one whose
condition asks for the beginning takes four. -/
theorem apply_beside_edge_overlapping :
    (ofTextsIn [.locus, .edge] ['a', 'a'] ['b']).apply .empty "aaaaa".toList =
        .ok "aaab".toList ∧
      (ofTextsIn [.edge, .locus] ['a', 'a'] ['b']).apply .empty "aaaaa".toList =
        .ok "baaa".toList ∧
      (ofTextsIn [.edge, .locus] ['a', 'a'] []).apply .empty "aaaaa".toList = .ok ['a'] ∧
      (ofEdge [] ['a', 'a'] []).apply .empty "aaaaa".toList = .ok "aaa".toList := by
  obtain ⟨hend, hstart, ⟨v, hv, -, huniq⟩, -⟩ :=
    apply_beside_edge (t := ['a', 'a']) (r := ['b']) .empty (List.cons_ne_nil _ _) "aaaaa".toList
  refine ⟨hend.trans rfl, (hstart (List.cons_ne_nil _ _)).trans rfl, ?_, rfl⟩
  rw [hv, huniq ['a'] ⟨⟨2, rfl⟩, by decide⟩]

end

end Rule

end SoundChange
