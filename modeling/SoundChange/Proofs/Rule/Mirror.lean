import SoundChange.Proofs.Condition.Mirror
import SoundChange.Proofs.Rule.Validity

/-!
# Rules from right to left

The mirror image of a rule (`Rule.mirrored`) has its alternatives, changes and members reversed. It
does to reversed words, under the mirrored table, what the rule does to words (`MirrorImage`): what
is a leading context, a prefix or a beginning for one is a trailing context, a suffix or an end for
the other. This holds for rules about word edges and about categories, which look at all of a word
at once. Rules about texts have no such image: they change the word on the way from left to right.

* `verdict_mirrored`: conditions whose alternatives are tried from right to left.
* `applyAtEdge_mirrored`, `applyToMembers_mirrored`: the two ways to apply a rule.
* `apply_mirrored`: rules.
-/

set_option autoImplicit false

namespace SoundChange

/-! ## Outcomes -/

/-- One outcome is the other from right to left: a word and the reversed word, or two faults. -/
def MirrorImage {ε : Type} (x y : Except ε Word) : Prop :=
  ∀ out, x = .ok out ↔ y = .ok out.reverse

section
variable {ε : Type} {x y : Except ε Word}

theorem mirrorImage_error (e e' : ε) : MirrorImage (.error e) (.error e') :=
  fun _ => iff_of_false nofun nofun

theorem mirrorImage_map (x : Except ε Word) : MirrorImage x (List.reverse <$> x) := by
  intro out
  rw [map_eq_ok_iff]
  constructor
  · exact fun h => ⟨out, h, rfl⟩
  · rintro ⟨out', h, hrev⟩
    rw [h, List.reverse_injective hrev]

theorem MirrorImage.error_iff (h : MirrorImage x y) :
    (∃ e, x = .error e) ↔ ∃ e, y = .error e := by
  cases x with
  | ok out =>
    rw [(h out).mp rfl]
    exact iff_of_false nofun nofun
  | error e =>
    cases y with
    | ok out => cases (h out.reverse).mpr (by rw [List.reverse_reverse])
    | error e' => exact iff_of_true ⟨e, rfl⟩ ⟨e', rfl⟩

end

/-! ## Reversed words -/

namespace Word

theorem isSuffixOf?_reverse (part w : Word) :
    part.reverse.isSuffixOf? w.reverse = (part.isPrefixOf? w).map List.reverse := by
  rw [List.isSuffixOf?, List.reverse_reverse, List.reverse_reverse]

theorem isPrefixOf?_reverse (part w : Word) :
    part.reverse.isPrefixOf? w.reverse = (part.isSuffixOf? w).map List.reverse := by
  rw [← List.reverse_reverse part, ← List.reverse_reverse w, isSuffixOf?_reverse, Option.map_map]
  simp

theorem zipIdx_reverse (w : Word) :
    w.reverse.zipIdx = (w.zipIdx.map fun q => (q.1, w.length - 1 - q.2)).reverse := by
  refine List.ext_getElem (by simp) fun i hi _ => ?_
  rw [List.length_zipIdx, List.length_reverse] at hi
  simp
  omega

theorem exists_append_of_mem_zipIdx {w : Word} {q : Char × Nat} (h : q ∈ w.zipIdx) :
    ∃ l t, w = l ++ [q.1] ++ t ∧ q.2 = l.length ∧ w.length - 1 - q.2 = t.length := by
  obtain ⟨hi, hc⟩ := List.getElem?_eq_some_iff.mp (List.mem_zipIdx_iff_getElem?.mp h)
  refine ⟨w.take q.2, w.drop (q.2 + 1), ?_, ?_, ?_⟩
  · rw [← hc, List.append_assoc, List.singleton_append, List.getElem_cons_drop,
      List.take_append_drop]
  · rw [List.length_take_of_le (Nat.le_of_lt hi)]
  · rw [List.length_drop]
    omega

/-- A character is looked for among the reversed members as among the members. -/
theorem idxOf?_map_reverse (members : List Word) (c : Char) :
    (members.map List.reverse).idxOf? [c] = members.idxOf? [c] := by
  induction members with
  | nil => rfl
  | cons member members ih =>
    have heq : (member.reverse == [c]) = (member == [c]) := by
      rw [Bool.eq_iff_iff, beq_iff_eq, beq_iff_eq, List.reverse_eq_iff, List.reverse_singleton]
    rw [List.map_cons, List.idxOf?_cons, List.idxOf?_cons, ih, heq]

end Word

/-! ## Substitutes -/

namespace Substitute

/-- What is put in the place of members, reversed. -/
def mirrored : Substitute → Substitute
  | memberwise members => memberwise (members.map List.reverse)
  | uniform text => uniform text.reverse

theorem forMember_mirrored (s : Substitute) (i : Nat) :
    s.mirrored.forMember i = (s.forMember i).reverse := by
  cases s with
  | memberwise members =>
    rw [mirrored, forMember, forMember, List.getD_eq_getElem?_getD, List.getD_eq_getElem?_getD,
      List.getElem?_map]
    cases members[i]? <;> rfl
  | uniform text => rfl

theorem alike_mirrored (s t : Substitute) : s.mirrored.alike t.mirrored = s.alike t := by
  cases s <;> cases t <;> rfl

theorem ofPattern_mirrored (table : CategoryTable) (p : Pattern) :
    ofPattern table.mirrored (Pattern.reverseBetween .comma p) =
      mirrored <$> ofPattern table p := by
  rw [ofPattern, ofPattern, Pattern.listsMembers_reverseBetween, Pattern.isText_reverseBetween,
    Pattern.members_mirrored]
  split
  case isTrue => cases Pattern.members table p <;> rfl
  case isFalse =>
    split
    case isTrue ht =>
      rw [Pattern.text_reverseBetween_of_isText ht]
      rfl
    case isFalse => rfl

end Substitute

namespace Rule

/-- The rule from right to left: its alternatives and the members of its categories stay in their
order, and each of them is reversed; other changes and a target with a word edge are reversed as a
whole. -/
def mirrored (r : Rule) : Rule where
  target :=
    if Pattern.targetShape? r.target = some .wordEdge then r.target.reverse
    else Pattern.reverseBetween .comma r.target
  change := Pattern.reverseBetween .comma r.change
  environment := r.environment.map (Pattern.reverseBetween .bar)
  exception := r.exception.map (Pattern.reverseBetween .bar)
  elseChange := r.elseChange.map (Pattern.reverseBetween .comma)

/-- The conditions that have a mirror image: at most one locus to an alternative, and no category
that the table lacks. -/
def ConditionsMirrorIn (table : CategoryTable) (r : Rule) : Prop :=
  ∀ p ∈ r.conditions, ∀ alt ∈ Pattern.alternatives p,
    alt.count .locus ≤ 1 ∧ ∀ t ∈ alt, Symbol.isDefinedIn table t = true

section
variable {table : CategoryTable} {r : Rule}

/-! ## Verdicts -/

theorem alternativesOf_mirrored (o : Option Pattern) :
    Verdict.alternativesOf (o.map (Pattern.reverseBetween .bar)) =
      (Verdict.alternativesOf o).map List.reverse := by
  match o with
  | none => rfl
  | some [] => rfl
  | some (t :: ts) =>
    have hne : Pattern.reverseBetween .bar (t :: ts) ≠ [] := by simp
    obtain ⟨s, ss, hs⟩ := List.exists_cons_of_ne_nil hne
    rw [Option.map_some, hs, Verdict.alternativesOf, Verdict.alternativesOf, ← hs]
    exact Pattern.alternatives_reverseBetween (t :: ts)

theorem map_reverseBetween_eq_some_nil_iff {mark : Symbol} {o : Option Pattern} :
    o.map (Pattern.reverseBetween mark) = some [] ↔ o = some [] := by
  cases o <;> simp

theorem verdict_mirrored {holds holds' : Alternative → Except RuleFault Bool}
    (h : ∀ p ∈ r.conditions, ∀ alt ∈ Pattern.alternatives p, holds' alt.reverse = holds alt) :
    r.mirrored.verdict holds' = r.verdict holds := by
  rw [conditions, List.forall_mem_append] at h
  obtain ⟨henvironment, hexception⟩ := h
  have hexc := anyM_map_of_forall (forall_mem_alternativesOf hexception)
  have henv := anyM_map_of_forall (forall_mem_alternativesOf henvironment)
  simp only [verdict, Verdict.reach, mirrored, alternativesOf_mirrored, hexc,
    Verdict.ofNoEnvironment, Verdict.ofFailedEnvironment, map_reverseBetween_eq_some_nil_iff]
  refine bind_congr fun b => ?_
  cases halts : Verdict.alternativesOf r.environment with
  | nil => rfl
  | cons alt alts =>
    rw [halts] at henv
    rw [List.map_cons] at henv ⊢
    simp only [henv]

/-! ## Word edges -/

theorem replaceAtEdge_mirrored {target : Pattern} (h : Pattern.edgeCount target = 1)
    (change w : Word) :
    replaceAtEdge target.reverse change.reverse w.reverse =
      List.reverse <$> replaceAtEdge target change w := by
  have hrev := Pattern.aroundEdge_reverse h
  cases haround : Pattern.aroundEdge target with | mk before after
  rw [haround] at hrev
  by_cases hb : before = [] <;> by_cases ha : after = []
  · subst hb ha
    rw [replaceAtEdge_of_bare haround, replaceAtEdge_of_bare hrev]
    rfl
  · subst hb
    rw [replaceAtEdge_of_after haround ha,
      replaceAtEdge_of_before hrev (by simpa using ha), Word.isSuffixOf?_reverse]
    cases after.isPrefixOf? w with
    | none => rfl
    | some rest => exact congrArg Except.ok List.reverse_append.symm
  · subst ha
    rw [replaceAtEdge_of_before haround hb,
      replaceAtEdge_of_after hrev (by simpa using hb), Word.isPrefixOf?_reverse]
    cases before.isSuffixOf? w with
    | none => rfl
    | some rest => exact congrArg Except.ok List.reverse_append.symm
  · rw [replaceAtEdge_of_sides haround hb ha,
      replaceAtEdge_of_sides hrev (by simpa using ha) (by simpa using hb)]
    rfl

theorem changeAtEdge_mirrored {target : Pattern} (h : Pattern.edgeCount target = 1)
    (change : Pattern) (w : Word) :
    changeAtEdge target.reverse (Pattern.reverseBetween .comma change) w.reverse =
      List.reverse <$> changeAtEdge target change w := by
  rw [changeAtEdge, changeAtEdge, (Pattern.reverseBetween_perm .comma change).all_eq]
  split
  case isTrue => rfl
  case isFalse hall =>
    have hcomma : .comma ∉ change := fun hc => by
      simp only [Bool.not_eq_true', Bool.not_eq_false, List.all_eq_true] at hall
      cases hall _ hc
    rw [Pattern.reverseBetween_of_not_mem hcomma, Pattern.edgeCount_reverse,
      Pattern.text_reverse]
    split
    case h_1 => exact replaceAtEdge_mirrored h _ w
    case h_2 hone =>
      simp only [List.reverse_eq_iff, List.reverse_singleton]
      split
      case isTrue =>
        rw [Pattern.aroundEdge_reverse hone]
        simp [Functor.map, Except.map, pure, Except.pure]
      case isFalse => rfl
    case h_3 => rfl

theorem applyAtEdge_mirrored (hshape : Pattern.targetShape? r.target = some .wordEdge)
    (hedge : Pattern.edgeCount r.target = 1) (hcond : r.ConditionsMirrorIn table) (w : Word) :
    r.mirrored.applyAtEdge table.mirrored w.reverse =
      List.reverse <$> r.applyAtEdge table w := by
  have hverdict : r.mirrored.verdict (Alternative.matchesInWord table.mirrored w.reverse) =
      r.verdict (Alternative.matchesInWord table w) :=
    verdict_mirrored fun p hp alt halt =>
      Alternative.matchesInWord_mirrored (hcond p hp alt halt).2 w
  rw [applyAtEdge, applyAtEdge, hverdict, map_bind]
  refine bind_congr fun v => ?_
  have hselect : v.select r.mirrored.change r.mirrored.elseChange =
      (v.select r.change r.elseChange).map (Pattern.reverseBetween .comma) :=
    select_map (Pattern.reverseBetween .comma) r.change r.elseChange v
  have htarget : r.mirrored.target = r.target.reverse := if_pos hshape
  rw [hselect, htarget]
  cases v.select r.change r.elseChange with
  | none => rfl
  | some change => exact changeAtEdge_mirrored hedge change w

/-! ## Categories -/

theorem substitutes_mirrored (r : Rule) (table : CategoryTable) :
    r.mirrored.substitutes table.mirrored =
      Prod.map Substitute.mirrored (Option.map Substitute.mirrored) <$> r.substitutes table := by
  rw [substitutes, substitutes, mirrored, Substitute.ofPattern_mirrored]
  cases Substitute.ofPattern table r.change with
  | error _ => rfl
  | ok change =>
    cases r.elseChange with
    | none => rfl
    | some p =>
      dsimp only [Option.map_some]
      rw [Substitute.ofPattern_mirrored]
      cases Substitute.ofPattern table p with
      | error _ => rfl
      | ok other =>
        show (if change.mirrored.alike other.mirrored then _ else _) = _
        rw [Substitute.alike_mirrored]
        show _ = Prod.map _ _ <$> (if change.alike other then _ else _)
        split <;> rfl

theorem pieceAt_mirrored (hcond : r.ConditionsMirrorIn table) (members : List Word)
    (change : Substitute) (elseChange : Option Substitute) (l : Word) (c : Char) (t : Word) :
    r.mirrored.pieceAt table.mirrored (members.map List.reverse) change.mirrored
        (elseChange.map Substitute.mirrored) (l ++ [c] ++ t).reverse c t.length =
      List.reverse <$> r.pieceAt table members change elseChange (l ++ [c] ++ t) c l.length := by
  rw [pieceAt, pieceAt, Word.idxOf?_map_reverse]
  cases members.idxOf? [c] with
  | none => rfl
  | some k =>
    have hverdict :
        r.mirrored.verdict
            (Alternative.matchesAround table.mirrored (l ++ [c] ++ t).reverse t.length 1) =
          r.verdict (Alternative.matchesAround table (l ++ [c] ++ t) l.length 1) :=
      verdict_mirrored fun p hp alt halt =>
        Alternative.matchesAround_mirrored (hcond p hp alt halt).1 (hcond p hp alt halt).2 l [c] t
    dsimp only
    rw [hverdict, map_bind]
    refine bind_congr fun v => ?_
    rw [select_map]
    cases v.select change elseChange with
    | none => rfl
    | some s =>
      exact congrArg Except.ok (Substitute.forMember_mirrored s k)

/-- The pieces of a word, reversed and from the last to the first, are those of the reversed
word. -/
theorem mapM_pieceAt_mirrored (hcond : r.ConditionsMirrorIn table) (members : List Word)
    (change : Substitute) (elseChange : Option Substitute) (w : Word) (pieces : List Word) :
    w.reverse.zipIdx.mapM (fun (c, i) => r.mirrored.pieceAt table.mirrored
        (members.map List.reverse) change.mirrored (elseChange.map Substitute.mirrored)
        w.reverse c i) = .ok (pieces.map List.reverse).reverse ↔
      w.zipIdx.mapM (fun (c, i) => r.pieceAt table members change elseChange w c i) =
        .ok pieces := by
  rw [Word.zipIdx_reverse, mapM_reverse_eq_ok_iff, mapM_map_of_forall fun q hq => ?_, map_eq_ok_iff]
  · constructor
    · rintro ⟨pieces', h, hrev⟩
      rw [h, List.map_injective_iff.mpr List.reverse_injective hrev]
    · exact fun h => ⟨pieces, h, rfl⟩
  · obtain ⟨l, t, hw, hl, ht⟩ := Word.exists_append_of_mem_zipIdx hq
    dsimp only
    rw [ht, hl, hw]
    exact pieceAt_mirrored hcond members change elseChange l q.1 t

theorem applyToMembers_mirrored (hcond : r.ConditionsMirrorIn table) (members : List Word)
    (w : Word) :
    MirrorImage (r.applyToMembers table members w)
      (r.mirrored.applyToMembers table.mirrored (members.map List.reverse) w.reverse) := by
  rw [applyToMembers, applyToMembers, substitutes_mirrored]
  cases r.substitutes table with
  | error e => exact mirrorImage_error e e
  | ok s =>
    obtain ⟨change, elseChange⟩ := s
    have hsurj : Function.Surjective fun pieces : List Word =>
        (pieces.map List.reverse).reverse := by
      refine Function.Involutive.surjective fun pieces => ?_
      simp [List.map_reverse]
    -- a traversal stops at the first fault it meets, so that only whole ones are compared
    intro out
    show (w.zipIdx.mapM _ >>= _) = Except.ok _ ↔ (w.reverse.zipIdx.mapM _ >>= _) = Except.ok _
    rw [bind_eq_ok_iff, bind_eq_ok_iff]
    refine Iff.trans (exists_congr fun pieces => ?_) hsurj.exists.symm
    refine and_congr (mapM_pieceAt_mirrored hcond members change elseChange w pieces).symm ?_
    rw [pure_eq_ok_iff, pure_eq_ok_iff, ← List.reverse_flatten, List.reverse_inj]

/-! ## All rules -/

/-- A rule about a word edge or about a category does to a word what its mirror image does to the
reversed word under the mirrored table. -/
theorem apply_mirrored (r : Rule) (table : CategoryTable)
    (hshape : Pattern.listsMembers r.target = true ∨
      Pattern.edgeCount r.target = 1 ∧ Pattern.mentionsCategory r.target = false)
    (hcond : r.ConditionsMirrorIn table) (w : Word) :
    (∀ out, r.apply table w = .ok out ↔
        r.mirrored.apply table.mirrored w.reverse = .ok out.reverse) ∧
      ((∃ fault, r.apply table w = .error fault) ↔
        ∃ fault, r.mirrored.apply table.mirrored w.reverse = .error fault) := by
  suffices h : MirrorImage (r.apply table w) (r.mirrored.apply table.mirrored w.reverse) from
    ⟨h, h.error_iff⟩
  rcases hshape with hm | ⟨he, hc⟩
  · have hmembers : Pattern.targetShape? r.target = some .members :=
      Pattern.targetShape?_of_listsMembers hm
    have htarget : r.mirrored.target = Pattern.reverseBetween .comma r.target :=
      if_neg (by simp [hmembers])
    have hmirrored : Pattern.targetShape? r.mirrored.target = some .members := by
      refine Pattern.targetShape?_of_listsMembers ?_
      rw [htarget, Pattern.listsMembers_reverseBetween, hm]
    rw [apply, apply, hmembers, hmirrored, htarget]
    dsimp only
    rw [Pattern.members_mirrored]
    cases Pattern.members table r.target with
    | error e => exact mirrorImage_error e e
    | ok members => exact applyToMembers_mirrored hcond members w
  · have hedge := Pattern.targetShape?_of_edgeCount he hc
    have hmirrored : Pattern.targetShape? r.mirrored.target = some .wordEdge := by
      rw [mirrored, if_pos hedge]
      refine Pattern.targetShape?_of_edgeCount (by rw [Pattern.edgeCount_reverse, he]) ?_
      rw [← hc, Pattern.mentionsCategory, Pattern.mentionsCategory, List.any_reverse]
    rw [apply, apply, hedge, hmirrored]
    dsimp only
    rw [applyAtEdge_mirrored hedge he hcond]
    exact mirrorImage_map _

end

instance (table : CategoryTable) (r : Rule) : Decidable (r.ConditionsMirrorIn table) :=
  inferInstanceAs (Decidable (∀ p ∈ r.conditions, ∀ alt ∈ Pattern.alternatives p, _ ∧ ∀ t ∈ alt, _))

/-- The rule `p,t/b,dh/#V_|_VC#/_k/x,ks`. -/
def voicedStop : Rule where
  target := [.literal 'p', .comma, .literal 't']
  change := [.literal 'b', .comma, .literal 'd', .literal 'h']
  environment := some [.edge, .category 'V', .locus, .bar, .locus, .category 'V', .category 'C',
    .edge]
  exception := some [.locus, .literal 'k']
  elseChange := some [.literal 'x', .comma, .literal 'k', .literal 's']

/-- The categories `V=a,e,ai` and `C=k,s,ts`. -/
def syllableTable : CategoryTable :=
  .ofList [('V', [['a'], ['e'], ['a', 'i']]), ('C', [['k'], ['s'], ['t', 's']])]

/-- The rule `#/re#s/#p|Vk#`. -/
def circumfix : Rule where
  target := [.edge]
  change := [.literal 'r', .literal 'e', .edge, .literal 's']
  environment := some [.edge, .literal 'p', .bar, .category 'V', .literal 'k', .edge]
  exception := none
  elseChange := none

/-- Of the stops in `atapkptek` the first one is behind an initial vowel, the second one before `k`
and the fourth one before the end; in the mirror image they are before a final vowel, behind `k`
and behind the beginning. A word that ends in `ak` becomes one that begins with `ka`, and prefix
and suffix change sides. -/
theorem apply_voicedStop_and_circumfix :
    (voicedStop.apply syllableTable "atapkptek".toList = .ok "adhaxkpdhek".toList ∧
      voicedStop.mirrored.apply syllableTable.mirrored "ketpkpata".toList =
        .ok "kehdpkxahda".toList) ∧
    circumfix.apply syllableTable "tak".toList = .ok "retaks".toList ∧
      circumfix.mirrored.apply syllableTable.mirrored "kat".toList = .ok "skater".toList := by
  have hstop : voicedStop.apply syllableTable "atapkptek".toList = .ok "adhaxkpdhek".toList := rfl
  have haffix : circumfix.apply syllableTable "tak".toList = .ok "retaks".toList := rfl
  have hstops := apply_mirrored voicedStop syllableTable (by decide) (by decide)
    "atapkptek".toList
  have haffixes := apply_mirrored circumfix syllableTable (by decide) (by decide) "tak".toList
  exact ⟨⟨hstop, (hstops.1 _).mp hstop⟩, haffix, (haffixes.1 _).mp haffix⟩

end Rule

end SoundChange
