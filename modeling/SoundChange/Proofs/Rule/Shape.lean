import SoundChange.Proofs.Outcome
import SoundChange.Proofs.Pattern
import SoundChange.Rule.Apply

/-!
# Shapes of targets and changes

How a rule is applied is decided by tests that come one after the other, and some of them are made
of the change only after those of the target. For each shape, here is what comes of them.

* `targetShape?_eq_wordEdge_iff`, `targetShape?_of_listsMembers`, `targetShape?_of_isText`: the
  shape of a target by its own test.
* `apply_of_edgeCount`, `apply_of_listsMembers`, `apply_of_isText`: how a rule is applied then.
* `replaceAtEdge_of_bare`, `replaceAtEdge_of_after`, `replaceAtEdge_of_before`,
  `replaceAtEdge_of_sides`: what takes the place of a word, of its beginning and of its end.
* `changeAtEdge_of_isText`, `changeAtEdge_of_affix`, `changeAtEdge_of_not_isLiteralOrEdge`,
  `changeAtEdge_of_edges`: changes at a word edge, by what they are made of.
* `ofPattern_of_listsMembers`, `ofPattern_of_isText`: what takes the place of members.
* `pieceAt_of_not_mem`, `pieceAt_of_idxOf?`: what stands for a character of a word.
* `applyToOccurrences_of_isText`, `applyToMembers_of_isText`: what a search for a text and one for
  members do where the changes are texts.
-/

set_option autoImplicit false

namespace SoundChange

/-! ## Targets -/

namespace Pattern

theorem targetShape?_of_edgeCount {p : Pattern} (he : edgeCount p = 1)
    (hc : mentionsCategory p = false) : targetShape? p = some .wordEdge := by
  simp [targetShape?, he, hc]

theorem targetShape?_eq_wordEdge_iff {p : Pattern} :
    targetShape? p = some .wordEdge ↔ edgeCount p = 1 ∧ mentionsCategory p = false := by
  constructor
  · intro h
    by_contra hne
    rw [targetShape?, if_neg (by simpa using hne)] at h
    split at h
    · cases h
    split at h
    · cases h
    split at h <;> cases h
  · rintro ⟨he, hc⟩
    exact targetShape?_of_edgeCount he hc

theorem targetShape?_of_listsMembers {p : Pattern} (h : listsMembers p = true) :
    targetShape? p = some .members := by
  simp [targetShape?, edgeCount_of_listsMembers h, h]

theorem targetShape?_of_isText {p : Pattern} (h : isText p = true) :
    targetShape? p = some .text := by
  simp [targetShape?, edgeCount_of_isText h, listsMembers_eq_false_of_isText h, h]

theorem targetShape?_of_ne_wordEdge {p : Pattern} (h : targetShape? p ≠ some .wordEdge) :
    targetShape? p =
      if 0 < edgeCount p then none
      else if listsMembers p then some .members
      else if isText p then some .text
      else none := by
  rw [ne_eq, targetShape?_eq_wordEdge_iff] at h
  rw [targetShape?, if_neg (by simpa using h)]

end Pattern

namespace Rule

section
variable {r : Rule} (table : CategoryTable) (w : Word)

theorem apply_of_edgeCount (he : Pattern.edgeCount r.target = 1)
    (hc : Pattern.mentionsCategory r.target = false) : r.apply table w = r.applyAtEdge table w := by
  rw [apply, Pattern.targetShape?_of_edgeCount he hc]

theorem apply_of_listsMembers (h : Pattern.listsMembers r.target = true) :
    r.apply table w = (do
      let members ← Pattern.members table r.target
      r.applyToMembers table members w) := by
  rw [apply, Pattern.targetShape?_of_listsMembers h]

theorem apply_of_isText (h : Pattern.isText r.target = true) :
    r.apply table w = r.applyToOccurrences table (Pattern.text r.target) w := by
  rw [apply, Pattern.targetShape?_of_isText h]

end

end Rule

/-! ## Word edges -/

namespace Word

theorem isPrefixOf?_eq_none_iff {t w : Word} : t.isPrefixOf? w = none ↔ ¬ t <+: w := by
  rw [Option.eq_none_iff_forall_ne_some, ← not_exists]
  exact not_congr (exists_congr fun _ => List.isPrefixOf?_eq_some_iff_append_eq)

theorem isSuffixOf?_eq_none_iff {t w : Word} : t.isSuffixOf? w = none ↔ ¬ t <:+ w := by
  rw [Option.eq_none_iff_forall_ne_some, ← not_exists]
  exact not_congr (exists_congr fun _ => List.isSuffixOf?_eq_some_iff_append_eq)

end Word

namespace Rule

theorem replaceAtEdge_of_bare {target : Pattern} (h : Pattern.aroundEdge target = ([], []))
    (change w : Word) : replaceAtEdge target change w = .ok change := by
  rw [replaceAtEdge, h]
  rfl

theorem replaceAtEdge_of_after {target : Pattern} {after : Word}
    (h : Pattern.aroundEdge target = ([], after)) (hne : after ≠ []) (change w : Word) :
    replaceAtEdge target change w = .ok ((after.isPrefixOf? w).elim w (change ++ ·)) := by
  obtain ⟨c, after, rfl⟩ := List.exists_cons_of_ne_nil hne
  rw [replaceAtEdge, h]
  dsimp only
  cases (c :: after).isPrefixOf? w <;> rfl

theorem replaceAtEdge_of_before {target : Pattern} {before : Word}
    (h : Pattern.aroundEdge target = (before, [])) (hne : before ≠ []) (change w : Word) :
    replaceAtEdge target change w = .ok ((before.isSuffixOf? w).elim w (· ++ change)) := by
  obtain ⟨c, before, rfl⟩ := List.exists_cons_of_ne_nil hne
  rw [replaceAtEdge, h]
  dsimp only
  cases (c :: before).isSuffixOf? w <;> rfl

theorem replaceAtEdge_of_sides {target : Pattern} {before after : Word}
    (h : Pattern.aroundEdge target = (before, after)) (hb : before ≠ []) (ha : after ≠ [])
    (change w : Word) : replaceAtEdge target change w = .error .textOnBothSides := by
  obtain ⟨c, before, rfl⟩ := List.exists_cons_of_ne_nil hb
  obtain ⟨d, after, rfl⟩ := List.exists_cons_of_ne_nil ha
  rw [replaceAtEdge, h]
  rfl

theorem changeAtEdge_of_isText (target : Pattern) {change : Pattern}
    (h : Pattern.isText change = true) (w : Word) :
    changeAtEdge target change w = replaceAtEdge target (Pattern.text change) w := by
  have hall : change.all Symbol.isLiteralOrEdge = true := by
    rw [List.all_eq_true]
    intro t ht
    obtain ⟨c, rfl⟩ := Symbol.isLiteral_iff.mp (Pattern.isLiteral_of_isText h ht)
    rfl
  rw [changeAtEdge, hall, Pattern.edgeCount_of_isText h]
  rfl

theorem changeAtEdge_of_affix (target : Pattern) (front back w : Word) :
    changeAtEdge target (front.map .literal ++ .edge :: back.map .literal) w =
      if target = [.edge] then .ok (front ++ w ++ back) else .error .affixOnMoreThanEdge := by
  have hall : (front.map Symbol.literal ++ Symbol.edge :: back.map Symbol.literal).all
      Symbol.isLiteralOrEdge = true := by
    refine List.all_eq_true.mpr fun t ht => ?_
    simp only [List.mem_append, List.mem_cons, List.mem_map] at ht
    rcases ht with ⟨c, -, rfl⟩ | rfl | ⟨c, -, rfl⟩ <;> rfl
  have hcount : Pattern.edgeCount (front.map .literal ++ .edge :: back.map .literal) = 1 :=
    Pattern.edgeCount_append_edge.mpr ⟨by simp, by simp⟩
  rw [changeAtEdge, hall, hcount, Pattern.aroundEdge_map_literal]
  rfl

theorem changeAtEdge_of_not_isLiteralOrEdge (target : Pattern) {change : Pattern} {t : Symbol}
    (ht : t ∈ change) (h : t.isLiteralOrEdge = false) (w : Word) :
    changeAtEdge target change w = .error .unfitChange := by
  have hall : change.all Symbol.isLiteralOrEdge = false :=
    List.all_eq_false.mpr ⟨t, ht, by simp [h]⟩
  rw [changeAtEdge, hall]
  rfl

theorem changeAtEdge_of_edges (target : Pattern) {change : Pattern}
    (h : 1 < Pattern.edgeCount change) (w : Word) :
    changeAtEdge target change w = .error .unfitChange := by
  rw [changeAtEdge]
  split
  · rfl
  split
  case h_1 hcount => omega
  case h_2 hcount => omega
  case h_3 => rfl

end Rule

/-! ## Changes -/

theorem Substitute.ofPattern_of_listsMembers {table : CategoryTable} {p : Pattern}
    {members : List Word} (h : Pattern.listsMembers p = true)
    (hm : Pattern.members table p = .ok members) :
    ofPattern table p = .ok (memberwise members) := by
  rw [ofPattern, if_pos h, hm]
  rfl

theorem Substitute.ofPattern_of_isText (table : CategoryTable) {p : Pattern}
    (h : Pattern.isText p = true) : ofPattern table p = .ok (uniform (Pattern.text p)) := by
  rw [ofPattern, Pattern.listsMembers_eq_false_of_isText h, if_neg nofun, if_pos h]
  rfl

theorem Pattern.asText_of_isText {p : Pattern} (h : isText p = true) : asText p = .ok (text p) := by
  rw [asText, if_pos h]
  rfl

theorem Pattern.asText_of_isText_eq_false {p : Pattern} (h : isText p = false) :
    asText p = .error .unfitChange := by
  rw [asText, h]
  rfl

namespace Rule

theorem select_map {α β : Type} (f : α → β) (change : α) (elseChange : Option α) (v : Verdict) :
    v.select (f change) (elseChange.map f) = (v.select change elseChange).map f := by
  cases v <;> rfl

/-- What a rule about a text puts in the place of `len` characters from index `i` on. -/
def replacementAt (r : Rule) (table : CategoryTable) (len : Nat) (w : Word) (i : Nat) :
    Except RuleFault (Option Word) :=
  Verdict.select (Pattern.text r.change) (r.elseChange.map Pattern.text) <$>
    r.verdict (Alternative.matchesAround table w i len)

theorem applyToOccurrences_of_isText {r : Rule} (hchange : Pattern.isText r.change = true)
    (helse : ∀ p ∈ r.elseChange, Pattern.isText p = true) (table : CategoryTable)
    (needle w : Word) :
    r.applyToOccurrences table needle w =
      Word.spliceFrom needle (r.replacementAt table needle.length) w 0 := by
  have hother : r.elseChange.mapM Pattern.asText = .ok (r.elseChange.map Pattern.text) := by
    cases h : r.elseChange with
    | none => rfl
    | some p =>
      show some <$> Pattern.asText p = _
      rw [Pattern.asText_of_isText (helse p h)]
      rfl
  rw [applyToOccurrences, Pattern.asText_of_isText hchange, hother]
  rfl

theorem substitutes_of_isText {r : Rule} (hchange : Pattern.isText r.change = true)
    (helse : ∀ p ∈ r.elseChange, Pattern.isText p = true) (table : CategoryTable) :
    r.substitutes table = .ok (.uniform (Pattern.text r.change),
      (r.elseChange.map Pattern.text).map .uniform) := by
  rw [substitutes, Substitute.ofPattern_of_isText table hchange]
  cases h : r.elseChange with
  | none => rfl
  | some p =>
    dsimp only
    rw [Substitute.ofPattern_of_isText table (helse p h)]
    rfl

section
variable (r : Rule) (table : CategoryTable) {members : List Word} {change : Substitute}
  {elseChange : Option Substitute} (w : Word) {c : Char} (i : Nat)

theorem pieceAt_of_not_mem (h : [c] ∉ members) :
    r.pieceAt table members change elseChange w c i = .ok [c] := by
  rw [pieceAt, List.idxOf?_eq_none_iff.mpr h]
  rfl

/-- The piece for a member is what the verdict about its place selects. -/
theorem pieceAt_of_idxOf? {k : Nat} (h : members.idxOf? [c] = some k) :
    r.pieceAt table members change elseChange w c i =
      (fun v : Verdict => (v.select change elseChange).elim [c] (·.forMember k)) <$>
        r.verdict (Alternative.matchesAround table w i 1) := by
  rw [pieceAt, h]
  cases r.verdict (Alternative.matchesAround table w i 1) with
  | error _ => rfl
  | ok v =>
    dsimp only [Functor.map, Except.map, Bind.bind, Except.bind]
    cases v.select change elseChange <;> rfl

end

/-- Where all members have the same substitute, a piece is what a text would be replaced by. -/
theorem pieceAt_uniform (r : Rule) (table : CategoryTable) (members : List Word) (w : Word)
    (c : Char) (i : Nat) :
    r.pieceAt table members (.uniform (Pattern.text r.change))
        ((r.elseChange.map Pattern.text).map .uniform) w c i =
      if [c] ∈ members then (·.getD [c]) <$> r.replacementAt table 1 w i else pure [c] := by
  by_cases hmem : [c] ∈ members
  · obtain ⟨k, hk⟩ := Option.isSome_iff_exists.mp (List.isSome_idxOf?.mpr hmem)
    rw [pieceAt_of_idxOf? r table w i hk, if_pos hmem, replacementAt, Functor.map_map]
    refine map_congr fun v => ?_
    rw [select_map]
    cases v.select (Pattern.text r.change) (r.elseChange.map Pattern.text) <;> rfl
  · rw [pieceAt_of_not_mem r table w i hmem, if_neg hmem]
    rfl

theorem applyToMembers_of_isText {r : Rule} (hchange : Pattern.isText r.change = true)
    (helse : ∀ p ∈ r.elseChange, Pattern.isText p = true) (table : CategoryTable)
    (members : List Word) (w : Word) :
    r.applyToMembers table members w =
      List.flatten <$> w.zipIdx.mapM fun (c, i) =>
        if [c] ∈ members then (·.getD [c]) <$> r.replacementAt table 1 w i else pure [c] := by
  rw [applyToMembers, substitutes_of_isText hchange helse]
  simp only [← pieceAt_uniform]
  rfl

end Rule

end SoundChange
