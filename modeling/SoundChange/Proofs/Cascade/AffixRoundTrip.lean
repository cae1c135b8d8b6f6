import SoundChange.Proofs.Cascade.Entries
import SoundChange.Proofs.Cascade.Replacement
import SoundChange.Proofs.Rule.Affix
import SoundChange.Proofs.Rule.WordEdge

/-!
# Affixes that are added and taken off again

A rule that adds a prefix and a suffix, one that takes the prefix off and one that takes off the
suffix lead every word back to itself. Each of them finds its affix where the rules before it left
it, so that it does not count what else the word begins or ends with.

* `apply_ofAffixes`, `apply_ofEdge_prefix`, `apply_ofEdge_suffix`: the three rules.
* `read_affixRoundTrip`: the text of their lines.
* `run_of_affixes_taken_off`: a word and its steps.
-/

set_option autoImplicit false

namespace SoundChange

/-! ## Rules -/

namespace Rule

/-- The rule `#/front#back`. -/
def ofAffixes (front back : Word) : Rule :=
  ⟨[.edge], front.map .literal ++ .edge :: back.map .literal, none, none, none⟩

section
variable (table : CategoryTable)

theorem apply_ofAffixes (front back w : Word) :
    (ofAffixes front back).apply table w = .ok (front ++ w ++ back) := by
  show changeAtEdge [.edge] (front.map .literal ++ .edge :: back.map .literal) w = _
  rw [changeAtEdge_of_affix, if_pos rfl]

theorem apply_ofEdge_prefix {t : Word} (ht : t ≠ []) (r w : Word) :
    (ofEdge [] t r).apply table (t ++ w) = .ok (r ++ w) := by
  rw [apply_ofEdge, replaceAtEdge_of_after (Pattern.aroundEdge_map_literal [] t) ht,
    List.isPrefixOf?_eq_some_iff_append_eq.mpr rfl]
  rfl

theorem apply_ofEdge_suffix {t : Word} (ht : t ≠ []) (r w : Word) :
    (ofEdge t [] r).apply table (w ++ t) = .ok (w ++ r) := by
  rw [apply_ofEdge, replaceAtEdge_of_before (Pattern.aroundEdge_map_literal t []) ht,
    List.isSuffixOf?_eq_some_iff_append_eq.mpr rfl]
  rfl

end

end Rule

/-! ## Texts -/

namespace RuleText

/-- The lines `#/p#q`, `#p/` and `q#/`, with all characters of the affixes escaped. -/
def affixRoundTrip (p q : Word) : List (List Char) :=
  [['#', '/'] ++ RuleLine.escape p ++ ['#'] ++ RuleLine.escape q,
    ['#'] ++ RuleLine.escape p ++ ['/'],
    RuleLine.escape q ++ ['#', '/']]

theorem readLine_affixRoundTrip (p q : Word) :
    List.Forall₂ (fun line entry => readLine line = .ok entry) (affixRoundTrip p q)
      [.rule (Rule.ofAffixes p q), .rule (Rule.ofEdge [] p []), .rule (Rule.ofEdge q [] [])] := by
  have hp := RuleLine.literalOrEdge_map_literal p
  have hq := RuleLine.literalOrEdge_map_literal q
  have hadd := readLine_pair [.edge] (p.map .literal ++ .edge :: q.map .literal)
    (List.forall_mem_append.mpr ⟨List.forall_mem_singleton.mpr rfl,
      List.forall_mem_append.mpr ⟨hp, List.forall_mem_cons.mpr ⟨rfl, hq⟩⟩⟩)
  have hfront := readLine_pair (.edge :: p.map .literal) []
    (List.forall_mem_append.mpr ⟨List.forall_mem_cons.mpr ⟨rfl, hp⟩, List.forall_mem_nil _⟩)
  have hback := readLine_pair (q.map .literal ++ [.edge]) []
    (List.forall_mem_append.mpr ⟨List.forall_mem_append.mpr
      ⟨hq, List.forall_mem_singleton.mpr rfl⟩, List.forall_mem_nil _⟩)
  simp only [List.flatMap_append, List.flatMap_cons, List.flatMap_nil, Symbol.write,
    RuleLine.flatMap_write_map_literal] at hadd hfront hback
  refine .cons ?_ (.cons ?_ (.cons ?_ .nil))
  · simpa [Rule.ofAffixes] using hadd
  · simpa [Rule.ofEdge] using hfront
  · simpa [Rule.ofEdge] using hback

theorem read_affixRoundTrip {p q : Word} (hp : '\n' ∉ p) (hq : '\n' ∉ q)
    (hreturn : q.getLast? ≠ some '\r') :
    read (['\n'].intercalate (affixRoundTrip p q)) =
      .ok [.rule (Rule.ofAffixes p q), .rule (Rule.ofEdge [] p []),
        .rule (Rule.ofEdge q [] [])] := by
  have hp := not_mem_escape (c := '\n') (by decide) hp
  have hq := not_mem_escape (c := '\n') (by decide) hq
  have hfeed : ∀ line ∈ affixRoundTrip p q, '\n' ∉ line := by simp [affixRoundTrip, hp, hq]
  have hlast : ∀ line ∈ affixRoundTrip p q, line.getLast? ≠ some '\r' := by
    simp only [affixRoundTrip, List.forall_mem_cons]
    refine ⟨getLast?_append_escape ?_ hreturn, ?_, ?_, nofun⟩
    · rw [List.getLast?_concat]
      decide
    · rw [List.getLast?_concat]
      decide
    · simp
  have hne : affixRoundTrip p q ≠ [] := List.cons_ne_nil _ _
  rw [read_eq_ok_iff_forall₂, Text.ruleLines_intercalate hne hfeed hlast]
  exact readLine_affixRoundTrip p q

end RuleText

/-! ## Runs -/

theorem runEntries_rule_changed {table : CategoryTable} {r : Rule} {w next : Word}
    (h : r.apply table w = .ok next) (hne : next ≠ w) (line : Nat)
    (entries : List (RuleText.Entry × Nat)) :
    runEntries table ((.rule r, line) :: entries) w =
      (fun run => (run.1, ⟨line, w, next⟩ :: run.2)) <$> runEntries table entries next := by
  rw [runEntries_rule_ok h]
  exact map_congr fun run => by rw [recordStep, if_neg hne]

namespace Cascade

/-- The rules that add two affixes and take them off again, with all characters of the affixes
escaped, can be read, and lead every word in three steps back to itself. -/
theorem run_of_affixes_taken_off (c : Cascade) {p q : Word} (hp : p ≠ []) (hq : q ≠ [])
    (hpfeed : '\n' ∉ p) (hqfeed : '\n' ∉ q) (hreturn : q.getLast? ≠ some '\r') :
    ∃ d, c.withRules (['\n'].intercalate (RuleText.affixRoundTrip p q)) = .ok d ∧
      ∀ w, d.apply w = .ok w ∧ d.steps w =
        .ok [⟨1, w, p ++ w ++ q⟩, ⟨2, p ++ w ++ q, w ++ q⟩, ⟨3, w ++ q, w⟩] := by
  have hread := RuleText.read_affixRoundTrip hpfeed hqfeed hreturn
  refine ⟨_, withRules_eq_ok_iff.mpr ⟨_, hread, rfl⟩, fun w => ?_⟩
  have hadd := Rule.apply_ofAffixes c.table p q w
  have hfront : (Rule.ofEdge [] p []).apply c.table (p ++ w ++ q) = .ok (w ++ q) := by
    rw [List.append_assoc]
    exact Rule.apply_ofEdge_prefix c.table hp [] (w ++ q)
  have hback : (Rule.ofEdge q [] []).apply c.table (w ++ q) = .ok w := by
    rw [Rule.apply_ofEdge_suffix c.table hq, List.append_nil]
  have hne {u v : Word} (h : u.length ≠ v.length) : u ≠ v := fun he => h (congrArg List.length he)
  have hlonger : p ++ w ++ q ≠ w ∧ w ++ q ≠ p ++ w ++ q ∧ w ≠ w ++ q := by
    have := List.length_pos_iff.mpr hp
    have := List.length_pos_iff.mpr hq
    simp only [List.append_assoc]
    exact ⟨hne (by simp; omega), hne (by simp; omega), hne (by simp; omega)⟩
  have hrun : runEntries c.table
      [(.rule (Rule.ofAffixes p q), 1), (.rule (Rule.ofEdge [] p []), 2),
        (.rule (Rule.ofEdge q [] []), 3)] w =
      .ok (w, [⟨1, w, p ++ w ++ q⟩, ⟨2, p ++ w ++ q, w ++ q⟩, ⟨3, w ++ q, w⟩]) := by
    rw [runEntries_rule_changed hadd hlonger.1, runEntries_rule_changed hfront hlonger.2.1,
      runEntries_rule_changed hback hlonger.2.2]
    rfl
  exact ⟨congrArg (Prod.fst <$> ·) hrun, congrArg (Prod.snd <$> ·) hrun⟩

/-- The word begins with the prefix and ends with the suffix already, and they overlap in it. -/
theorem run_of_affixes_taken_off_overlapping :
    ∃ d, withRules {} "#/!#!A#!A!#\n#!#!A/\n!A!##/".toList = .ok d ∧
      d.apply "#A#".toList = .ok "#A#".toList ∧
      d.steps "#A#".toList = .ok [⟨1, "#A#".toList, "#A#A#A#".toList⟩,
        ⟨2, "#A#A#A#".toList, "#A#A#".toList⟩, ⟨3, "#A#A#".toList, "#A#".toList⟩] := by
  obtain ⟨d, hd, h⟩ := run_of_affixes_taken_off {} (p := "#A".toList) (q := "A#".toList)
    (by decide) (by decide) (by decide) (by decide) (by decide)
  exact ⟨d, hd, h "#A#".toList⟩

end Cascade

end SoundChange
