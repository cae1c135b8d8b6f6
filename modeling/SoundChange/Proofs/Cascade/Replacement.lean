import SoundChange.Proofs.Cascade.Composition
import SoundChange.Proofs.Rule.Replacement
import SoundChange.Proofs.RuleText.Written

/-!
# Rule texts that escape two texts

Any two texts can be written as a rule, with marks in front of their characters. The rule puts the
one in the place of the other.

* `read_escaped_texts`: the rule that is read.
* `apply_of_escaped_texts`: what it makes of a word, for a target that is empty and for any other.
-/

set_option autoImplicit false

namespace SoundChange

namespace RuleText

theorem wellFormed_texts (s t : Word) :
    RuleLine.WellFormed [s.map .literal, t.map .literal] :=
  RuleLine.wellFormed_of_literalOrEdge (List.forall_mem_append.mpr
    ⟨RuleLine.literalOrEdge_map_literal s, RuleLine.literalOrEdge_map_literal t⟩)

theorem write_texts (s t : Word) :
    RuleLine.write [s.map .literal, t.map .literal] =
      RuleLine.escape s ++ '/' :: RuleLine.escape t := by
  simp [RuleLine.write_pair, RuleLine.flatMap_write_map_literal]

theorem not_mem_escape {c : Char} (hc : c ≠ '!') {s : Word} (h : c ∉ s) :
    c ∉ RuleLine.escape s := by
  simp only [RuleLine.escape, List.mem_flatMap, not_exists, not_and]
  intro d hd hm
  simp [hc] at hm
  exact h (hm ▸ hd)

theorem getLast?_append_escape {line t : List Char} {c : Char} (hline : line.getLast? ≠ some c)
    (ht : t.getLast? ≠ some c) : (line ++ RuleLine.escape t).getLast? ≠ some c := by
  rcases List.eq_nil_or_concat' t with rfl | ⟨front, last, rfl⟩
  · simpa [RuleLine.escape] using hline
  · simpa [RuleLine.escape] using ht

theorem read_escaped_texts {s t : Word} (hs : '\n' ∉ s) (ht : '\n' ∉ t)
    (hreturn : t.getLast? ≠ some '\r') :
    read (RuleLine.escape s ++ '/' :: RuleLine.escape t) = .ok [.rule (Rule.ofTexts s t)] := by
  rw [← write_texts]
  refine read_write (wellFormed_texts s t) rfl ?_ ?_
  · rw [write_texts, List.mem_append, List.mem_cons, not_or, not_or]
    exact ⟨not_mem_escape (by decide) hs, by decide, not_mem_escape (by decide) ht⟩
  · rw [write_texts, List.append_cons]
    exact getLast?_append_escape (by simp) hreturn

end RuleText

namespace Cascade

theorem apply_rule_ok {r : Rule} {table : CategoryTable} {w out : Word}
    (h : r.apply table w = .ok out) : apply ⟨table, some [.rule r]⟩ w = .ok out := by
  show Prod.fst <$> runEntries table [(.rule r, 1)] w = .ok out
  rw [runEntries_rule_ok h]
  rfl

/-- A text for the target and one for the change, escaped and with a separator between them, are
one rule, and what it makes of a word is the word with the one in the place of the other. -/
theorem apply_of_escaped_texts (c : Cascade) (s t : Word) (hs : '\n' ∉ s) (ht : '\n' ∉ t)
    (hreturn : t.getLast? ≠ some '\r') :
    ∃ d, c.withRules (RuleLine.escape s ++ '/' :: RuleLine.escape t) = .ok d ∧ d.ruleCount = 1 ∧
      ∀ w, (s = [] → d.apply w = .ok ((w.flatMap fun ch => t ++ [ch]) ++ t)) ∧
        (s ≠ [] → (∃ out, Word.Replaced s t w out) ∧
          ∀ out, Word.Replaced s t w out → d.apply w = .ok out) := by
  refine ⟨_, withRules_eq_ok_iff.mpr ⟨_, RuleText.read_escaped_texts hs ht hreturn, rfl⟩, rfl,
    fun w => ⟨?_, fun hne => ⟨Word.exists_replaced hne t w, fun out hout => ?_⟩⟩⟩
  · rintro rfl
    refine apply_rule_ok ?_
    rw [Rule.apply_ofTexts, Word.scan_nil_needle]
    rfl
  · refine apply_rule_ok ?_
    rw [Rule.apply_ofTexts, Word.scan_of_replaced hne hout]
    rfl

/-- Occurrences that overlap one found before, and what a replacement brings in, are left alone. -/
theorem apply_of_escaped_marks :
    ∃ d, withRules {} (RuleLine.escape "#,#".toList ++ '/' :: RuleLine.escape "#,#A".toList) =
        .ok d ∧
      d.apply "#,#,#,#".toList = .ok "#,#A,#,#A".toList := by
  obtain ⟨d, hd, -, h⟩ := apply_of_escaped_texts {} "#,#".toList "#,#A".toList
    (by decide) (by decide) (by decide)
  have hout : Word.Replaced "#,#".toList "#,#A".toList "#,#,#,#".toList "#,#A,#,#A".toList :=
    .leftmost [] nofun (.leftmost [','] (by decide) (.none (by decide)))
  exact ⟨d, hd, ((h _).2 (by decide)).2 _ hout⟩

end Cascade

end SoundChange
