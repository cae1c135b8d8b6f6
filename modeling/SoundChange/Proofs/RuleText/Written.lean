import SoundChange.Proofs.RuleLine.Signs
import SoundChange.RuleText

/-!
# Rule texts of written lines

A line that escapes all its literals is read back as the patterns it was written for, and as a rule
if there are at least two of them.

* `ruleLines_intercalate`: lines that are written one below the other.
* `readLine_write`, `readLine_pair`: the entry of a written line, and of one with two patterns.
* `read_write`: the rule text that is such a line.
-/

set_option autoImplicit false

namespace SoundChange

/-- Lines that are written one below the other are the lines of the text. -/
theorem Text.ruleLines_intercalate {lines : List (List Char)} (hne : lines ≠ [])
    (hfeed : ∀ line ∈ lines, '\n' ∉ line) (hreturn : ∀ line ∈ lines, line.getLast? ≠ some '\r') :
    ruleLines (['\n'].intercalate lines) = lines := by
  have hdrop : ∀ line ∈ lines, dropReturn line = line := fun line hline =>
    if_neg (hreturn line hline)
  rw [ruleLines, List.splitOn_intercalate '\n' hfeed hne, List.map_congr_left hdrop, List.map_id']

theorem Text.ruleLines_eq_singleton {text : List Char} (hfeed : '\n' ∉ text)
    (hreturn : text.getLast? ≠ some '\r') : ruleLines text = [text] := by
  have h := ruleLines_intercalate (List.cons_ne_nil text []) (List.forall_mem_singleton.mpr hfeed)
    (List.forall_mem_singleton.mpr hreturn)
  rwa [List.intercalate_singleton] at h

namespace RuleLine

theorem literalOrEdge_map_literal (w : Word) :
    ∀ t ∈ w.map Symbol.literal, Symbol.isLiteralOrEdge t = true :=
  List.forall_mem_map.mpr fun _ _ => rfl

theorem wellFormed_of_literalOrEdge {target change : Pattern}
    (h : ∀ t ∈ target ++ change, Symbol.isLiteralOrEdge t = true) :
    WellFormed [target, change] := by
  have hnot {t : Symbol} (ht : t.isLiteralOrEdge = false) : t ∉ target ++ change := fun hm =>
    Bool.noConfusion (ht.symm.trans (h t hm))
  have hfits : ∀ p : Pattern, p ⊆ target ++ change → p.FitsOther := fun p hp =>
    ⟨fun hm => hnot rfl (hp hm), fun hm => hnot rfl (hp hm), fun hm => absurd (hp hm) (hnot rfl)⟩
  have hproper : ∀ p : Pattern, p ⊆ target ++ change → ∀ t ∈ p, Symbol.isProper t = true := by
    intro p hp t ht
    cases t with
    | category letter => exact absurd (hp ht) (hnot rfl)
    | _ => rfl
  have htarget := List.subset_append_left target change
  have hchange := List.subset_append_right target change
  refine ⟨List.cons_ne_nil _ _, by simp, ?_, ?_⟩
  · simpa [Field.all, Pattern.Fits, Field.isCondition] using
      And.intro (hfits target htarget) (hfits change hchange)
  · simpa using And.intro (hproper target htarget) (hproper change hchange)

theorem flatMap_write_map_literal (w : Word) :
    (w.map Symbol.literal).flatMap Symbol.write = escape w := by
  simp [escape, List.flatMap_map, Symbol.write]

theorem write_pair (target change : Pattern) :
    write [target, change] = target.flatMap Symbol.write ++ '/' :: change.flatMap Symbol.write := by
  simp [write, List.intercalate_cons_cons]

end RuleLine

namespace RuleText

theorem readLine_write {ps : List Pattern} {r : Rule} (h : RuleLine.WellFormed ps)
    (hr : Rule.ofPatterns? ps = some r) : readLine (RuleLine.write ps) = .ok (.rule r) := by
  cases ps with
  | nil => exact absurd rfl h.nonempty
  | cons p ps =>
    have hread : RuleLine.read (RuleLine.write (p :: ps)) = .ok (p :: ps) :=
      RuleLine.read_eq_ok_cons_iff.mpr
        (RuleLine.wellFormed_and_spells_iff.mp ⟨h, RuleLine.spells_write (p :: ps)⟩)
    have hlen : 2 ≤ (p :: ps).length := Rule.ofPatterns?_isSome_iff.mp (by rw [hr]; rfl)
    have hrule : RuleLine.isRule (RuleLine.write (p :: ps)) = true := by
      rw [RuleLine.isRule_iff_hasSeparator]
      exact (RuleLine.two_le_length_iff hread).mp hlen
    rw [readLine, if_pos hrule, bind_eq_ok_iff]
    refine ⟨p :: ps, hread, ?_⟩
    rw [hr]
    rfl

theorem read_write {ps : List Pattern} {r : Rule} (h : RuleLine.WellFormed ps)
    (hr : Rule.ofPatterns? ps = some r) (hfeed : '\n' ∉ RuleLine.write ps)
    (hreturn : (RuleLine.write ps).getLast? ≠ some '\r') :
    read (RuleLine.write ps) = .ok [.rule r] := by
  rw [read, Text.ruleLines_eq_singleton hfeed hreturn]
  show (readNumbered (RuleLine.write ps, 1) >>= fun entry => pure [entry]) = _
  rw [readNumbered, readLine_write h hr]
  rfl

/-- A line that has a target and a change, made of literals and word edges. -/
theorem readLine_pair (target change : Pattern)
    (h : ∀ t ∈ target ++ change, Symbol.isLiteralOrEdge t = true) :
    readLine (target.flatMap Symbol.write ++ '/' :: change.flatMap Symbol.write) =
      .ok (.rule ⟨target, change, none, none, none⟩) := by
  rw [← RuleLine.write_pair]
  exact readLine_write (RuleLine.wellFormed_of_literalOrEdge h) rfl

end RuleText

end SoundChange
