import SoundChange.Proofs.Cascade.Composition
import SoundChange.Proofs.RuleLine.Signs

/-!
# The entries of a rule text

Three readers agree on what a line is: the one that looks for a separator, the one that reads the
patterns, and the one that counts the rules. A line with a separator that can be read has enough
patterns for a rule, so that an entry is a comment for want of a separator only, and what is read
of a text hangs on the lines with a separator.

* `readLine_eq_error_iff`, `readLine_eq_ok_iff`: what becomes of one line.
* `read_eq_error_iff`, `read_eq_ok_iff_forall₂`: what becomes of a text, line by line.
* `entries_follow_separators`: patterns, entries, the number of rules and the first fault.
-/

set_option autoImplicit false

namespace SoundChange.RuleText

open RuleLine (HasSeparator)

/-! ## Lines -/

theorem ofPatterns?_of_hasSeparator {line : List Char} {ps : List Pattern}
    (h : RuleLine.read line = .ok ps) (hs : HasSeparator line) :
    ∃ r, Rule.ofPatterns? ps = some r :=
  Option.isSome_iff_exists.mp
    (Rule.ofPatterns?_isSome_iff.mpr ((RuleLine.two_le_length_iff h).mpr hs))

theorem readLine_of_not_hasSeparator {line : List Char} (hs : ¬ HasSeparator line) :
    readLine line = .ok .comment := by
  rw [readLine, if_neg (mt (RuleLine.isRule_iff_hasSeparator line).mp hs)]
  rfl

theorem readLine_of_hasSeparator {line : List Char} (hs : HasSeparator line) :
    readLine line =
      (fun ps => (Rule.ofPatterns? ps).elim Entry.comment Entry.rule) <$> RuleLine.read line := by
  rw [readLine, if_pos ((RuleLine.isRule_iff_hasSeparator line).mpr hs)]
  cases RuleLine.read line with
  | error _ => rfl
  | ok ps => rcases ps with _ | ⟨_, _ | ⟨_, _⟩⟩ <;> rfl

/-- A line cannot be read if it has a separator and its patterns cannot be read. -/
theorem readLine_eq_error_iff {line : List Char} {cause : LineFault} :
    readLine line = .error cause ↔ HasSeparator line ∧ RuleLine.read line = .error cause := by
  by_cases hs : HasSeparator line
  · rw [readLine_of_hasSeparator hs, map_eq_error_iff, and_iff_right hs]
  · simp [readLine_of_not_hasSeparator hs, hs]

theorem exists_readLine_eq_ok_iff {line : List Char} :
    (∃ entry, readLine line = .ok entry) ↔
      (HasSeparator line → ∃ ps, RuleLine.read line = .ok ps) := by
  simp only [exists_eq_ok_iff, Ne, readLine_eq_error_iff, not_and]
  exact forall_comm

/-- The entry of a line is a rule if and only if the line has a separator. -/
theorem isRule_of_readLine {line : List Char} {entry : Entry} (h : readLine line = .ok entry) :
    entry.isRule = true ↔ HasSeparator line := by
  by_cases hs : HasSeparator line
  · rw [readLine_of_hasSeparator hs] at h
    obtain ⟨ps, hps, rfl⟩ := map_eq_ok_iff.mp h
    obtain ⟨r, hr⟩ := ofPatterns?_of_hasSeparator hps hs
    rw [hr]
    exact iff_of_true rfl hs
  · rw [readLine_of_not_hasSeparator hs] at h
    cases h
    exact iff_of_false nofun hs

/-! ## Texts -/

theorem getElem?_zipIdx_iff {α : Type} {l : List α} {n i m : Nat} {a : α} :
    (l.zipIdx n)[i]? = some (a, m) ↔ l[i]? = some a ∧ m = n + i := by
  rw [List.getElem?_zipIdx]
  cases l[i]? <;> simp [eq_comm (b := m)]

/-- A text is read if its lines are. -/
theorem read_eq_ok_iff_forall₂ {text : List Char} {entries : List Entry} :
    read text = .ok entries ↔
      List.Forall₂ (fun line entry => readLine line = .ok entry) (Text.ruleLines text) entries := by
  have hlines := List.zipIdx_map_fst 1 (Text.ruleLines text)
  rw [read, mapM_eq_ok_iff]
  conv_rhs => rw [← hlines, List.forall₂_map_left_iff]
  simp only [readNumbered, mapError_eq_ok_iff]

/-- The fault of a text is that of its first line that cannot be read. -/
theorem read_eq_error_iff {text : List Char} {fault : CascadeFault} :
    read text = .error fault ↔
      ∃ i line cause, (Text.ruleLines text)[i]? = some line ∧ HasSeparator line ∧
        RuleLine.read line = .error cause ∧ fault = .unreadable (i + 1) cause ∧
        ∀ j < i, ∀ earlier, (Text.ruleLines text)[j]? = some earlier → HasSeparator earlier →
          ∃ ps, RuleLine.read earlier = .ok ps := by
  have hnumbered : ∀ line, readNumbered line = .error fault ↔
      ∃ cause, readLine line.1 = .error cause ∧ fault = .unreadable line.2 cause :=
    fun line => mapError_eq_error_iff
  have hearlier : ∀ line, (∃ entry, readNumbered line = .ok entry) ↔
      (HasSeparator line.1 → ∃ ps, RuleLine.read line.1 = .ok ps) := fun line => by
    simp only [readNumbered, mapError_eq_ok_iff, exists_readLine_eq_ok_iff]
  rw [read, mapM_eq_error_iff]
  simp only [hnumbered, hearlier, readLine_eq_error_iff, Prod.exists, Prod.forall,
    getElem?_zipIdx_iff]
  constructor
  · rintro ⟨i, line, _, ⟨hline, rfl⟩, ⟨cause, ⟨hs, hread⟩, rfl⟩, hbefore⟩
    refine ⟨i, line, cause, hline, hs, hread, by rw [Nat.add_comm], fun j hj earlier he => ?_⟩
    exact hbefore j hj earlier _ ⟨he, rfl⟩
  · rintro ⟨i, line, cause, hline, hs, hread, rfl, hbefore⟩
    refine ⟨i, line, i + 1, ⟨hline, Nat.add_comm ..⟩, ⟨cause, ⟨hs, hread⟩, rfl⟩, ?_⟩
    exact fun j hj earlier _ he => hbefore j hj earlier he.1

theorem exists_read_eq_ok_iff {text : List Char} :
    (∃ entries, read text = .ok entries) ↔
      ∀ line ∈ Text.ruleLines text, HasSeparator line → ∃ ps, RuleLine.read line = .ok ps := by
  have hlines := List.zipIdx_map_fst 1 (Text.ruleLines text)
  rw [read, exists_mapM_eq_ok_iff]
  conv_rhs => rw [← hlines, List.forall_mem_map]
  simp only [readNumbered, mapError_eq_ok_iff, exists_readLine_eq_ok_iff]

theorem getElem?_eq_comment_iff {text : List Char} {entries : List Entry}
    (h : read text = .ok entries) (i : Nat) :
    entries[i]? = some .comment ↔
      ∃ line, (Text.ruleLines text)[i]? = some line ∧ ¬ HasSeparator line := by
  obtain ⟨hlen, hplaces⟩ := forall₂_iff_getElem?.mp (read_eq_ok_iff_forall₂.mp h)
  constructor
  · intro he
    have hi := (List.getElem?_eq_some_iff.mp he).1
    have hline := List.getElem?_eq_getElem (hlen.symm ▸ hi)
    exact ⟨_, hline, fun hs => nomatch (isRule_of_readLine (hplaces i _ _ hline he)).mpr hs⟩
  · rintro ⟨line, hline, hs⟩
    have hi := (List.getElem?_eq_some_iff.mp hline).1
    have he := List.getElem?_eq_getElem (hlen ▸ hi)
    have hentry := hplaces i _ _ hline he
    rw [readLine_of_not_hasSeparator hs] at hentry
    rw [he, ← Except.ok.inj hentry]

theorem countP_isRule {text : List Char} {entries : List Entry} (h : read text = .ok entries) :
    entries.countP Entry.isRule = (Text.ruleLines text).countP (HasSeparator ·) := by
  have hread := read_eq_ok_iff_forall₂.mp h
  clear h
  generalize Text.ruleLines text = lines at hread ⊢
  induction hread with
  | nil => rfl
  | @cons line entry lines entries hentry _ ih =>
    rw [List.countP_cons, List.countP_cons, ih]
    simp [isRule_of_readLine hentry]

/-- A line that is read has one pattern more than separators, and it is a rule if and only if these
are two or more. A text is read if its lines with a separator are, whatever the others hold; then
there is an entry for each line, a comment for want of a separator only, and as many rules as lines
with a separator. Otherwise the fault is that of the first line with a separator that cannot be
read. -/
theorem entries_follow_separators :
    (∀ line ps, RuleLine.read line = .ok ps →
      ps.length = 1 + (RuleLine.signs line).count (.plain '/') ∧
        (RuleLine.isRule line = true ↔ 2 ≤ ps.length) ∧
        (RuleLine.isRule line = true → ∃ r, Rule.ofPatterns? ps = some r)) ∧
    ∀ text,
      ((∃ entries, read text = .ok entries) ↔
        ∀ line ∈ Text.ruleLines text, HasSeparator line → ∃ ps, RuleLine.read line = .ok ps) ∧
      (∀ entries, read text = .ok entries →
        entries.length = 1 + text.count '\n' ∧
        (∀ i : Nat, entries[i]? = some .comment ↔
          ∃ line, (Text.ruleLines text)[i]? = some line ∧ ¬ HasSeparator line) ∧
        ∀ c : Cascade, ∃ d, c.withRules text = .ok d ∧
          d.ruleCount = (Text.ruleLines text).countP (HasSeparator ·)) ∧
      ∀ fault, read text = .error fault ↔
        ∃ i line cause, (Text.ruleLines text)[i]? = some line ∧ HasSeparator line ∧
          RuleLine.read line = .error cause ∧ fault = .unreadable (i + 1) cause ∧
          ∀ j < i, ∀ earlier, (Text.ruleLines text)[j]? = some earlier → HasSeparator earlier →
            ∃ ps, RuleLine.read earlier = .ok ps := by
  refine ⟨fun line ps h => ?_, fun text => ⟨exists_read_eq_ok_iff, fun entries h => ?_, ?_⟩⟩
  · rw [RuleLine.isRule_iff_hasSeparator]
    exact ⟨RuleLine.length_of_read h, (RuleLine.two_le_length_iff h).symm,
      ofPatterns?_of_hasSeparator h⟩
  · refine ⟨length_of_read_eq_ok h, getElem?_eq_comment_iff h, fun c => ?_⟩
    exact ⟨_, Cascade.withRules_eq_ok_iff.mpr ⟨entries, h, rfl⟩, countP_isRule h⟩
  · exact fun fault => read_eq_error_iff

/-- Lines without a separator can hold anything, escaped separators and an escape at the end among
it; they are numbered, and no more. -/
theorem entries_follow_separators_past_comments :
    (∃ d, Cascade.withRules {} "a|b!\r\n#/un#\n!/_,".toList = .ok d ∧ d.ruleCount = 1) ∧
      read "a|b!\r\n#/un#\n!/_,\nt,/s\n_/s".toList = .error (.unreadable 4 .emptyMember) := by
  have htexts := entries_follow_separators.2
  constructor
  · obtain ⟨entries, h⟩ : ∃ entries, read "a|b!\r\n#/un#\n!/_,".toList = .ok entries := ⟨_, rfl⟩
    obtain ⟨-, -, hcount⟩ := (htexts _).2.1 entries h
    exact hcount {}
  · have hlines : Text.ruleLines "a|b!\r\n#/un#\n!/_,\nt,/s\n_/s".toList =
        ["a|b!".toList, "#/un#".toList, "!/_,".toList, "t,/s".toList, "_/s".toList] := by decide
    refine ((htexts _).2.2 _).mpr ?_
    rw [hlines]
    refine ⟨3, "t,/s".toList, .emptyMember, rfl, by decide, rfl, rfl, ?_⟩
    intro j hj earlier he hs
    match j, hj with
    | 0, _ =>
      cases he
      exact absurd hs (by decide)
    | 1, _ =>
      cases he
      exact ⟨_, rfl⟩
    | 2, _ =>
      cases he
      exact absurd hs (by decide)

end SoundChange.RuleText
