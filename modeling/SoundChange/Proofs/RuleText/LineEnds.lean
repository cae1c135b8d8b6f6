import SoundChange.Proofs.Cascade.Composition

/-!
# Ends of the lines of a rule text

Each line of a rule text ends with a line feed or with a carriage return and a line feed, and the
last one with nothing or with a carriage return. How they end does not count: carriage returns that
are put at the ends of lines, of whichever lines, change nothing of what is read.

* `Text.withReturns`: a text with carriage returns at the ends of some of its lines.
* `Text.splitOn_withReturns`: what then stands between the line feeds.
* `Cascade.run_of_line_ends`: what is read, and what becomes of a word.
-/

set_option autoImplicit false

namespace SoundChange

namespace Text

/-- A carriage return, or nothing. -/
def optionalReturn (chosen : Bool) : List Char :=
  if chosen then ['\r'] else []

/-- The text with a carriage return at the end of every line that is chosen by its number; the
first line has the number `n`. -/
def withReturns (chosen : Nat → Bool) (n : Nat) : List Char → List Char
  | [] => optionalReturn (chosen n)
  | c :: text =>
    if c = '\n' then optionalReturn (chosen n) ++ '\n' :: withReturns chosen (n + 1) text
    else c :: withReturns chosen n text

theorem splitOn_optionalReturn (chosen : Bool) :
    (optionalReturn chosen).splitOn '\n' = [optionalReturn chosen] := by
  cases chosen <;> decide

theorem splitOn_withReturns (chosen : Nat → Bool) (text : List Char) (n : Nat) :
    (withReturns chosen n text).splitOn '\n' =
      ((text.splitOn '\n').zipIdx n).map fun line => line.1 ++ optionalReturn (chosen line.2) := by
  induction text generalizing n with
  | nil => simp [withReturns, splitOn_optionalReturn]
  | cons c text ih =>
    by_cases hc : c = '\n'
    · rw [withReturns, if_pos hc, List.splitOn_append_cons_self, splitOn_optionalReturn, ih, hc,
        splitOn_mark_cons]
      simp
    · -- A character of a line belongs to the first piece on both sides.
      obtain ⟨first, others, htext, hcons⟩ := exists_splitOn_cons hc text
      obtain ⟨first', others', htext', hcons'⟩ :=
        exists_splitOn_cons hc (withReturns chosen n text)
      rw [ih n, htext, List.zipIdx_cons, List.map_cons] at htext'
      obtain ⟨rfl, rfl⟩ := List.cons.inj htext'
      rw [withReturns, if_neg hc, hcons', hcons]
      simp

theorem dropReturn_append_optionalReturn {line : List Char} (h : '\r' ∉ line) (chosen : Bool) :
    dropReturn (line ++ optionalReturn chosen) = line := by
  cases chosen with
  | false =>
    rw [optionalReturn, if_neg Bool.false_ne_true, List.append_nil]
    exact if_neg fun hlast => h (List.mem_of_getLast? hlast)
  | true => exact dropReturn_append_return line

theorem ruleLines_withReturns {text : List Char} (h : '\r' ∉ text) (chosen : Nat → Bool)
    (n : Nat) : ruleLines (withReturns chosen n text) = text.splitOn '\n' := by
  have hdrop : ∀ line ∈ (text.splitOn '\n').zipIdx n,
      dropReturn (line.1 ++ optionalReturn (chosen line.2)) = line.1 := by
    intro line hl
    have hpiece := List.fst_mem_of_mem_zipIdx hl
    exact dropReturn_append_optionalReturn (fun hr => h (mem_of_mem_splitOn hpiece hr)) _
  rw [ruleLines, splitOn_withReturns, List.map_map]
  conv_rhs => rw [← List.zipIdx_map_fst n (text.splitOn '\n')]
  exact List.map_congr_left hdrop

@[simp] theorem withReturns_false (text : List Char) (n : Nat) :
    withReturns (fun _ => false) n text = text := by
  induction text generalizing n with
  | nil => rfl
  | cons c text ih =>
    by_cases hc : c = '\n'
    · simp [withReturns, optionalReturn, hc, ih]
    · simp [withReturns, hc, ih]

end Text

namespace Cascade

/-- Carriage returns at the ends of lines, of any of them and of the last one too, change nothing of
what is read of a text that has no others: neither the entries nor the fault and its line, nor what
the rules make of a word and in which steps. -/
theorem run_of_line_ends (text : List Char) (h : '\r' ∉ text) (chosen : Nat → Bool) :
    RuleText.read (Text.withReturns chosen 1 text) = RuleText.read text ∧
      ∀ c : Cascade, c.withRules (Text.withReturns chosen 1 text) = c.withRules text ∧
        (∀ w, (do let d ← c.withRules (Text.withReturns chosen 1 text); d.run w) =
          do let d ← c.withRules text; d.run w) ∧
        ∀ withSteps ws,
          (deriveEach · withSteps ws) <$> c.withRules (Text.withReturns chosen 1 text) =
            (deriveEach · withSteps ws) <$> c.withRules text := by
  have hread : RuleText.read (Text.withReturns chosen 1 text) = RuleText.read text := by
    have hlines := Text.ruleLines_withReturns h (fun _ => false) 1
    rw [Text.withReturns_false] at hlines
    rw [RuleText.read, Text.ruleLines_withReturns h, RuleText.read, hlines]
  refine ⟨hread, fun c => ?_⟩
  have hrules : c.withRules (Text.withReturns chosen 1 text) = c.withRules text := by
    rw [withRules, hread, withRules]
  refine ⟨hrules, fun w => ?_, fun withSteps ws => ?_⟩
  · rw [hrules]
  · rw [hrules]

/-- An escape at the end of a line is still the last character of the line, and so is a bar; the
lines of one text end in different ways. -/
theorem run_of_line_ends_after_marks :
    RuleText.read "#/un#\r\n\na/b!\r".toList = .error (.unreadable 3 .danglingEscape) ∧
      RuleText.read "#/un#\na/b/_x|\r\n!".toList = .error (.unreadable 2 .emptyAlternative) ∧
      (do let d ← withRules {} "#/un#\r\n!\r\n#/#s\r".toList; d.run "cat".toList) =
        .ok ("uncats".toList,
          [⟨1, "cat".toList, "uncat".toList⟩, ⟨3, "uncat".toList, "uncats".toList⟩]) := by
  have hescape := run_of_line_ends "#/un#\n\na/b!".toList (by decide) (· != 2)
  have hbar := run_of_line_ends "#/un#\na/b/_x|\n!".toList (by decide) (· == 2)
  have hrun := run_of_line_ends "#/un#\n!\n#/#s".toList (by decide) fun _ => true
  exact ⟨hescape.1.trans rfl, hbar.1.trans rfl, ((hrun.2 {}).2.1 "cat".toList).trans rfl⟩

end Cascade

end SoundChange
