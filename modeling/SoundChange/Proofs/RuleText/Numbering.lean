import SoundChange.Proofs.Outcome
import SoundChange.Proofs.Pattern
import SoundChange.RuleText

/-!
# Numbered lines of a rule text

Lines are read one by one, and the number of a line shows only in the fault of a line that cannot
be read.

* `ruleLines_append`, `length_ruleLines`: a text behind a line feed adds its lines, and there is one
  line more than there are line feeds.
* `mapM_readNumbered_renumber`: lines with other numbers give the same entries, or the same fault
  with the number of its line exchanged.
* `read_append`: a joined text gives the entries of its parts, or the fault of the first part that
  has one, counted from the start of the whole text.
-/

set_option autoImplicit false

namespace SoundChange

/-! ## Lines -/

theorem Text.ruleLines_append (a b : List Char) :
    ruleLines (a ++ '\n' :: b) = ruleLines a ++ ruleLines b := by
  rw [ruleLines, List.splitOn_append_cons_self, List.map_append]
  rfl

theorem Text.length_ruleLines (text : List Char) :
    (ruleLines text).length = 1 + text.count '\n' := by
  rw [ruleLines, List.length_map, length_splitOn]

/-! ## Numbers -/

/-- The same fault with another number for its line. -/
def CascadeFault.renumber (g : Nat → Nat) : CascadeFault → CascadeFault
  | unreadable line cause => unreadable (g line) cause
  | inapplicable line cause => inapplicable (g line) cause
  | noRules => noRules

theorem CascadeFault.renumber_add (n : Nat) : renumber (· + n) = shift n := by
  funext fault
  cases fault <;> rfl

namespace RuleText

theorem readNumbered_renumber (g : Nat → Nat) (line : List Char × Nat) :
    readNumbered (Prod.map id g line) =
      (readNumbered line).mapError (CascadeFault.renumber g) := by
  show (readLine line.1).mapError _ = ((readLine line.1).mapError _).mapError _
  cases readLine line.1 <;> rfl

theorem mapM_readNumbered_renumber (g : Nat → Nat) (lines : List (List Char × Nat)) :
    (lines.map (Prod.map id g)).mapM readNumbered =
      (lines.mapM readNumbered).mapError (CascadeFault.renumber g) := by
  induction lines with
  | nil => rfl
  | cons line lines ih =>
    rw [List.map_cons, List.mapM_cons, List.mapM_cons, ih, readNumbered_renumber]
    cases readNumbered line with
    | error _ => rfl
    | ok _ => cases lines.mapM readNumbered <;> rfl

theorem length_of_read_eq_ok {text : List Char} {entries : List Entry}
    (h : read text = .ok entries) : entries.length = 1 + text.count '\n' := by
  rw [length_of_mapM_eq_ok h, List.length_zipIdx, Text.length_ruleLines]

theorem read_append (a b : List Char) :
    read (a ++ '\n' :: b) = (do
      let entries ← read a
      let entries' ← (read b).mapError (CascadeFault.shift (1 + a.count '\n'))
      pure (entries ++ entries')) := by
  have hzip : ((Text.ruleLines b).zipIdx (1 + (Text.ruleLines a).length)) =
      ((Text.ruleLines b).zipIdx 1).map (Prod.map id (· + (1 + a.count '\n'))) := by
    rw [List.map_snd_add_zipIdx_eq_zipIdx, Text.length_ruleLines, Nat.add_comm]
  rw [read, Text.ruleLines_append, List.zipIdx_append, List.mapM_append, hzip,
    mapM_readNumbered_renumber, CascadeFault.renumber_add]
  rfl

end RuleText

end SoundChange
