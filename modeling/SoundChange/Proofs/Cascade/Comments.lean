import SoundChange.Proofs.Cascade.Composition
import SoundChange.Proofs.RuleText.Written

/-!
# Rule texts and their comments

A line without a separator is a comment, and all that a comment does is to count as a line. What a
text does hangs on the lines that have a separator; the others show in the numbers of faults and
steps only.

* `isRule_eq_any`: a text has a separator if one of its lines has.
* `mapM_readEntry_filter`, `runEntries_filter`: comments left out, when a text is read and when a
  word goes through the entries.
* `actsAs_of_numberedRules`: texts with the same lines that have a separator, up to numbers.
* `withRules_withoutComments`: the text without its comments, a text that has nothing but comments,
  and one more comment at any place.
-/

set_option autoImplicit false

namespace SoundChange

/-! ## Separators -/

namespace RuleLine

theorem isRule_concat_return (line : List Char) : isRule (line ++ ['\r']) = isRule line := by
  induction line using escapeInduction with
  | nil => rfl
  | dangling => rfl
  | escape c rest ih => rw [List.cons_append, List.cons_append, isRule_escape, isRule_escape, ih]
  | char c rest he ih => rw [List.cons_append, isRule_char he, isRule_char he, ih]

theorem isRule_dropReturn (line : List Char) : isRule (Text.dropReturn line) = isRule line := by
  rw [Text.dropReturn]
  split
  · rename_i h
    obtain ⟨front, rfl⟩ := List.getLast?_eq_some_iff.mp h
    rw [List.dropLast_concat, isRule_concat_return]
  · rfl

/-- A line feed is no separator, and an escape character in front of it takes none away. -/
theorem isRule_eq_any (text : List Char) : isRule text = (text.splitOn '\n').any isRule := by
  induction text using escapeInduction with
  | nil => rfl
  | dangling => rfl
  | escape c rest ih =>
    obtain ⟨line, lines, hlines⟩ := List.exists_cons_of_ne_nil (List.splitOn_ne_nil '\n' rest)
    rw [hlines] at ih
    rw [List.splitOn_cons_eq_if_modifyHead, List.splitOn_cons_eq_if_modifyHead, hlines,
      isRule_escape, ih]
    by_cases hc : c = '\n'
    · simp [hc, isRule]
    · simp [hc, isRule_escape]
  | char c rest he ih =>
    obtain ⟨line, lines, hlines⟩ := List.exists_cons_of_ne_nil (List.splitOn_ne_nil '\n' rest)
    rw [hlines] at ih
    rw [List.splitOn_cons_eq_if_modifyHead, hlines, isRule_char he, ih]
    by_cases hc : c = '\n'
    · simp [hc, isRule]
    · simp [hc, isRule_char he, Bool.or_assoc]

end RuleLine

/-! ## Reading -/

namespace RuleText

/-- The entry of a line as it is written, with the number of the line. -/
def readEntry (line : List Char × Nat) : Except CascadeFault (Entry × Nat) :=
  (·, line.2) <$> readNumbered (Prod.map Text.dropReturn id line)

theorem readEntry_of_comment {line : List Char × Nat} (h : RuleLine.isRule line.1 = false) :
    readEntry line = .ok (.comment, line.2) := by
  rw [← RuleLine.isRule_dropReturn] at h
  simp [readEntry, readNumbered, readLine, h]
  rfl

theorem mapM_readEntry_zipIdx (lines : List (List Char)) (n : Nat) :
    (lines.zipIdx n).mapM readEntry =
      (·.zipIdx n) <$> ((lines.map Text.dropReturn).zipIdx n).mapM readNumbered := by
  induction lines generalizing n with
  | nil => rfl
  | cons line lines ih =>
    rw [List.map_cons, List.zipIdx_cons, List.zipIdx_cons, List.mapM_cons, List.mapM_cons, ih]
    show ((·, n) <$> readNumbered (Text.dropReturn line, n) >>= _) = _
    cases readNumbered (Text.dropReturn line, n) with
    | error _ => rfl
    | ok entry =>
      cases ((lines.map Text.dropReturn).zipIdx (n + 1)).mapM readNumbered <;> rfl

theorem mapM_readEntry_text (text : List Char) :
    ((text.splitOn '\n').zipIdx 1).mapM readEntry = (·.zipIdx 1) <$> read text :=
  mapM_readEntry_zipIdx (text.splitOn '\n') 1

theorem readEntry_renumber (g : Nat → Nat) (line : List Char × Nat) :
    readEntry (Prod.map id g line) =
      (Prod.map id g <$> readEntry line).mapError (CascadeFault.renumber g) := by
  show (·, g line.2) <$> (readLine (Text.dropReturn line.1)).mapError _ =
    (Prod.map id g <$> (·, line.2) <$> (readLine (Text.dropReturn line.1)).mapError _).mapError _
  cases readLine (Text.dropReturn line.1) <;> rfl

theorem mapM_readEntry_renumber (g : Nat → Nat) (lines : List (List Char × Nat)) :
    (lines.map (Prod.map id g)).mapM readEntry =
      (List.map (Prod.map id g) <$> lines.mapM readEntry).mapError (CascadeFault.renumber g) := by
  induction lines with
  | nil => rfl
  | cons line lines ih =>
    rw [List.map_cons, List.mapM_cons, List.mapM_cons, ih, readEntry_renumber]
    cases readEntry line with
    | error _ => rfl
    | ok _ => cases lines.mapM readEntry <;> rfl

/-- The lines with a separator give all the rules. -/
theorem mapM_readEntry_filter (lines : List (List Char × Nat)) :
    List.filter (fun entry => entry.1.isRule) <$>
        (lines.filter fun line => RuleLine.isRule line.1).mapM readEntry =
      List.filter (fun entry => entry.1.isRule) <$> lines.mapM readEntry :=
  filter_mapM_filter fun line _ h => ⟨(.comment, line.2), readEntry_of_comment h, rfl⟩

/-- The lines of a text that have a separator, as they are written, with their numbers. -/
def numberedRules (text : List Char) : List (List Char × Nat) :=
  ((text.splitOn '\n').zipIdx 1).filter fun line => RuleLine.isRule line.1

/-- The rules among the entries of a text, with the numbers of their lines. -/
def rulesOf (entries : List Entry) : List (Entry × Nat) :=
  (entries.zipIdx 1).filter fun entry => entry.1.isRule

theorem rulesOf_read (text : List Char) :
    rulesOf <$> read text =
      List.filter (fun entry => entry.1.isRule) <$> (numberedRules text).mapM readEntry := by
  rw [numberedRules, mapM_readEntry_filter, mapM_readEntry_text, Functor.map_map]
  rfl

theorem rulesOf_read_renumber {g : Nat → Nat} {text text' : List Char}
    (h : numberedRules text = (numberedRules text').map (Prod.map id g)) :
    rulesOf <$> read text =
      (List.map (Prod.map id g) <$> rulesOf <$> read text').mapError (CascadeFault.renumber g) := by
  rw [rulesOf_read, rulesOf_read, h, mapM_readEntry_renumber]
  cases (numberedRules text').mapM readEntry with
  | error _ => rfl
  | ok entries => exact congrArg Except.ok List.filter_map

end RuleText

/-! ## Runs -/

theorem runEntries_filter (table : CategoryTable) (entries : List (RuleText.Entry × Nat))
    (w : Word) :
    runEntries table (entries.filter fun entry => entry.1.isRule) w =
      runEntries table entries w := by
  induction entries generalizing w with
  | nil => rfl
  | cons entry entries ih =>
    obtain ⟨entry, line⟩ := entry
    cases entry with
    | comment => exact ih w
    | rule r =>
      show runEntries table ((.rule r, line) :: _) w = _
      cases ha : r.apply table w with
      | error cause => rw [runEntries_rule_error ha, runEntries_rule_error ha]
      | ok next => rw [runEntries_rule_ok ha, runEntries_rule_ok ha, ih next]

namespace Cascade

theorem run_eq_runEntries_rulesOf (table : CategoryTable) (entries : List RuleText.Entry)
    (w : Word) :
    run ⟨table, some entries⟩ w = runEntries table (RuleText.rulesOf entries) w :=
  (runEntries_filter table (entries.zipIdx 1) w).symm

/-- What two texts make of a cascade: both are refused, for the same cause, or a word goes through
the rules of both in the same way; a line with the number `n` for the second text has the number
`g n` for the first one. -/
def ActsAs (g : Nat → Nat) : Except CascadeFault Cascade → Except CascadeFault Cascade → Prop
  | .ok c, .ok d => ∀ w, c.run w = renumberRun g (d.run w)
  | .error fault, .error fault' => fault = fault'.renumber g
  | _, _ => False

theorem actsAs_of_numberedRules {g : Nat → Nat} {text text' : List Char}
    (h : RuleText.numberedRules text = (RuleText.numberedRules text').map (Prod.map id g))
    (c : Cascade) : ActsAs g (c.withRules text) (c.withRules text') := by
  have hrules := RuleText.rulesOf_read_renumber h
  rw [withRules, withRules]
  generalize RuleText.read text = x at hrules ⊢
  generalize RuleText.read text' = y at hrules ⊢
  cases x with
  | error fault =>
    cases y with
    | error fault' => exact Except.error.inj hrules
    | ok entries' => cases hrules
  | ok entries =>
    cases y with
    | error fault' => cases hrules
    | ok entries' =>
      intro w
      show run ⟨c.table, some entries⟩ w = renumberRun g (run ⟨c.table, some entries'⟩ w)
      rw [run_eq_runEntries_rulesOf, run_eq_runEntries_rulesOf, Except.ok.inj hrules,
        runEntries_renumber]

end Cascade

/-! ## Texts without comments -/

namespace RuleText

/-- The text without its comments: its lines that have a separator, as they are written. -/
def withoutComments (text : List Char) : List Char :=
  ['\n'].intercalate ((text.splitOn '\n').filter RuleLine.isRule)

/-- The number of the `n`-th line of a text that has a separator. -/
def ruleNumber (text : List Char) (n : Nat) : Nat :=
  ((numberedRules text).map Prod.snd).getD (n - 1) 0

/-- The number of a line that had the number `n` before another line was put in at `k`. -/
def skipLine (k n : Nat) : Nat :=
  if n < k then n else n + 1

theorem zipIdx_map_fst_renumber {α : Type} (l : List (α × Nat)) :
    ((l.map Prod.fst).zipIdx 1).map (Prod.map id fun n => (l.map Prod.snd).getD (n - 1) 0) = l := by
  refine List.ext_getElem (by simp) fun i hi hi' => ?_
  simp [List.getD_eq_getElem?_getD, hi']

theorem numberedRules_intercalate {lines : List (List Char)} (h : ∀ line ∈ lines, '\n' ∉ line) :
    numberedRules (['\n'].intercalate lines) =
      (lines.zipIdx 1).filter fun line => RuleLine.isRule line.1 := by
  by_cases hl : lines = []
  · -- no lines make up the same text as one empty line
    subst hl
    rfl
  · rw [numberedRules, List.splitOn_intercalate '\n' h hl]

theorem map_fst_numberedRules (text : List Char) :
    (numberedRules text).map Prod.fst = (text.splitOn '\n').filter RuleLine.isRule := by
  have h := List.filter_map (f := Prod.fst) (p := RuleLine.isRule)
    (l := (text.splitOn '\n').zipIdx 1)
  rw [List.zipIdx_map_fst] at h
  exact h.symm

theorem numberedRules_withoutComments (text : List Char) :
    numberedRules text =
      (numberedRules (withoutComments text)).map (Prod.map id (ruleNumber text)) := by
  have hfeed : ∀ line ∈ (text.splitOn '\n').filter RuleLine.isRule, '\n' ∉ line := by
    intro line hline
    exact not_mem_of_mem_splitOn (List.mem_filter.mp hline).1
  have hall : ∀ line ∈ ((text.splitOn '\n').filter RuleLine.isRule).zipIdx 1,
      RuleLine.isRule line.1 = true := by
    intro line hline
    exact (List.mem_filter.mp (List.fst_mem_of_mem_zipIdx hline)).2
  rw [withoutComments, numberedRules_intercalate hfeed, List.filter_eq_self.mpr hall,
    ← map_fst_numberedRules]
  exact (zipIdx_map_fst_renumber (numberedRules text)).symm

theorem filter_zipIdx_insert (before after : List (List Char)) {line : List Char}
    (hline : RuleLine.isRule line = false) :
    ((before ++ line :: after).zipIdx 1).filter (fun line => RuleLine.isRule line.1) =
      (((before ++ after).zipIdx 1).filter fun line => RuleLine.isRule line.1).map
        (Prod.map id (skipLine (before.length + 1))) := by
  have hbefore : ∀ q ∈ before.zipIdx 1, Prod.map id (skipLine (before.length + 1)) q = q := by
    intro q hq
    have hlt := (List.mem_zipIdx (x := q.1) (i := q.2) hq).2.1
    exact Prod.ext rfl (if_pos (by omega))
  have hafter : ∀ q ∈ after.zipIdx (1 + before.length),
      Prod.map id (skipLine (before.length + 1)) q = Prod.map id (· + 1) q := by
    intro q hq
    have hle := (List.mem_zipIdx (x := q.1) (i := q.2) hq).1
    exact Prod.ext rfl (if_neg (by omega))
  have hmap (l : List (List Char × Nat)) (g : Nat → Nat) :
      (l.filter fun line => RuleLine.isRule line.1).map (Prod.map id g) =
        (l.map (Prod.map id g)).filter fun line => RuleLine.isRule line.1 :=
    (List.filter_map (f := Prod.map id g) (p := fun line => RuleLine.isRule line.1)).symm
  rw [hmap, List.zipIdx_append, List.zipIdx_append, List.zipIdx_cons, List.map_append,
    List.map_congr_left hbefore, List.map_id', List.map_congr_left hafter,
    List.map_snd_add_zipIdx_eq_zipIdx, List.filter_append, List.filter_append,
    List.filter_cons_of_neg (by simp [hline]), Nat.add_comm 1 (1 + before.length)]

theorem numberedRules_insert {before after : List (List Char)} {line : List Char}
    (hline : RuleLine.isRule line = false)
    (h : ∀ l ∈ before ++ line :: after, '\n' ∉ l) :
    numberedRules (['\n'].intercalate (before ++ line :: after)) =
      (numberedRules (['\n'].intercalate (before ++ after))).map
        (Prod.map id (skipLine (before.length + 1))) := by
  have h' : ∀ l ∈ before ++ after, '\n' ∉ l := by
    intro l hl
    refine h l ?_
    simp only [List.mem_append, List.mem_cons] at hl ⊢
    exact hl.imp_right .inr
  rw [numberedRules_intercalate h, numberedRules_intercalate h', filter_zipIdx_insert _ _ hline]

theorem numberedRules_of_isRule_eq_false {text : List Char} (h : RuleLine.isRule text = false) :
    numberedRules text = [] := by
  rw [RuleLine.isRule_eq_any, List.any_eq_false] at h
  refine List.filter_eq_nil_iff.mpr fun line hline => ?_
  exact h line.1 (List.fst_mem_of_mem_zipIdx hline)

end RuleText

namespace Cascade

/-- A text acts as what is left of it without its comments, with the numbers that its lines have
there; a text that has nothing but comments does nothing to a word; and a comment that is put in at
any place, or taken out, makes a difference to the numbers of the lines behind it only. -/
theorem withRules_withoutComments (c : Cascade) :
    (∀ text, ActsAs (RuleText.ruleNumber text) (c.withRules text)
      (c.withRules (RuleText.withoutComments text))) ∧
    (∀ text, RuleLine.isRule text = false →
      ∃ d, c.withRules text = .ok d ∧ ∀ w, d.run w = .ok (w, [])) ∧
    ∀ before line after, RuleLine.isRule line = false →
      (∀ l ∈ before ++ line :: after, '\n' ∉ l) →
      ActsAs (RuleText.skipLine (before.length + 1))
        (c.withRules (['\n'].intercalate (before ++ line :: after)))
        (c.withRules (['\n'].intercalate (before ++ after))) := by
  refine ⟨fun text => ?_, fun text h => ?_, fun before line after hline h => ?_⟩
  · exact actsAs_of_numberedRules (RuleText.numberedRules_withoutComments text) c
  · have hacts : ActsAs id (c.withRules text) (c.withRules []) := by
      refine actsAs_of_numberedRules ?_ c
      rw [RuleText.numberedRules_of_isRule_eq_false h]
      rfl
    cases hd : c.withRules text with
    | error fault =>
      rw [hd] at hacts
      exact hacts.elim
    | ok d =>
      rw [hd] at hacts
      exact ⟨d, rfl, hacts⟩
  · exact actsAs_of_numberedRules (RuleText.numberedRules_insert hline h) c

/-- The rules `#/un#` and `#/#s/k#|V#`. -/
def uncommentedRules : List RuleText.Entry :=
  [.rule ⟨[.edge], [.literal 'u', .literal 'n', .edge], none, none, none⟩,
    .rule ⟨[.edge], [.edge, .literal 's'],
      some [.literal 'k', .edge, .bar, .category 'V', .edge], none, none⟩]

/-- With two comments between the rules the second one stands on the fourth line, where its step and
its fault are found; a text with no more than a comment leaves words alone. -/
theorem withRules_commentedRules :
    let text := "#/un#\r\n! a!/b\n\n#/#s/k#|V#".toList
    RuleText.withoutComments text = "#/un#\r\n#/#s/k#|V#".toList ∧
      withRules {} "#/un#\r\n#/#s/k#|V#".toList = .ok { entries := some uncommentedRules } ∧
      (∃ d, withRules {} text = .ok d ∧
        d.run ['k'] = .ok (['u', 'n', 'k', 's'],
          [⟨1, ['k'], ['u', 'n', 'k']⟩, ⟨4, ['u', 'n', 'k'], ['u', 'n', 'k', 's']⟩]) ∧
        d.run ['a'] = .error (.inapplicable 4 (.unknownCategory 'V'))) ∧
      (∃ d, withRules {} "! a!/b".toList = .ok d ∧ d.run ['k'] = .ok (['k'], [])) ∧
      ActsAs (RuleText.skipLine 2) (withRules {} "#/un#\n! a!/b\n#_/s".toList)
        (withRules {} "#/un#\n#_/s".toList) := by
  intro text
  obtain ⟨hacts, hcomments, hinsert⟩ := withRules_withoutComments {}
  have hkept : RuleText.withoutComments text = "#/un#\r\n#/#s/k#|V#".toList := rfl
  have hread : withRules {} "#/un#\r\n#/#s/k#|V#".toList =
      .ok { entries := some uncommentedRules } := rfl
  have h := hacts text
  rw [hkept, hread] at h
  refine ⟨hkept, hread, ?_, ?_, ?_⟩
  · cases hd : withRules {} text with
    | error fault =>
      rw [hd] at h
      exact h.elim
    | ok d =>
      rw [hd] at h
      exact ⟨d, rfl, (h _).trans rfl, (h _).trans rfl⟩
  · obtain ⟨d, hd, h⟩ := hcomments "! a!/b".toList rfl
    exact ⟨d, hd, h _⟩
  · exact hinsert ["#/un#".toList] "! a!/b".toList ["#_/s".toList] rfl (by decide)

end Cascade

end SoundChange
