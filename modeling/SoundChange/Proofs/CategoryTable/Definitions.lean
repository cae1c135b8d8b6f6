import SoundChange.CategoryTable.Definitions
import SoundChange.Proofs.CategoryTable
import SoundChange.Proofs.Outcome
import SoundChange.Proofs.Pattern
import SoundChange.Proofs.Text.Lines

/-!
# Plain texts line by line

A line of a plain text is blank, defines a letter or misdefines something, and which of these it is
hangs on the line alone. So a text that is joined from two gives the tables of both, one merged into
the other, or the fault of the first one that has a fault.

* `Defines`, `Misdefines`: what a line says.
* `definition`, `defineLine_eq`: the same as a function, and what it does to a table.
* `foldlM_defineLine_merge`, `foldlM_defineLine_renumber`: lines that are read into a table with
  categories, and lines with other numbers.
* `ofPlainText_line_by_line`: joined texts, the line of a fault, the definitions that stay and lines
  that are blank.
-/

set_option autoImplicit false

namespace SoundChange

/-- The same fault with another number for its line. -/
def CategoryFault.renumber (g : Nat → Nat) : CategoryFault → CategoryFault
  | misdefined line cause => misdefined (g line) cause
  | fault => fault

namespace CategoryTable

/-! ## What a line says -/

/-- Without the blanks around it the line has a first equals sign, in front of it the letter and
behind it the text of the members. -/
inductive Defines (line : List Char) (letter : Char) : List Word → Prop where
  | intro {front behind text : List Char} : Text.Trims line (front ++ '=' :: behind) →
      '=' ∉ front → Text.Trims front [letter] → Text.isUppercase letter = true →
      Text.Trims behind text → Defines line letter (membersOf text)

/-- The line is not blank, and it has no equals sign or a name that is no letter. -/
inductive Misdefines (line : List Char) : DefinitionFault → Prop where
  | noEqualsSign {text : List Char} : Text.Trims line text → text ≠ [] → '=' ∉ text →
      Misdefines line .noEqualsSign
  | badName {front behind name : List Char} : Text.Trims line (front ++ '=' :: behind) →
      '=' ∉ front → Text.Trims front name →
      (∀ letter, Text.isUppercase letter = true → name ≠ [letter]) →
      Misdefines line (.badName name)

/-- What a line defines, which is nothing if the line is blank. -/
def definition (line : List Char) : Except DefinitionFault (Option Category) :=
  if Text.trim line = [] then pure none else some <$> define (Text.trim line)

theorem letterOf?_eq_some_iff {name : List Char} {letter : Char} :
    letterOf? name = some letter ↔ name = [letter] ∧ Text.isUppercase letter = true := by
  unfold letterOf?
  split
  case h_1 c =>
    rw [Option.ite_none_right_eq_some, Option.some.injEq, List.cons.injEq]
    constructor
    · rintro ⟨hc, rfl⟩
      exact ⟨⟨rfl, rfl⟩, hc⟩
    · rintro ⟨⟨rfl, -⟩, hc⟩
      exact ⟨hc, rfl⟩
  case h_2 hname =>
    refine ⟨nofun, ?_⟩
    rintro ⟨rfl, -⟩
    exact absurd rfl (hname letter)

theorem letterOf?_eq_none_iff {name : List Char} :
    letterOf? name = none ↔ ∀ letter, Text.isUppercase letter = true → name ≠ [letter] := by
  rw [Option.eq_none_iff_forall_ne_some]
  refine forall_congr' fun letter => ?_
  rw [ne_eq, letterOf?_eq_some_iff, not_and']

section
variable {text : List Char} (h : '=' ∉ text)
include h

theorem ne_equals_of_mem : ∀ c ∈ text, (c != '=') = true :=
  fun _ hc => bne_iff_ne.mpr fun he => h (he ▸ hc)

theorem splitEquals?_eq_none : splitEquals? text = none := by
  rw [splitEquals?, List.dropWhile_eq_nil_iff.mpr (ne_equals_of_mem h)]

theorem splitEquals?_append (behind : List Char) :
    splitEquals? (text ++ '=' :: behind) = some (text, behind) := by
  rw [splitEquals?, List.dropWhile_append_of_pos (ne_equals_of_mem h),
    List.takeWhile_append_of_pos (ne_equals_of_mem h)]
  simp

end

section
variable {line : List Char}

theorem definition_of_blank (h : ∀ c ∈ line, Text.isBlank c = true) :
    definition line = .ok none := by
  rw [definition, if_pos (Text.trim_eq_nil_iff.mpr h)]
  rfl

theorem Defines.definition_eq {letter : Char} {members : List Word}
    (h : Defines line letter members) : definition line = .ok (some (letter, members)) := by
  obtain @⟨front, behind, text, hline, hfront, hname, hupper, hbehind⟩ := h
  rw [definition, Text.trims_iff.mp hline, if_neg (by simp), define, splitEquals?_append hfront]
  dsimp only
  rw [Text.trims_iff.mp hname, letterOf?_eq_some_iff.mpr ⟨rfl, hupper⟩, Text.trims_iff.mp hbehind]
  rfl

theorem Misdefines.definition_eq {cause : DefinitionFault} (h : Misdefines line cause) :
    definition line = .error cause := by
  cases h with
  | noEqualsSign hline hne htext =>
    rw [definition, Text.trims_iff.mp hline, if_neg hne, define, splitEquals?_eq_none htext]
    rfl
  | badName hline hfront hname hbad =>
    rw [definition, Text.trims_iff.mp hline, if_neg (by simp), define, splitEquals?_append hfront]
    dsimp only
    rw [Text.trims_iff.mp hname, letterOf?_eq_none_iff.mpr hbad]
    rfl

theorem blank_or_defines_or_misdefines (line : List Char) :
    (∀ c ∈ line, Text.isBlank c = true) ∨ (∃ letter members, Defines line letter members) ∨
      ∃ cause, Misdefines line cause := by
  by_cases hblank : Text.trim line = []
  · exact .inl (Text.trim_eq_nil_iff.mp hblank)
  by_cases hequals : '=' ∈ Text.trim line
  · obtain ⟨front, behind, htext, hfront⟩ := List.eq_append_cons_of_mem hequals
    have hline : Text.Trims line (front ++ '=' :: behind) := htext ▸ Text.trims_trim line
    cases hletter : letterOf? (Text.trim front) with
    | none =>
      exact .inr (.inr ⟨_, .badName hline hfront (Text.trims_trim front)
        (letterOf?_eq_none_iff.mp hletter)⟩)
    | some letter =>
      obtain ⟨hname, hupper⟩ := letterOf?_eq_some_iff.mp hletter
      exact .inr (.inl ⟨letter, _, .intro hline hfront (Text.trims_iff.mpr hname) hupper
        (Text.trims_trim behind)⟩)
  · exact .inr (.inr ⟨_, .noEqualsSign (Text.trims_trim line) hblank hequals⟩)

theorem definition_eq_some_iff {letter : Char} {members : List Word} :
    definition line = .ok (some (letter, members)) ↔ Defines line letter members := by
  refine ⟨fun h => ?_, Defines.definition_eq⟩
  rcases blank_or_defines_or_misdefines line with hblank | ⟨l, ms, hdefines⟩ | ⟨cause, hmis⟩
  · rw [definition_of_blank hblank] at h
    cases h
  · rw [hdefines.definition_eq] at h
    cases h
    exact hdefines
  · rw [hmis.definition_eq] at h
    cases h

theorem definition_eq_error_iff {cause : DefinitionFault} :
    definition line = .error cause ↔ Misdefines line cause := by
  refine ⟨fun h => ?_, Misdefines.definition_eq⟩
  rcases blank_or_defines_or_misdefines line with hblank | ⟨l, ms, hdefines⟩ | ⟨cause', hmis⟩
  · rw [definition_of_blank hblank] at h
    cases h
  · rw [hdefines.definition_eq] at h
    cases h
  · rw [hmis.definition_eq] at h
    cases h
    exact hmis

end

/-! ## Reading lines into a table -/

/-- The table with what a line defines. -/
def put (t : CategoryTable) (category : Option Category) : CategoryTable :=
  category.elim t fun c => t.insert c.1 c.2

section
variable {t u : CategoryTable} {line : List Char × Nat}

theorem defineLine_eq (t : CategoryTable) (line : List Char × Nat) :
    defineLine t line = t.put <$> (definition line.1).mapError (.misdefined line.2) := by
  rw [defineLine, definition]
  by_cases hblank : Text.trim line.1 = []
  · simp only [hblank, List.isEmpty_nil, if_true]
    rfl
  · simp only [List.isEmpty_iff, hblank, if_false]
    cases define (Text.trim line.1) <;> rfl

theorem defineLine_eq_error_iff {fault : CategoryFault} :
    defineLine t line = .error fault ↔
      ∃ cause, Misdefines line.1 cause ∧ fault = .misdefined line.2 cause := by
  rw [defineLine_eq, map_eq_error_iff, mapError_eq_error_iff]
  simp only [definition_eq_error_iff]

theorem defineLine_eq_ok_iff :
    defineLine t line = .ok u ↔
      ∃ category, definition line.1 = .ok category ∧ t.put category = u := by
  rw [defineLine_eq, map_eq_ok_iff]
  simp only [mapError_eq_ok_iff]

end

/-! ### Into a table with categories -/

theorem merge_insert (t u : CategoryTable) (letter : Char) (members : List Word) :
    t.merge (u.insert letter members) = (t.merge u).insert letter members := by
  refine ext_get? fun l => ?_
  simp only [get?_merge, get?_insert]
  split <;> rfl

theorem merge_put (t u : CategoryTable) (category : Option Category) :
    t.merge (u.put category) = (t.merge u).put category := by
  cases category with
  | none => rfl
  | some c => exact merge_insert t u c.1 c.2

theorem foldlM_defineLine_merge (lines : List (List Char × Nat)) (t u : CategoryTable) :
    lines.foldlM defineLine (t.merge u) = t.merge <$> lines.foldlM defineLine u := by
  induction lines generalizing u with
  | nil => rfl
  | cons line lines ih =>
    rw [List.foldlM_cons, List.foldlM_cons, defineLine_eq, defineLine_eq]
    cases definition line.1 with
    | error _ => rfl
    | ok category =>
      show lines.foldlM defineLine ((t.merge u).put category) = _
      rw [← merge_put]
      exact ih _

/-! ### Under other numbers -/

theorem defineLine_renumber (g : Nat → Nat) (t : CategoryTable) (line : List Char × Nat) :
    defineLine t (Prod.map id g line) =
      (defineLine t line).mapError (CategoryFault.renumber g) := by
  rw [defineLine_eq, defineLine_eq]
  show t.put <$> (definition line.1).mapError _ = _
  cases definition line.1 <;> rfl

theorem foldlM_defineLine_renumber (g : Nat → Nat) (lines : List (List Char × Nat))
    (t : CategoryTable) :
    (lines.map (Prod.map id g)).foldlM defineLine t =
      (lines.foldlM defineLine t).mapError (CategoryFault.renumber g) := by
  induction lines generalizing t with
  | nil => rfl
  | cons line lines ih =>
    rw [List.map_cons, List.foldlM_cons, List.foldlM_cons, defineLine_renumber]
    cases defineLine t line with
    | error _ => rfl
    | ok u => exact ih u

/-! ## Joined texts -/

theorem foldlM_endedLines (pieces : List (List Char)) (n : Nat) (t : CategoryTable) :
    ((Text.endedLines pieces).zipIdx n).foldlM defineLine t =
      (pieces.zipIdx n).foldlM defineLine t := by
  fun_induction Text.endedLines pieces generalizing n t with
  | case1 => rfl
  | case2 last hlast =>
    rw [List.isEmpty_iff.mp hlast]
    rfl
  | case3 => rfl
  | case4 line next rest ih =>
    have hreturn : defineLine t (Text.dropReturn line, n) = defineLine t (line, n) := by
      simp only [defineLine, Text.trim_dropReturn]
    rw [List.zipIdx_cons, List.foldlM_cons, hreturn, List.zipIdx_cons, List.foldlM_cons]
    exact bind_congr fun u => ih (n + 1) u

/-- The lines are those between line feeds, for what else there is at the end of a line is blank. -/
theorem ofPlainText_eq (text : List Char) :
    ofPlainText text = ((text.splitOn '\n').zipIdx 1).foldlM defineLine empty :=
  foldlM_endedLines (text.splitOn '\n') 1 empty

theorem ofPlainText_append (a b : List Char) :
    ofPlainText (a ++ '\n' :: b) = (do
      let t ← ofPlainText a
      let u ← (ofPlainText b).mapError (CategoryFault.renumber (1 + a.count '\n' + ·))
      pure (t.merge u)) := by
  have hzip : (b.splitOn '\n').zipIdx (1 + (a.splitOn '\n').length) =
      ((b.splitOn '\n').zipIdx 1).map (Prod.map id (1 + a.count '\n' + ·)) := by
    simp only [length_splitOn, Nat.add_comm (1 + a.count '\n')]
    rw [List.map_snd_add_zipIdx_eq_zipIdx, Nat.add_comm]
  rw [ofPlainText_eq, List.splitOn_append_cons_self, List.zipIdx_append, List.foldlM_append, hzip,
    ← ofPlainText_eq]
  refine bind_congr fun t => ?_
  show (((b.splitOn '\n').zipIdx 1).map _).foldlM defineLine (t.merge empty) = _
  rw [foldlM_defineLine_merge, foldlM_defineLine_renumber, ← ofPlainText_eq, map_eq_pure_bind]

/-! ## The line of a fault -/

theorem zipIdx_eq_append_cons_iff {α : Type} {l : List α} {n : Nat} {before after : List (α × Nat)}
    {q : α × Nat} :
    l.zipIdx n = before ++ q :: after ↔
      ∃ front back, l = front ++ q.1 :: back ∧ before = front.zipIdx n ∧
        q.2 = n + front.length ∧ after = back.zipIdx (q.2 + 1) := by
  rw [List.zipIdx_eq_append_iff]
  constructor
  · rintro ⟨front, _ | ⟨a, back⟩, rfl, rfl, hq⟩
    · cases hq
    · obtain ⟨rfl, rfl⟩ := List.cons.inj hq
      exact ⟨front, back, rfl, rfl, rfl, rfl⟩
  · obtain ⟨a, k⟩ := q
    rintro ⟨front, back, rfl, rfl, rfl, rfl⟩
    exact ⟨front, a :: back, rfl, rfl, rfl⟩

theorem ofPlainText_eq_error_iff {text : List Char} {fault : CategoryFault} :
    ofPlainText text = .error fault ↔
      ∃ before line after cause, text.splitOn '\n' = before ++ line :: after ∧
        (∀ earlier ∈ before, ∀ cause, ¬ Misdefines earlier cause) ∧ Misdefines line cause ∧
        fault = .misdefined (before.length + 1) cause := by
  rw [ofPlainText_eq,
    foldlM_eq_error_iff (f := defineLine) fun _ _ _ _ => defineLine_eq_error_iff]
  constructor
  · rintro ⟨_, ⟨line, k⟩, _, hlines, hbefore, cause, hcause, rfl⟩
    obtain ⟨before, after, htext, rfl, rfl, -⟩ := zipIdx_eq_append_cons_iff.mp hlines
    refine ⟨before, line, after, cause, htext, fun earlier he cause' hc => ?_, hcause, ?_⟩
    · rw [← List.zipIdx_map_fst 1 before] at he
      obtain ⟨q, hq, rfl⟩ := List.mem_map.mp he
      exact hbefore q hq _ ⟨cause', hc, rfl⟩
    · rw [Nat.add_comm]
  · rintro ⟨before, line, after, cause, htext, hbefore, hcause, rfl⟩
    have hlines := zipIdx_eq_append_cons_iff (n := 1) (q := (line, 1 + before.length)).mpr
      ⟨before, after, htext, rfl, rfl, rfl⟩
    refine ⟨_, _, _, hlines, ?_, cause, hcause, by rw [Nat.add_comm]⟩
    rintro q hq _ ⟨cause', hc, -⟩
    exact hbefore q.1 (List.fst_mem_of_mem_zipIdx hq) cause' hc

/-! ## The definitions that stay -/

theorem get?_put_eq_some_iff {t : CategoryTable} {category : Option Category} {letter : Char}
    {members : List Word} :
    (t.put category).get? letter = some members ↔
      category = some (letter, members) ∨
        t.get? letter = some members ∧ ∀ members, category ≠ some (letter, members) := by
  cases category with
  | none => simp [put]
  | some c =>
    obtain ⟨l, ms⟩ := c
    show (t.insert l ms).get? letter = some members ↔ _
    rw [get?_insert]
    by_cases hl : letter = l
    · simp [hl]
    · simp [hl, Ne.symm hl]

/-- The last element with a property is among those behind the first one, or it is the first
one. -/
theorem exists_last_cons_iff {α : Type} {P Q : α → Prop} {a : α} {l : List α} :
    (∃ before b after, a :: l = before ++ b :: after ∧ P b ∧ ∀ c ∈ after, Q c) ↔
      (∃ before b after, l = before ++ b :: after ∧ P b ∧ ∀ c ∈ after, Q c) ∨
        P a ∧ ∀ c ∈ l, Q c := by
  constructor
  · rintro ⟨_ | ⟨_, before⟩, b, after, hl, hb, hafter⟩
    · obtain ⟨rfl, rfl⟩ := List.cons.inj hl
      exact .inr ⟨hb, hafter⟩
    · obtain ⟨rfl, rfl⟩ := List.cons.inj hl
      exact .inl ⟨before, b, after, rfl, hb, hafter⟩
  · rintro (⟨before, b, after, rfl, hb, hafter⟩ | ⟨ha, hl⟩)
    · exact ⟨a :: before, b, after, rfl, hb, hafter⟩
    · exact ⟨[], a, l, rfl, ha, hl⟩

theorem get?_of_foldlM_defineLine {lines : List (List Char)} {n : Nat} {t u : CategoryTable}
    (h : (lines.zipIdx n).foldlM defineLine t = .ok u) {letter : Char} {members : List Word} :
    u.get? letter = some members ↔
      (∃ before line after, lines = before ++ line :: after ∧ Defines line letter members ∧
        ∀ later ∈ after, ∀ members, ¬ Defines later letter members) ∨
      t.get? letter = some members ∧
        ∀ line ∈ lines, ∀ members, ¬ Defines line letter members := by
  induction lines generalizing n t with
  | nil =>
    obtain rfl := pure_eq_ok_iff.mp h
    simp
  | cons line lines ih =>
    rw [List.zipIdx_cons, List.foldlM_cons] at h
    obtain ⟨_, hline, h⟩ := bind_eq_ok_iff.mp h
    obtain ⟨category, hcategory, rfl⟩ := defineLine_eq_ok_iff.mp hline
    have hdefines : ∀ ms, category = some (letter, ms) ↔ Defines line letter ms := fun ms => by
      rw [← definition_eq_some_iff, hcategory, Except.ok.injEq]
    simp only [ih h, get?_put_eq_some_iff, exists_last_cons_iff, List.forall_mem_cons, hdefines,
      ne_eq, or_and_right, or_assoc, and_assoc]

/-! ## Blank lines -/

/-- The lines of a text that are not blank. -/
def writtenLines (text : List Char) : List (List Char) :=
  (text.splitOn '\n').filter fun line => !line.all Text.isBlank

theorem foldlM_defineLine_filter (lines : List (List Char × Nat)) (t : CategoryTable) :
    (lines.filter fun line => !line.1.all Text.isBlank).foldlM defineLine t =
      lines.foldlM defineLine t := by
  rw [List.foldlM_filter]
  refine congrArg (fun f => lines.foldlM f t) (funext fun u => funext fun line => ?_)
  split
  case isTrue => rfl
  case isFalse hblank =>
    have hblank : ∀ c ∈ line.1, Text.isBlank c = true := by simpa using hblank
    rw [defineLine_eq, definition_of_blank hblank]
    rfl

/-- But for the number of a line, only the lines that are not blank count. -/
theorem ofPlainText_unnumbered (text : List Char) :
    (ofPlainText text).mapError (CategoryFault.renumber fun _ => 0) =
      ((writtenLines text).map (·, 0)).foldlM defineLine empty := by
  have hlines : ((text.splitOn '\n').zipIdx 1).map (Prod.map id fun _ => 0) =
      (text.splitOn '\n').map (·, 0) := by
    conv_rhs => rw [← List.zipIdx_map_fst 1 (text.splitOn '\n'), List.map_map]
    rfl
  rw [ofPlainText_eq, ← foldlM_defineLine_renumber, hlines, ← foldlM_defineLine_filter,
    List.filter_map]
  rfl

/-! ## Texts -/

/-- A text that is joined from two gives the table of the second one merged into that of the first
one, the fault of the first one, or that of the second one on a line further down. So a fault is
that of the first line that misdefines something, the last definition of a letter stays, and blank
lines do no more than count as lines. -/
theorem ofPlainText_line_by_line :
    (∀ a b : List Char,
      (∀ s t, ofPlainText a = .ok s → ofPlainText b = .ok t →
        ofPlainText (a ++ '\n' :: b) = .ok (s.merge t) ∧
          ∀ letter, (s.merge t).get? letter = (t.get? letter).or (s.get? letter)) ∧
      (∀ fault, ofPlainText a = .error fault → ofPlainText (a ++ '\n' :: b) = .error fault) ∧
      ∀ s line cause, ofPlainText a = .ok s → ofPlainText b = .error (.misdefined line cause) →
        ofPlainText (a ++ '\n' :: b) = .error (.misdefined (1 + a.count '\n' + line) cause)) ∧
    ∀ text : List Char,
      (∀ fault, ofPlainText text = .error fault ↔
        ∃ before line after cause, text.splitOn '\n' = before ++ line :: after ∧
          (∀ earlier ∈ before, ∀ cause, ¬ Misdefines earlier cause) ∧ Misdefines line cause ∧
          fault = .misdefined (before.length + 1) cause) ∧
      (∀ t, ofPlainText text = .ok t → ∀ letter members, t.get? letter = some members ↔
        ∃ before line after, text.splitOn '\n' = before ++ line :: after ∧
          Defines line letter members ∧
          ∀ later ∈ after, ∀ members, ¬ Defines later letter members) ∧
      ∀ text', writtenLines text = writtenLines text' →
        (ofPlainText text).mapError (CategoryFault.renumber fun _ => 0) =
          (ofPlainText text').mapError (CategoryFault.renumber fun _ => 0) := by
  refine ⟨fun a b => ⟨fun s t ha hb => ⟨?_, get?_merge s t⟩, fun fault ha => ?_,
    fun s line cause ha hb => ?_⟩, fun text => ⟨fun fault => ofPlainText_eq_error_iff,
    fun t h letter members => ?_, fun text' hlines => ?_⟩⟩
  · rw [ofPlainText_append, ha, hb]
    rfl
  · rw [ofPlainText_append, ha]
    rfl
  · rw [ofPlainText_append, ha, hb]
    rfl
  · rw [ofPlainText_eq] at h
    rw [get?_of_foldlM_defineLine h]
    simp
  · rw [ofPlainText_unnumbered, ofPlainText_unnumbered, hlines]

/-- The texts end with a carriage return or a line feed, and begin with one. -/
theorem ofPlainText_line_by_line_at_seams :
    ofPlainText ("V=ae\r".toList ++ '\n' :: "\nV = a, o\nc=x".toList) =
        .error (.misdefined 4 (.badName ['c'])) ∧
      ofPlainText ("V ae\n".toList ++ '\n' :: "c=x".toList) =
        .error (.misdefined 1 .noEqualsSign) ∧
      ∃ t, ofPlainText ("V=ae\nC=pt\n".toList ++ '\n' :: "\nV = a, oo".toList) = .ok t ∧
        t.get? 'V' = some [['a'], ['o', 'o']] ∧ t.get? 'C' = some [['p'], ['t']] := by
  obtain ⟨hjoined, -⟩ := ofPlainText_line_by_line
  refine ⟨(hjoined _ _).2.2 _ 3 _ rfl rfl, (hjoined _ _).2.1 _ rfl, ?_⟩
  obtain ⟨h, hget⟩ := (hjoined "V=ae\nC=pt\n".toList "\nV = a, oo".toList).1 _ _ rfl rfl
  exact ⟨_, h, hget 'V', hget 'C'⟩

end CategoryTable

end SoundChange
