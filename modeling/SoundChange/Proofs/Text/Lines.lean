import Mathlib.Data.List.TakeWhile
import SoundChange.Text.Blank
import SoundChange.Text.Lines

/-!
# Lines without the blanks around them

What the lines of a text are, and what is left of a line without the blanks around it, is said here
without going through the text: a text is put together from its lines and their ends, a line from
blanks and what stands between them.

* `Lines`, `lines_iff`: the lines of a text.
* `Trims`, `trims_iff`: a line without the blanks around it.
* `trim_eq_nil_iff`, `trim_dropReturn`: lines of nothing but blanks, and the end of a line.
-/

set_option autoImplicit false

namespace SoundChange.Text

/-! ## Lines -/

/-- The lines of a text: each is ended by a line feed, and a carriage return in front of that
belongs to the end. The last line needs no end, unless it is empty. -/
inductive Lines : List Char → List (List Char) → Prop where
  | nil : Lines [] []
  | last {line : List Char} (hne : line ≠ []) (hline : '\n' ∉ line) : Lines line [line]
  | feed {line rest : List Char} {ls : List (List Char)} (hline : '\n' ∉ line)
      (hend : line.getLast? ≠ some '\r') (hrest : Lines rest ls) :
      Lines (line ++ '\n' :: rest) (line :: ls)
  | returnFeed {line rest : List Char} {ls : List (List Char)} (hline : '\n' ∉ line)
      (hrest : Lines rest ls) : Lines (line ++ '\r' :: '\n' :: rest) (line :: ls)

theorem lines_of_newline_not_mem {line : List Char} (hne : line ≠ []) (hline : '\n' ∉ line) :
    lines line = [line] := by
  rw [lines, List.splitOn_eq_singleton hline, endedLines, if_neg (by simpa using hne)]

theorem lines_append_newline {line : List Char} (hline : '\n' ∉ line) (rest : List Char) :
    lines (line ++ '\n' :: rest) = dropReturn line :: lines rest := by
  obtain ⟨piece, pieces, hpieces⟩ := List.exists_cons_of_ne_nil (List.splitOn_ne_nil '\n' rest)
  rw [lines, lines, List.splitOn_append_cons_self, List.splitOn_eq_singleton hline, hpieces]
  rfl

theorem Lines.lines_eq {text : List Char} {ls : List (List Char)} (h : Lines text ls) :
    lines text = ls := by
  induction h with
  | nil => rfl
  | last hne hline => exact lines_of_newline_not_mem hne hline
  | feed hline hend _ ih => rw [lines_append_newline hline, ih, dropReturn, if_neg hend]
  | @returnFeed line rest ls hline _ ih =>
    have hreturn : '\n' ∉ line ++ ['\r'] := by simpa using hline
    have hlines := lines_append_newline hreturn rest
    rw [List.append_assoc, List.singleton_append] at hlines
    rw [hlines, ih, dropReturn_append_return]

/-- Every text is put together from its lines. -/
theorem lines_lines (text : List Char) : Lines text (lines text) := by
  -- On the length of the text: what is behind the first line feed is shorter.
  induction hlength : text.length using Nat.strongRecOn generalizing text with
  | ind n ih =>
    by_cases hfeed : '\n' ∈ text
    · obtain ⟨line, rest, rfl, hline⟩ := List.eq_append_cons_of_mem hfeed
      have hrest := ih rest.length (by simp [← hlength]; omega) rest rfl
      rw [lines_append_newline hline]
      by_cases hend : line.getLast? = some '\r'
      · obtain ⟨front, rfl⟩ := List.getLast?_eq_some_iff.mp hend
        rw [dropReturn_append_return, List.append_assoc, List.singleton_append]
        exact .returnFeed (fun h => hline (List.mem_append_left _ h)) hrest
      · rw [dropReturn, if_neg hend]
        exact .feed hline hend hrest
    · by_cases hne : text = []
      · rw [hne]
        exact .nil
      · rw [lines_of_newline_not_mem hne hfeed]
        exact .last hne hfeed

theorem lines_iff {text : List Char} {ls : List (List Char)} :
    Lines text ls ↔ lines text = ls :=
  ⟨Lines.lines_eq, fun h => h ▸ lines_lines text⟩

/-! ## Blanks -/

/-- There are only blanks around what is left of a line, and it has none at its own ends. -/
inductive Trims (line w : List Char) : Prop where
  | intro {before behind : List Char} (hline : line = before ++ w ++ behind)
      (hbefore : ∀ c ∈ before, isBlank c = true) (hbehind : ∀ c ∈ behind, isBlank c = true)
      (hfirst : ∀ c, w.head? = some c → isBlank c = false)
      (hlast : ∀ c, w.getLast? = some c → isBlank c = false) : Trims line w

/-- The blanks in front of a text that does not start with one are dropped, and nothing else. -/
theorem dropWhile_isBlank_append {before w : List Char} (hbefore : ∀ c ∈ before, isBlank c = true)
    (hfirst : ∀ c, w.head? = some c → isBlank c = false) :
    (before ++ w).dropWhile isBlank = w := by
  rw [List.dropWhile_append_of_pos hbefore]
  cases w with
  | nil => rfl
  | cons c w => simp [hfirst c rfl]

theorem trimRight_append {w behind : List Char} (hbehind : ∀ c ∈ behind, isBlank c = true)
    (hlast : ∀ c, w.getLast? = some c → isBlank c = false) : trimRight (w ++ behind) = w := by
  have hreverse : ∀ c ∈ behind.reverse, isBlank c = true := by simpa using hbehind
  have hhead : ∀ c, w.reverse.head? = some c → isBlank c = false := by simpa using hlast
  rw [trimRight, List.reverse_append, dropWhile_isBlank_append hreverse hhead,
    List.reverse_reverse]

theorem Trims.trim_eq {line w : List Char} (h : Trims line w) : trim line = w := by
  obtain @⟨before, behind, rfl, hbefore, hbehind, hfirst, hlast⟩ := h
  cases w with
  | nil =>
    -- A line of blanks is dropped from the front alone.
    have hblank : ∀ c ∈ before ++ behind, isBlank c = true :=
      List.forall_mem_append.mpr ⟨hbefore, hbehind⟩
    have hdrop := dropWhile_isBlank_append (w := []) hblank nofun
    rw [List.append_nil] at hdrop
    rw [trim, List.append_nil, hdrop]
    rfl
  | cons c w =>
    have hhead : ∀ d, (c :: w ++ behind).head? = some d → isBlank d = false := hfirst
    rw [trim, List.append_assoc, dropWhile_isBlank_append hbefore hhead,
      trimRight_append hbehind hlast]

/-- Only blanks are dropped at the end of a text. -/
theorem exists_trimRight_append (s : List Char) :
    ∃ behind, s = trimRight s ++ behind ∧ ∀ c ∈ behind, isBlank c = true := by
  refine ⟨(s.reverse.takeWhile isBlank).reverse, ?_, fun c hc => ?_⟩
  · rw [trimRight, ← List.reverse_append, List.takeWhile_append_dropWhile, List.reverse_reverse]
  · exact List.mem_takeWhile_imp (List.mem_reverse.mp hc)

theorem isBlank_of_head?_dropWhile {s : List Char} {c : Char}
    (h : (s.dropWhile isBlank).head? = some c) : isBlank c = false := by
  have hnot := List.head?_dropWhile_not isBlank s
  rw [h] at hnot
  exact hnot

theorem trims_trim (line : List Char) : Trims line (trim line) := by
  obtain ⟨behind, hbehind, hblank⟩ := exists_trimRight_append (line.dropWhile isBlank)
  refine @Trims.intro _ _ (line.takeWhile isBlank) behind ?_ (fun c => List.mem_takeWhile_imp)
    hblank ?_ ?_
  · rw [trim, List.append_assoc, ← hbehind, List.takeWhile_append_dropWhile]
  · intro c hc
    -- What is left of the line starts as the line does behind its blanks.
    refine isBlank_of_head?_dropWhile (s := line) ?_
    rw [hbehind, List.head?_append, show (trimRight _).head? = some c from hc]
    rfl
  · intro c hc
    rw [trim, trimRight, List.getLast?_reverse] at hc
    exact isBlank_of_head?_dropWhile hc

theorem trims_iff {line w : List Char} : Trims line w ↔ trim line = w :=
  ⟨Trims.trim_eq, fun h => h ▸ trims_trim line⟩

theorem trim_eq_nil_iff {line : List Char} : trim line = [] ↔ ∀ c ∈ line, isBlank c = true := by
  rw [← trims_iff]
  constructor
  · rintro @⟨before, behind, rfl, hbefore, hbehind, -, -⟩
    rw [List.append_nil]
    exact List.forall_mem_append.mpr ⟨hbefore, hbehind⟩
  · intro hblank
    exact @Trims.intro line [] line [] (by simp) hblank nofun nofun nofun

/-- A carriage return at the end of a line is one of the blanks around it. -/
theorem trim_dropReturn (line : List Char) : trim (dropReturn line) = trim line := by
  rw [dropReturn]
  split
  case isTrue hend =>
    obtain ⟨front, rfl⟩ := List.getLast?_eq_some_iff.mp hend
    obtain @⟨before, behind, hfront, hbefore, hbehind, hfirst, hlast⟩ := trims_trim front
    have hreturn : ∀ c ∈ behind ++ ['\r'], isBlank c = true :=
      List.forall_mem_append.mpr ⟨hbehind, List.forall_mem_singleton.mpr rfl⟩
    rw [List.dropLast_concat, eq_comm, ← trims_iff]
    refine .intro ?_ hbefore hreturn hfirst hlast
    rw [← List.append_assoc, ← hfront]
  case isFalse => rfl

end SoundChange.Text
