import SoundChange.Proofs.Outcome
import SoundChange.Proofs.Pattern
import SoundChange.Proofs.RuleLine.Spelling

/-!
# Reading what was spelled

A line is read as patterns exactly when it spells them and they are well formed. The passes of the
reader are undone one by one: what it keeps while it reads a field (`Progress.Accepts`), what it
reads behind the field (`AcceptsBehind`), and the check of members at the end (`fits_iff`).

* `continues_end`, `continues_separator`, `continues_symbol`: what is left of a line, by what is
  left of the pattern that is read.
* `continues_of_readFrom`, `readFrom_of_continues`: the two directions, for any rest of a line.
* `accepts_condition_iff`, `accepts_other_iff`: the fields that are accepted to their end.
* `read_eq_ok_iff`: the whole line.
-/

set_option autoImplicit false

namespace SoundChange.RuleLine

/-! ## One symbol -/

/-- The symbol that an unescaped character other than a separator stands for. -/
def symbolOfChar : Char → Symbol
  | ',' => .comma
  | '#' => .edge
  | '|' => .bar
  | '_' => .locus
  | c => if Text.isUppercase c then .category c else .literal c

/-- The progress of a field after one more symbol, if the field can go on with it. -/
def Progress.after? (field : Field) (progress : Progress) : Symbol → Option Progress
  | .comma => if field.isCondition then none else some (.within progress.hasLocus)
  | .bar =>
    match progress with
    | .within _ => if field.isCondition then some .afterBar else none
    | _ => none
  | .locus => if field.isCondition && !progress.hasLocus then some (.within true) else none
  | _ => some (.within progress.hasLocus)

theorem symbolOf_eq_ok_iff {field : Field} {progress next : Progress} {c : Char} {t : Symbol} :
    symbolOf field progress c = .ok (t, next) ↔
      symbolOfChar c = t ∧ progress.after? field (symbolOfChar c) = some next := by
  unfold symbolOf symbolOfChar
  split
  case h_1 => cases field <;> simp [Field.isCondition, Progress.after?]
  case h_2 => simp [Progress.after?]
  case h_3 => cases field <;> cases progress <;> simp [Field.isCondition, Progress.after?]
  case h_4 =>
    cases hf : field.isCondition <;> cases hl : progress.hasLocus <;> simp [Progress.after?, hf, hl]
  case h_5 =>
    by_cases hu : Text.isUppercase c = true
    · simp [hu, Progress.after?]
    · simp [hu, Progress.after?]

theorem not_isUppercase_of_mem_marks {c : Char} (h : c ∈ marks) : Text.isUppercase c = false := by
  have hall : marks.all (fun d => !Text.isUppercase d) = true := by decide
  simpa using List.all_eq_true.mp hall c h

theorem symbolOfChar_of_not_mem_marks {c : Char} (h : c ∉ marks) :
    symbolOfChar c = if Text.isUppercase c then .category c else .literal c := by
  simp only [marks, List.mem_cons, not_or] at h
  simp [symbolOfChar, h]

theorem spells_symbolOfChar {c : Char} (he : c ≠ '!') (hs : c ≠ '/') :
    (symbolOfChar c).Spells [c] := by
  by_cases hm : c ∈ marks
  · simp only [marks, List.mem_cons, he, hs, false_or, List.not_mem_nil, or_false] at hm
    rcases hm with rfl | rfl | rfl | rfl
    · exact .comma
    · exact .edge
    · exact .bar
    · exact .locus
  · rw [symbolOfChar_of_not_mem_marks hm]
    cases hu : Text.isUppercase c with
    | true => exact .category c
    | false => exact .plain hm hu

theorem isProper_symbolOfChar (c : Char) : (symbolOfChar c).isProper = true := by
  unfold symbolOfChar
  split
  case h_5 => cases hu : Text.isUppercase c <;> simp [hu, Symbol.isProper]
  all_goals rfl

/-- A spelling is an escaped character or a single one that is neither escape nor separator. -/
theorem escaped_or_char_of_spells {t : Symbol} {s : List Char} (h : t.Spells s)
    (ht : t.isProper = true) : (∃ c, t = .literal c ∧ s = ['!', c]) ∨
      ∃ c, t = symbolOfChar c ∧ s = [c] ∧ c ≠ '!' ∧ c ≠ '/' := by
  cases h with
  | escaped c => exact .inl ⟨c, rfl, rfl⟩
  | @plain c hm hu =>
    refine .inr ⟨c, by simp [symbolOfChar_of_not_mem_marks hm, hu], rfl, ?_, ?_⟩
    all_goals rintro rfl; exact hm (by decide)
  | category letter =>
    have hm : letter ∉ marks := fun hm => by
      simp [Symbol.isProper, not_isUppercase_of_mem_marks hm] at ht
    have hu : Text.isUppercase letter = true := ht
    refine .inr ⟨letter, by simp [symbolOfChar_of_not_mem_marks hm, hu], rfl, ?_, ?_⟩
    all_goals rintro rfl; exact hm (by decide)
  | comma => exact .inr ⟨',', rfl, rfl, by decide, by decide⟩
  | edge => exact .inr ⟨'#', rfl, rfl, by decide, by decide⟩
  | bar => exact .inr ⟨'|', rfl, rfl, by decide, by decide⟩
  | locus => exact .inr ⟨'_', rfl, rfl, by decide, by decide⟩

/-! ## One field after the other -/

/-- Whether a field that stands at `progress` can go on with the symbols of `p` to its end. -/
def Progress.Accepts (field : Field) : Progress → Pattern → Prop
  | progress, [] => progress ≠ .afterBar
  | progress, t :: p => ∃ next, progress.after? field t = some next ∧ next.Accepts field p

/-- Whether the fields behind `field` can hold patterns, one after the other. -/
def AcceptsBehind (field : Field) (ps : List Pattern) : Prop :=
  ps.length ≤ field.behind.length ∧
    ∀ q ∈ field.behind.zip ps, Progress.start.Accepts q.1 q.2

theorem behind_of_next? {field next : Field} (h : field.next? = some next) :
    field.behind = next :: next.behind := by
  cases field <;> cases h <;> rfl

theorem behind_of_next?_eq_none {field : Field} (h : field.next? = none) : field.behind = [] := by
  cases field with
  | elseChange => rfl
  | _ => cases h

theorem acceptsBehind_nil (field : Field) : AcceptsBehind field [] := by
  simp [AcceptsBehind]

theorem acceptsBehind_cons {field : Field} {p : Pattern} {ps : List Pattern} :
    AcceptsBehind field (p :: ps) ↔
      ∃ next, field.next? = some next ∧ Progress.start.Accepts next p ∧ AcceptsBehind next ps := by
  cases h : field.next? with
  | none => simp [AcceptsBehind, behind_of_next?_eq_none h]
  | some next =>
    simp only [AcceptsBehind, behind_of_next? h, List.length_cons, Nat.add_le_add_iff_right,
      List.zip_cons_cons, List.forall_mem_cons, Option.some.injEq, exists_eq_left']
    exact and_left_comm

/-- What a line has to be from a place in a field on to leave `p` of the pattern of the field, and
the patterns `ps` behind it. -/
structure Continues (field : Field) (progress : Progress) (line : List Char) (p : Pattern)
    (ps : List Pattern) : Prop where
  accepted : progress.Accepts field p
  behind : AcceptsBehind field ps
  proper : ∀ q ∈ p :: ps, ∀ t ∈ q, Symbol.isProper t = true
  spelled : Spells (p :: ps) line

theorem continues_end {field : Field} {progress : Progress} {line : List Char} :
    Continues field progress line [] [] ↔ progress ≠ .afterBar ∧ line = [] := by
  constructor
  · intro h
    exact ⟨h.accepted, spells_end.mp h.spelled⟩
  · rintro ⟨hp, rfl⟩
    exact ⟨hp, acceptsBehind_nil field, by simp, spells_end.mpr rfl⟩

theorem continues_separator {field : Field} {progress : Progress} {line : List Char} {p : Pattern}
    {ps : List Pattern} :
    Continues field progress line [] (p :: ps) ↔ progress ≠ .afterBar ∧
      ∃ next rest, field.next? = some next ∧ line = '/' :: rest ∧
        Continues next .start rest p ps := by
  constructor
  · intro h
    obtain ⟨next, hn, hp, hps⟩ := acceptsBehind_cons.mp h.behind
    obtain ⟨rest, hl, hr⟩ := spells_separator.mp h.spelled
    exact ⟨h.accepted, next, rest, hn, hl, hp, hps, fun q hq => h.proper q (.tail _ hq), hr⟩
  · rintro ⟨ha, next, rest, hn, hl, h⟩
    refine ⟨ha, acceptsBehind_cons.mpr ⟨next, hn, h.accepted, h.behind⟩, ?_,
      spells_separator.mpr ⟨rest, hl, h.spelled⟩⟩
    intro q hq
    rcases List.mem_cons.mp hq with rfl | hq
    · simp
    · exact h.proper q hq

theorem continues_symbol {field : Field} {progress : Progress} {line : List Char} {t : Symbol}
    {p : Pattern} {ps : List Pattern} :
    Continues field progress line (t :: p) ps ↔ t.isProper = true ∧
      ∃ s rest next, t.Spells s ∧ line = s ++ rest ∧ progress.after? field t = some next ∧
        Continues field next rest p ps := by
  constructor
  · intro h
    obtain ⟨next, hn, hp⟩ := h.accepted
    obtain ⟨s, rest, ht, hl, hr⟩ := spells_symbol.mp h.spelled
    refine ⟨h.proper _ (.head _) t (.head _), s, rest, next, ht, hl, hn, hp, h.behind, ?_, hr⟩
    intro q hq u hu
    rcases List.mem_cons.mp hq with rfl | hq
    · exact h.proper _ (.head _) u (.tail _ hu)
    · exact h.proper q (.tail _ hq) u hu
  · rintro ⟨htp, s, rest, next, ht, hl, hn, h⟩
    refine ⟨⟨next, hn, h.accepted⟩, h.behind, ?_, spells_symbol.mpr ⟨s, rest, ht, hl, h.spelled⟩⟩
    intro q hq u hu
    rcases List.mem_cons.mp hq with rfl | hq
    · rcases List.mem_cons.mp hu with rfl | hu
      · exact htp
      · exact h.proper p (.head _) u hu
    · exact h.proper q (.tail _ hq) u hu

/-! ## The reader -/

theorem readFrom_escape {field : Field} {progress : Progress} {c : Char} {rest : List Char} :
    readFrom field progress ('!' :: c :: rest) =
      prepend (.literal c) <$> readFrom field (.within progress.hasLocus) rest := by
  rw [readFrom]

theorem readFrom_separator {field next : Field} {progress : Progress} {rest : List Char}
    (hp : progress ≠ .afterBar) (hn : field.next? = some next) :
    readFrom field progress ('/' :: rest) = openPattern <$> readFrom next .start rest := by
  simp [readFrom, checkEnd, hp, hn]

theorem readFrom_char {field : Field} {progress : Progress} {c : Char} {rest : List Char}
    (he : c ≠ '!') (hs : c ≠ '/') :
    readFrom field progress (c :: rest) = (do
      let (t, progress') ← symbolOf field progress c
      prepend t <$> readFrom field progress' rest) := by
  rw [readFrom]
  · simp [hs]
  · simp [he]
  · simp [he]

theorem checkEnd_eq_ok_iff {progress : Progress} :
    checkEnd progress = .ok () ↔ progress ≠ .afterBar := by
  by_cases h : progress = .afterBar <;> simp [checkEnd, h]

/-- A character that begins no escape, in the form in which the equations of a reader say it. -/
theorem ne_escape {c : Char} {rest : List Char} (h₁ : c = '!' → rest = [] → False)
    (h₂ : ∀ d others, c = '!' → rest = d :: others → False) : c ≠ '!' := by
  rintro rfl
  cases rest with
  | nil => exact h₁ rfl rfl
  | cons d others => exact h₂ d others rfl rfl

theorem continues_of_readFrom {field : Field} {progress : Progress} {line : List Char} {p : Pattern}
    {ps : List Pattern} (h : readFrom field progress line = .ok (p, ps)) :
    Continues field progress line p ps := by
  fun_induction readFrom field progress line generalizing p ps with
  | case1 field progress =>
    obtain ⟨_, he, h⟩ := bind_eq_ok_iff.mp h
    cases h
    exact continues_end.mpr ⟨checkEnd_eq_ok_iff.mp he, rfl⟩
  | case2 => simp at h
  | case3 field progress c rest ih =>
    obtain ⟨⟨q, qs⟩, hr, h⟩ := map_eq_ok_iff.mp h
    cases h
    exact continues_symbol.mpr ⟨rfl, _, rest, _, .escaped c, rfl, rfl, ih hr⟩
  | case4 field progress rest _ _ ih =>
    obtain ⟨_, he, h⟩ := bind_eq_ok_iff.mp h
    split at h
    · simp at h
    · rename_i next hn
      obtain ⟨⟨q, qs⟩, hr, h⟩ := map_eq_ok_iff.mp h
      cases h
      exact continues_separator.mpr ⟨checkEnd_eq_ok_iff.mp he, next, rest, hn, rfl, ih next hr⟩
  | case5 field progress c rest h₁ h₂ hs ih =>
    obtain ⟨⟨t, next⟩, ht, h⟩ := bind_eq_ok_iff.mp h
    obtain ⟨⟨q, qs⟩, hr, h⟩ := map_eq_ok_iff.mp h
    cases h
    obtain ⟨rfl, hn⟩ := symbolOf_eq_ok_iff.mp ht
    exact continues_symbol.mpr ⟨isProper_symbolOfChar c, _, rest, next,
      spells_symbolOfChar (ne_escape h₁ h₂) hs, rfl, hn, ih next hr⟩

theorem readFrom_symbol {field : Field} {progress next : Progress} {s rest : List Char}
    {t : Symbol} {p : Pattern} {ps : List Pattern} (ht : t.isProper = true) (hs : t.Spells s)
    (hn : progress.after? field t = some next) (hr : readFrom field next rest = .ok (p, ps)) :
    readFrom field progress (s ++ rest) = .ok (t :: p, ps) := by
  rcases escaped_or_char_of_spells hs ht with ⟨c, rfl, rfl⟩ | ⟨c, rfl, rfl, he, hc⟩
  · cases hn
    show readFrom field progress ('!' :: c :: rest) = _
    rw [readFrom_escape, hr]
    rfl
  · show readFrom field progress (c :: rest) = _
    rw [readFrom_char he hc, symbolOf_eq_ok_iff.mpr ⟨rfl, hn⟩]
    show prepend _ <$> readFrom field next rest = _
    rw [hr]
    rfl

theorem readFrom_of_continues {field : Field} {progress : Progress} {line : List Char} {p : Pattern}
    {ps : List Pattern} (h : Continues field progress line p ps) :
    readFrom field progress line = .ok (p, ps) := by
  induction ps generalizing field progress line p with
  | nil =>
    induction p generalizing progress line with
    | nil =>
      obtain ⟨hp, rfl⟩ := continues_end.mp h
      rw [readFrom, checkEnd_eq_ok_iff.mpr hp]
      rfl
    | cons t p ih =>
      obtain ⟨ht, s, rest, next, hs, rfl, hn, hr⟩ := continues_symbol.mp h
      exact readFrom_symbol ht hs hn (ih hr)
  | cons q qs ihq =>
    induction p generalizing progress line with
    | nil =>
      obtain ⟨hp, next, rest, hn, rfl, hr⟩ := continues_separator.mp h
      rw [readFrom_separator hp hn, ihq hr]
      rfl
    | cons t p ih =>
      obtain ⟨ht, s, rest, next, hs, rfl, hn, hr⟩ := continues_symbol.mp h
      exact readFrom_symbol ht hs hn (ih hr)

/-! ## What the progress makes of a field -/

/-- The alternatives that can follow at `progress`, the first of them being the rest of the current
one. -/
def Progress.Permits (progress : Progress) : List Alternative → Prop
  | [] => True
  | alt :: alts =>
    (progress = .start ∨ progress = .afterBar → alt ≠ []) ∧
      alt.count .locus + progress.hasLocus.toNat ≤ 1 ∧ ∀ a ∈ alts, Alternative.Fits a

/-- Where no alternative was begun, those that fit are permitted. -/
theorem permits_iff {progress : Progress} (h : progress = .start ∨ progress = .afterBar)
    {alts : List Alternative} : progress.Permits alts ↔ ∀ a ∈ alts, Alternative.Fits a := by
  cases alts with
  | nil => simp [Progress.Permits]
  | cons a alts =>
    rcases h with rfl | rfl
    all_goals simp [Progress.Permits, Progress.hasLocus, Alternative.Fits, and_assoc]

theorem permits_within {b : Bool} {alt : Alternative} {alts : List Alternative} :
    (Progress.within b).Permits (alt :: alts) ↔
      alt.count .locus + b.toNat ≤ 1 ∧ ∀ a ∈ alts, Alternative.Fits a := by
  simp [Progress.Permits, Progress.hasLocus]

/-- A condition is accepted if it has no comma and its alternatives are permitted. That its pattern
may be empty shows at its start only. -/
theorem accepts_condition_iff {field : Field} (hf : field.isCondition = true) {progress : Progress}
    {p : Pattern} (hp : progress ≠ .start ∨ p ≠ []) :
    progress.Accepts field p ↔ .comma ∉ p ∧ progress.Permits (Pattern.alternatives p) := by
  induction p generalizing progress with
  | nil =>
    have hp : progress ≠ .start := by simpa using hp
    have ha : Pattern.alternatives [] = [[]] := rfl
    cases progress with
    | start => exact absurd rfl hp
    | afterBar => simp [Progress.Accepts, ha, Progress.Permits]
    | within b => simp [Progress.Accepts, ha, permits_within, Bool.toNat_le]
  | cons t p ih =>
    by_cases ht : t = .bar
    · subst ht
      have hbar := @ih .afterBar (.inl nofun)
      rw [permits_iff (.inr rfl)] at hbar
      rw [Pattern.alternatives_bar]
      cases progress with
      | start => simp [Progress.Accepts, Progress.after?, Progress.Permits]
      | afterBar => simp [Progress.Accepts, Progress.after?, Progress.Permits]
      | within b =>
        simp [Progress.Accepts, Progress.after?, hf, hbar, permits_within, Bool.toNat_le]
    · obtain ⟨alt, alts, h, h'⟩ := Pattern.alternatives_cons ht p
      have hwithin := fun b => @ih (.within b) (.inl nofun)
      simp only [h, permits_within] at hwithin
      rw [h']
      cases t with
      | comma => simp [Progress.Accepts, Progress.after?, hf]
      | bar => exact absurd rfl ht
      | locus =>
        cases hl : progress.hasLocus with
        | false => simp [Progress.Accepts, Progress.after?, hf, hl, hwithin, Progress.Permits]
        | true => simp [Progress.Accepts, Progress.after?, hf, hl, Progress.Permits]
      | literal _ | category _ | edge =>
        simp [Progress.Accepts, Progress.after?, hwithin, Progress.Permits]

theorem accepts_other_iff {field : Field} (hf : field.isCondition = false) {progress : Progress}
    (hp : progress ≠ .afterBar) {p : Pattern} :
    progress.Accepts field p ↔ .bar ∉ p ∧ .locus ∉ p := by
  induction p generalizing progress with
  | nil => simp [Progress.Accepts, hp]
  | cons t p ih =>
    have hwithin := fun b => @ih (.within b) nofun
    cases t with
    | bar => cases progress <;> simp [Progress.Accepts, Progress.after?, hf]
    | locus => simp [Progress.Accepts, Progress.after?, hf]
    | literal _ | category _ | comma | edge =>
      simp [Progress.Accepts, Progress.after?, hf, hwithin]

theorem checkMember_eq_ok_iff {member : List Symbol} :
    checkMember member = .ok () ↔ member ≠ [] ∧ Pattern.isText member = true := by
  unfold checkMember
  cases member with
  | nil => simp
  | cons t member => cases h : Pattern.isText (t :: member) <;> simp

theorem checkMembers_eq_ok_iff {p : Pattern} :
    checkMembers p = .ok () ↔
      (.comma ∈ p → ∀ member ∈ p.splitOn .comma, member ≠ [] ∧ Pattern.isText member = true) := by
  unfold checkMembers
  by_cases h : Symbol.comma ∈ p
  · simp [h, forM_eq_ok_iff, checkMember_eq_ok_iff]
  · simp [h]

/-- A pattern fits into a field if it is accepted while it is read and its members pass the check
afterwards. -/
theorem fits_iff {field : Field} {p : Pattern} :
    p.Fits field ↔ Progress.start.Accepts field p ∧ checkMembers p = .ok () := by
  rw [checkMembers_eq_ok_iff]
  cases hf : field.isCondition with
  | true =>
    simp only [Pattern.Fits, hf, Pattern.FitsCondition, if_true]
    by_cases hp : p = []
    · simp [hp, Progress.Accepts]
    · rw [accepts_condition_iff hf (.inr hp), permits_iff (.inl rfl)]
      simp +contextual [hp]
  | false =>
    simp [Pattern.Fits, hf, Pattern.FitsOther, accepts_other_iff, and_assoc]

theorem forall_mem_zip_right {α β : Type} {l : List α} {r : List β} (h : r.length ≤ l.length)
    {P : β → Prop} : (∀ q ∈ l.zip r, P q.2) ↔ ∀ b ∈ r, P b := by
  conv_rhs => rw [← List.map_snd_zip h]
  simp only [List.forall_mem_map]

theorem read_eq_ok_cons_iff {line : List Char} {p : Pattern} {ps : List Pattern} :
    read line = .ok (p :: ps) ↔
      Continues .target .start line p ps ∧ ∀ q ∈ p :: ps, checkMembers q = .ok () := by
  unfold read
  rw [bind_eq_ok_iff]
  constructor
  · rintro ⟨⟨first, others⟩, hr, h⟩
    obtain ⟨_, hm, h⟩ := bind_eq_ok_iff.mp h
    cases h
    exact ⟨continues_of_readFrom hr, forM_eq_ok_iff.mp hm⟩
  · rintro ⟨hr, hm⟩
    exact ⟨(p, ps), readFrom_of_continues hr, bind_eq_ok_iff.mpr ⟨(), forM_eq_ok_iff.mpr hm, rfl⟩⟩

theorem wellFormed_and_spells_iff {p : Pattern} {ps : List Pattern} {line : List Char} :
    WellFormed (p :: ps) ∧ Spells (p :: ps) line ↔
      Continues .target .start line p ps ∧ ∀ q ∈ p :: ps, checkMembers q = .ok () := by
  have hzip : Field.all.zip (p :: ps) = (.target, p) :: Field.target.behind.zip ps := rfl
  constructor
  · rintro ⟨⟨-, hlen, hfits, hproper⟩, hs⟩
    have hlen : ps.length ≤ Field.target.behind.length := Nat.le_of_succ_le_succ hlen
    rw [hzip, List.forall_mem_cons] at hfits
    obtain ⟨ha, hm⟩ := fits_iff.mp hfits.1
    refine ⟨⟨ha, ⟨hlen, fun q hq => (fits_iff.mp (hfits.2 q hq)).1⟩, hproper, hs⟩, ?_⟩
    rw [List.forall_mem_cons]
    exact ⟨hm, (forall_mem_zip_right hlen).mp fun q hq => (fits_iff.mp (hfits.2 q hq)).2⟩
  · rintro ⟨⟨ha, ⟨hlen, hbehind⟩, hproper, hs⟩, hm⟩
    rw [List.forall_mem_cons] at hm
    have hms := (forall_mem_zip_right hlen).mpr hm.2
    refine ⟨⟨nofun, Nat.succ_le_succ hlen, ?_, hproper⟩, hs⟩
    rw [hzip, List.forall_mem_cons]
    exact ⟨fits_iff.mpr ⟨ha, hm.1⟩, fun q hq => fits_iff.mpr ⟨hbehind q hq, hms q hq⟩⟩

/-- A line is read as patterns if and only if they are well formed and the line spells them; in
particular, well-formed patterns are read back from the line that escapes all their literals. -/
theorem read_eq_ok_iff (line : List Char) (ps : List Pattern) :
    (read line = .ok ps ↔ WellFormed ps ∧ Spells ps line) ∧
      (WellFormed ps → read (write ps) = .ok ps) := by
  have hiff (line : List Char) : read line = .ok ps ↔ WellFormed ps ∧ Spells ps line := by
    cases ps with
    | nil =>
      constructor
      · intro h
        obtain ⟨⟨first, others⟩, -, h⟩ := bind_eq_ok_iff.mp h
        obtain ⟨_, -, h⟩ := bind_eq_ok_iff.mp h
        cases h
      · rintro ⟨h, -⟩
        exact absurd rfl h.nonempty
    | cons p ps => rw [read_eq_ok_cons_iff, wellFormed_and_spells_iff]
  exact ⟨hiff line, fun h => (hiff _).mpr ⟨h, spells_write ps⟩⟩

/-- Patterns with every kind of literal that has to be escaped, in fields of both kinds. -/
def markedPatterns : List Pattern :=
  [[.category 'V'], [.literal 'A', .comma, .literal '/', .literal ','],
    [.edge, .literal '_', .locus, .bar, .locus, .literal '|', .edge], [], [.literal '!', .edge]]

theorem read_write_markedPatterns :
    WellFormed markedPatterns ∧ read (write markedPatterns) = .ok markedPatterns :=
  have h : WellFormed markedPatterns := by decide
  ⟨h, (read_eq_ok_iff (write markedPatterns) markedPatterns).2 h⟩

end SoundChange.RuleLine
