import SoundChange.Proofs.Rule.Shape
import SoundChange.Proofs.RuleLine.Reading

/-!
# Named and inline categories

A category can be referred to by its letter or written inline, member by member. A rule asks its
target, its change and its else-change which members they list, or finds that they are no text; both
forms answer alike.

* `changeAtEdge_of_listsMembers`, `asText_of_listsMembers`: a list of members is no change at a word
  edge and none for a text.
* `inlineMembers_ofMembers`: the members of an inline category are those it was written for.
* `apply_of_interchange`: two rules that list the same members where they differ.
* `apply_inlined`: a rule and one with a category of its fields written inline.
-/

set_option autoImplicit false

namespace SoundChange

/-! ## Lists of members where a text is asked for -/

namespace Pattern

theorem isText_eq_false_of_listsMembers {p : Pattern} (h : listsMembers p = true) :
    isText p = false := by
  refine Bool.eq_false_iff.mpr fun ht => ?_
  rw [listsMembers_eq_false_of_isText ht] at h
  cases h

theorem asText_of_listsMembers {p : Pattern} (h : listsMembers p = true) :
    asText p = .error .unfitChange := by
  rw [asText, isText_eq_false_of_listsMembers h]
  rfl

theorem exists_mem_not_isLiteralOrEdge {p : Pattern} (h : listsMembers p = true) :
    ∃ t ∈ p, Symbol.isLiteralOrEdge t = false := by
  rcases listsMembers_iff.mp h with ⟨letter, rfl⟩ | hi
  · exact ⟨.category letter, .head _, rfl⟩
  · obtain ⟨hc, -⟩ := Bool.and_eq_true_iff.mp hi
    exact ⟨.comma, List.contains_iff_mem.mp hc, rfl⟩

end Pattern

namespace Rule

theorem changeAtEdge_of_listsMembers (target : Pattern) {change : Pattern}
    (h : Pattern.listsMembers change = true) (w : Word) :
    changeAtEdge target change w = .error .unfitChange := by
  obtain ⟨t, ht, hn⟩ := Pattern.exists_mem_not_isLiteralOrEdge h
  exact changeAtEdge_of_not_isLiteralOrEdge target ht hn w

end Rule

/-! ## The same members -/

/-- The patterns are the same, or both list members, and the same ones. -/
def Pattern.Interchange (table : CategoryTable) (p q : Pattern) : Prop :=
  q = p ∨ listsMembers p = true ∧ listsMembers q = true ∧ members table q = members table p

/-- The rules have the same conditions, and the other fields of one can be put in the place of those
of the other. -/
structure Rule.Interchange (table : CategoryTable) (r s : Rule) : Prop where
  target : Pattern.Interchange table r.target s.target
  change : Pattern.Interchange table r.change s.change
  environment : s.environment = r.environment
  exception : s.exception = r.exception
  elseChange : Option.Rel (Pattern.Interchange table) r.elseChange s.elseChange

section
variable {table : CategoryTable} {p q : Pattern}

namespace Pattern.Interchange

theorem targetShape?_eq (h : Interchange table p q) : targetShape? q = targetShape? p := by
  obtain rfl | ⟨hp, hq, -⟩ := h
  · rfl
  · rw [targetShape?_of_listsMembers hp, targetShape?_of_listsMembers hq]

theorem members_eq (h : Interchange table p q) : members table q = members table p := by
  obtain rfl | ⟨-, -, hm⟩ := h
  · rfl
  · exact hm

/-- Outside rules about members there is one way only to write a target. -/
theorem eq_of_targetShape? (h : Interchange table p q) (hp : targetShape? p ≠ some .members) :
    q = p := by
  obtain rfl | ⟨hp', -, -⟩ := h
  · rfl
  · exact absurd (targetShape?_of_listsMembers hp') hp

theorem asText_eq (h : Interchange table p q) : asText q = asText p := by
  obtain rfl | ⟨hp, hq, -⟩ := h
  · rfl
  · rw [asText_of_listsMembers hp, asText_of_listsMembers hq]

theorem ofPattern_eq (h : Interchange table p q) :
    Substitute.ofPattern table q = Substitute.ofPattern table p := by
  obtain rfl | ⟨hp, hq, hm⟩ := h
  · rfl
  · rw [Substitute.ofPattern, Substitute.ofPattern, if_pos hp, if_pos hq, hm]

theorem changeAtEdge_eq (h : Interchange table p q) (target : Pattern) (w : Word) :
    Rule.changeAtEdge target q w = Rule.changeAtEdge target p w := by
  obtain rfl | ⟨hp, hq, -⟩ := h
  · rfl
  · rw [Rule.changeAtEdge_of_listsMembers target hp, Rule.changeAtEdge_of_listsMembers target hq]

end Pattern.Interchange

namespace Rule

variable {r s : Rule}

theorem verdict_of_interchange {m : Type → Type} [Monad m] (h : r.Interchange table s)
    (holds : Alternative → m Bool) : s.verdict holds = r.verdict holds := by
  rw [verdict, verdict, h.environment, h.exception]

theorem select_of_interchange (h : r.Interchange table s) (v : Verdict) :
    Option.Rel (Pattern.Interchange table) (v.select r.change r.elseChange)
      (v.select s.change s.elseChange) := by
  cases v with
  | change => exact .some h.change
  | elseChange => exact h.elseChange
  | keep => exact .none

theorem applyAtEdge_of_interchange (h : r.Interchange table s) (htarget : s.target = r.target)
    (w : Word) : s.applyAtEdge table w = r.applyAtEdge table w := by
  rw [applyAtEdge, applyAtEdge, verdict_of_interchange h, htarget]
  refine bind_congr fun v => ?_
  have hselect := select_of_interchange h v
  generalize v.select r.change r.elseChange = old at hselect ⊢
  generalize v.select s.change s.elseChange = new at hselect ⊢
  cases hselect with
  | none => rfl
  | some hp => exact hp.changeAtEdge_eq r.target w

theorem substitutes_of_interchange (h : r.Interchange table s) :
    s.substitutes table = r.substitutes table := by
  have helse := h.elseChange
  rw [substitutes, substitutes, h.change.ofPattern_eq]
  generalize r.elseChange = old at helse ⊢
  generalize s.elseChange = new at helse ⊢
  cases helse with
  | none => rfl
  | some hp =>
    dsimp only
    rw [hp.ofPattern_eq]

theorem applyToMembers_of_interchange (h : r.Interchange table s) (members : List Word)
    (w : Word) : s.applyToMembers table members w = r.applyToMembers table members w := by
  simp only [applyToMembers, pieceAt, substitutes_of_interchange h, verdict_of_interchange h]

theorem applyToOccurrences_of_interchange (h : r.Interchange table s) (needle w : Word) :
    s.applyToOccurrences table needle w = r.applyToOccurrences table needle w := by
  have helse : s.elseChange.mapM Pattern.asText = r.elseChange.mapM Pattern.asText := by
    have helse := h.elseChange
    generalize r.elseChange = old at helse ⊢
    generalize s.elseChange = new at helse ⊢
    cases helse with
    | none => rfl
    | some hp => exact congrArg (some <$> ·) hp.asText_eq
  simp only [applyToOccurrences, h.change.asText_eq, helse, verdict_of_interchange h]

/-- What a rule does hangs on the members that its fields list, not on how they are written. -/
theorem apply_of_interchange (h : r.Interchange table s) (w : Word) :
    s.apply table w = r.apply table w := by
  rw [apply, apply, h.target.targetShape?_eq]
  split
  case h_1 hshape =>
    have htarget := h.target.eq_of_targetShape? (by simp [hshape])
    exact applyAtEdge_of_interchange h htarget w
  case h_2 =>
    rw [h.target.members_eq]
    exact bind_congr fun members => applyToMembers_of_interchange h members w
  case h_3 hshape =>
    rw [h.target.eq_of_targetShape? (by simp [hshape])]
    exact applyToOccurrences_of_interchange h _ w
  case h_4 => rfl

end Rule

end

/-! ## Members written inline -/

namespace Pattern

/-- Members as an inline category: their literals, with commas between the members. -/
def ofMembers (members : List Word) : Pattern :=
  [Symbol.comma].intercalate (members.map (·.map Symbol.literal))

theorem ofMembers_singleton (member : Word) : ofMembers [member] = member.map .literal :=
  List.intercalate_singleton

theorem ofMembers_cons_cons (first second : Word) (others : List Word) :
    ofMembers (first :: second :: others) =
      first.map .literal ++ .comma :: ofMembers (second :: others) := by
  simp [ofMembers, List.intercalate_cons_cons]

theorem mem_ofMembers {members : List Word} {t : Symbol} (h : t ∈ ofMembers members) :
    t = .comma ∨ ∃ c, t = .literal c := by
  have hliteral {w : Word} (ht : t ∈ w.map Symbol.literal) : t = .comma ∨ ∃ c, t = .literal c := by
    obtain ⟨c, -, rfl⟩ := List.mem_map.mp ht
    exact .inr ⟨c, rfl⟩
  induction members with
  | nil => cases h
  | cons first others ih =>
    cases others with
    | nil => exact hliteral (ofMembers_singleton first ▸ h)
    | cons second others =>
      rw [ofMembers_cons_cons, List.mem_append, List.mem_cons] at h
      rcases h with h | rfl | h
      · exact hliteral h
      · exact .inl rfl
      · exact ih h

theorem splitOn_ofMembers {members : List Word} (h : members ≠ []) :
    (ofMembers members).splitOn .comma = members.map (·.map Symbol.literal) := by
  rw [ofMembers, List.splitOn_intercalate]
  · simp
  · simpa using h

theorem inlineMembers_ofMembers {members : List Word} (h : members ≠ []) :
    inlineMembers (ofMembers members) = members := by
  rw [inlineMembers, splitOn_ofMembers h, List.map_map]
  simp [Function.comp_def]

theorem isInlineCategory_ofMembers {members : List Word} (h : 2 ≤ members.length) :
    isInlineCategory (ofMembers members) = true := by
  refine Bool.and_eq_true_iff.mpr ⟨List.contains_iff_mem.mpr ?_, List.all_eq_true.mpr ?_⟩
  · match members, h with
    | first :: second :: others, _ => simp [ofMembers_cons_cons]
  · intro t ht
    obtain rfl | ⟨c, rfl⟩ := mem_ofMembers ht
    · rfl
    · rfl

theorem members_ofMembers (table : CategoryTable) {members : List Word}
    (h : 2 ≤ members.length) : Pattern.members table (ofMembers members) = .ok members := by
  have hne : members ≠ [] := List.ne_nil_of_length_pos (by omega)
  have hletter : categoryLetter? (ofMembers members) = none := by
    refine Option.eq_none_iff_forall_ne_some.mpr fun letter hl => ?_
    have hi := isInlineCategory_ofMembers h
    rw [categoryLetter?_eq_some_iff.mp hl] at hi
    cases hi
  rw [Pattern.members, hletter, ← inlineMembers_ofMembers hne]
  simp [inlineMembers_ofMembers hne]

/-- `q` is `p`, or it lists the members of the category that `p` names. -/
inductive Inlined (letter : Char) (members : List Word) : Pattern → Pattern → Prop where
  | kept (p : Pattern) : Inlined letter members p p
  | inlined : Inlined letter members [.category letter] (ofMembers members)

theorem Inlined.interchange {table : CategoryTable} {letter : Char} {members : List Word}
    (h : table.get? letter = some members) (hlen : 2 ≤ members.length) {p q : Pattern}
    (hpq : Inlined letter members p q) : Interchange table p q := by
  cases hpq with
  | kept => exact .inl rfl
  | inlined =>
    refine .inr ⟨rfl, listsMembers_iff.mpr (.inr (isInlineCategory_ofMembers hlen)), ?_⟩
    rw [members_ofMembers table hlen, Pattern.members, categoryLetter?]
    simp only [h]
    rfl

end Pattern

/-- The rules are the same but for fields of the first that are the category, of which each is that
category or an inline one in the second. -/
structure Rule.Inlined (letter : Char) (members : List Word) (r s : Rule) : Prop where
  target : Pattern.Inlined letter members r.target s.target
  change : Pattern.Inlined letter members r.change s.change
  environment : s.environment = r.environment
  exception : s.exception = r.exception
  elseChange : Option.Rel (Pattern.Inlined letter members) r.elseChange s.elseChange

theorem Rule.Inlined.interchange {table : CategoryTable} {letter : Char} {members : List Word}
    (h : table.get? letter = some members) (hlen : 2 ≤ members.length) {r s : Rule}
    (hrs : r.Inlined letter members s) : r.Interchange table s where
  target := hrs.target.interchange h hlen
  change := hrs.change.interchange h hlen
  environment := hrs.environment
  exception := hrs.exception
  elseChange := by
    obtain ⟨-, -, -, -, helse⟩ := hrs
    generalize r.elseChange = old at helse ⊢
    generalize s.elseChange = new at helse ⊢
    cases helse with
    | none => exact .none
    | some hp => exact .some (hp.interchange h hlen)

/-! ## The line of an inline category -/

namespace RuleLine

/-- Members as they can be written in a field: escaped, with commas between them. -/
def writeMembers (members : List Word) : List Char :=
  [','].intercalate (members.map escape)

theorem flatMap_write_ofMembers (members : List Word) :
    (Pattern.ofMembers members).flatMap Symbol.write = writeMembers members := by
  have hmember (w : Word) : (w.map Symbol.literal).flatMap Symbol.write = escape w := by
    rw [List.flatMap_map]
    rfl
  induction members with
  | nil => rfl
  | cons first others ih =>
    cases others with
    | nil => simp [Pattern.ofMembers_singleton, hmember, writeMembers]
    | cons second others =>
      rw [Pattern.ofMembers_cons_cons, List.flatMap_append, List.flatMap_cons, hmember, ih]
      simp [writeMembers, List.intercalate_cons_cons, Symbol.write]

theorem fitsOther_ofMembers {members : List Word} (hne : members ≠ [])
    (h : ∀ m ∈ members, m ≠ []) : (Pattern.ofMembers members).FitsOther := by
  refine ⟨fun hb => ?_, fun hl => ?_, fun _ piece hpiece => ?_⟩
  · obtain h | ⟨c, h⟩ := Pattern.mem_ofMembers hb <;> cases h
  · obtain h | ⟨c, h⟩ := Pattern.mem_ofMembers hl <;> cases h
  · rw [Pattern.splitOn_ofMembers hne] at hpiece
    obtain ⟨m, hm, rfl⟩ := List.mem_map.mp hpiece
    exact ⟨fun hnil => h m hm (List.map_eq_nil_iff.mp hnil), Pattern.isText_map_literal m⟩

/-- Another pattern can be put in a field in which it fits. -/
theorem WellFormed.set {ps : List Pattern} (h : WellFormed ps) {i : Nat} {field : Field}
    (hi : Field.all[i]? = some field) {p : Pattern} (hfits : p.Fits field)
    (hproper : ∀ t ∈ p, Symbol.isProper t = true) : WellFormed (ps.set i p) where
  nonempty := by simpa using h.nonempty
  atMostFive := by simpa using h.atMostFive
  fits q hq := by
    obtain ⟨j, hj, rfl⟩ := List.mem_iff_getElem.mp hq
    rw [List.length_zip, List.length_set] at hj
    rw [List.getElem_zip, List.getElem_set]
    split
    case isTrue hij =>
      subst hij
      obtain ⟨hlt, rfl⟩ := List.getElem?_eq_some_iff.mp hi
      exact hfits
    case isFalse =>
      refine h.fits _ (List.mem_iff_getElem.mpr ⟨j, by rw [List.length_zip]; exact hj, ?_⟩)
      rw [List.getElem_zip]
  proper q hq t ht := by
    rcases List.mem_or_eq_of_mem_set hq with hq | rfl
    · exact h.proper q hq t ht
    · exact hproper t ht

theorem forall₂_set {α β : Type} {R : α → β → Prop} {as : List α} {bs : List β}
    (h : List.Forall₂ R as bs) (i : Nat) {a : α} {b : β} (hab : R a b) :
    List.Forall₂ R (as.set i a) (bs.set i b) := by
  induction h generalizing i with
  | nil => exact .nil
  | cons hcd hrest ih =>
    cases i with
    | zero => exact .cons hab hrest
    | succ i => exact .cons hcd (ih i)

end RuleLine

/-! ## Rules and lines -/

namespace Rule

/-- A category that is a whole target, change or else-change can be written inline, and the escaped
members with commas between them are read as that inline category in each of these fields. -/
theorem apply_inlined {table : CategoryTable} {letter : Char} {members : List Word}
    (h : table.get? letter = some members) (hlen : 2 ≤ members.length)
    (hne : ∀ m ∈ members, m ≠ []) :
    (∀ r s : Rule, r.Inlined letter members s → ∀ w, s.apply table w = r.apply table w) ∧
      ∀ ps fields, RuleLine.WellFormed ps → List.Forall₂ Pattern.Spells ps fields →
        ∀ i field, Field.all[i]? = some field → field.isCondition = false →
          RuleLine.read (['/'].intercalate (fields.set i (RuleLine.writeMembers members))) =
            .ok (ps.set i (Pattern.ofMembers members)) := by
  refine ⟨fun r s hrs w => apply_of_interchange (hrs.interchange h hlen) w, ?_⟩
  intro ps fields hps hspells i field hi hcond
  have hfits : (Pattern.ofMembers members).Fits field := by
    rw [Pattern.Fits, hcond]
    exact RuleLine.fitsOther_ofMembers (List.ne_nil_of_length_pos (by omega)) hne
  have hproper : ∀ t ∈ Pattern.ofMembers members, Symbol.isProper t = true := by
    intro t ht
    obtain rfl | ⟨c, rfl⟩ := Pattern.mem_ofMembers ht <;> rfl
  have hwritten : Pattern.Spells (Pattern.ofMembers members) (RuleLine.writeMembers members) :=
    RuleLine.flatMap_write_ofMembers members ▸ Pattern.spells_flatMap_write _
  have hset : RuleLine.WellFormed (ps.set i (Pattern.ofMembers members)) :=
    hps.set hi hfits hproper
  have hline := RuleLine.forall₂_set hspells i hwritten
  obtain ⟨p, rest, hcons⟩ := List.exists_cons_of_ne_nil hset.nonempty
  rw [hcons] at hset hline ⊢
  exact RuleLine.read_eq_ok_cons_iff.mpr
    (RuleLine.wellFormed_and_spells_iff.mp ⟨hset, _, hline, rfl⟩)

/-- The patterns of the line `V/M/_V//N`. -/
def marksBeforeVowels : List Pattern :=
  [[.category 'V'], [.category 'M'], [.locus, .category 'V'], [], [.category 'N']]

/-- The categories `V=a,e,i` and `N=x,y,z`, and `M` with the members `,`, `A` and `#b`. -/
def markTable : CategoryTable :=
  .ofList [('V', [['a'], ['e'], ['i']]), ('M', [[','], ['A'], ['#', 'b']]),
    ('N', [['x'], ['y'], ['z']])]

/-- Members that are marks or look like a category are written inline beside an else-change that is
a named category, and go with it. -/
theorem apply_marksBeforeVowels :
    let r : Rule := ⟨[.category 'V'], [.category 'M'], some [.locus, .category 'V'], some [],
      some [.category 'N']⟩
    let s : Rule := { r with change := [.literal ',', .comma, .literal 'A', .comma, .literal '#',
      .literal 'b'] }
    r.apply markTable "aei".toList = .ok ",Az".toList ∧
      s.apply markTable "aei".toList = .ok ",Az".toList ∧
      RuleLine.read "V/!,,!A,!#!b/_V//N".toList = .ok (marksBeforeVowels.set 1 s.change) := by
  intro r s
  obtain ⟨happly, hread⟩ :=
    @apply_inlined markTable 'M' [[','], ['A'], ['#', 'b']] rfl (by decide) (by decide)
  have hr : r.apply markTable "aei".toList = .ok ",Az".toList := rfl
  have hinlined : r.Inlined 'M' [[','], ['A'], ['#', 'b']] s :=
    ⟨.kept _, .inlined, rfl, rfl, .some (.kept _)⟩
  have hspells : List.Forall₂ Pattern.Spells marksBeforeVowels
      (marksBeforeVowels.map (·.flatMap Symbol.write)) :=
    List.forall₂_map_right_iff.mpr (List.forall₂_same.mpr fun p _ => p.spells_flatMap_write)
  exact ⟨hr, (happly r s hinlined _).trans hr,
    hread _ _ (by decide) hspells 1 .change rfl rfl⟩

end Rule

end SoundChange
