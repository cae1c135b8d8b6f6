import SoundChange.Proofs.CategoryTable
import SoundChange.Proofs.Condition.Tables

/-!
# Alternatives about the whole word

What comes of an alternative that is tried on a whole word: a fault for its shape, the fault of a
category that the table lacks, or a decision. A category that is lacking is not always asked for;
where it is not, the decision is the one that any table comes to that has it too.

* `exists_completes`: a table with all letters of an alternative.
* `matchesInWord_of_valid`: alternatives of a valid shape under a table that may lack letters.
* `matchesInWord_eq_error_iff`: alternatives of the other shapes.
* `matchesInWord_outcomes`: all alternatives.
-/

set_option autoImplicit false

namespace SoundChange

namespace Alternative

/-- The second table defines all letters of the alternative, and has of them what the first one
has. -/
structure Completes (alt : Alternative) (table table' : CategoryTable) : Prop where
  keeps : ∀ letter, .category letter ∈ alt → table.contains letter = true →
    table'.get? letter = table.get? letter
  defines : ∀ t ∈ alt, t.isDefinedIn table' = true

/-- The fault of a category of the alternative that the table lacks. -/
def Lacks (alt : Alternative) (table : CategoryTable) (fault : RuleFault) : Prop :=
  ∃ letter, .category letter ∈ alt ∧ table.contains letter = false ∧
    fault = .unknownCategory letter

section
variable {table table' : CategoryTable} {alt : Alternative}

/-! ## Letters that are lacking -/

theorem isDefinedIn_insert {t : Symbol} (h : t.isDefinedIn table = true) (letter : Char)
    (members : List Word) : t.isDefinedIn (table.insert letter members) = true := by
  cases t with
  | category l =>
    show (table.insert letter members).contains l = true
    rw [CategoryTable.contains_insert, Bool.or_eq_true]
    exact .inr h
  | _ => rfl

/-- The letters that are lacking can be added one by one. -/
theorem exists_completes (table : CategoryTable) (alt : Alternative) :
    ∃ table', alt.Completes table table' := by
  suffices h : ∃ table' : CategoryTable,
      (∀ letter, table.contains letter = true → table'.get? letter = table.get? letter) ∧
        ∀ t ∈ alt, t.isDefinedIn table' = true by
    obtain ⟨table', hkeeps, hdefines⟩ := h
    exact ⟨table', fun letter _ => hkeeps letter, hdefines⟩
  induction alt with
  | nil => exact ⟨table, fun _ _ => rfl, nofun⟩
  | cons t alt ih =>
    obtain ⟨table', hkeeps, hdefines⟩ := ih
    cases ht : t.isDefinedIn table' with
    | true => exact ⟨table', hkeeps, List.forall_mem_cons.mpr ⟨ht, hdefines⟩⟩
    | false =>
      cases t with
      | category letter =>
        have hlacks : table'.contains letter = false := ht
        refine ⟨table'.insert letter [], fun l hl => ?_, List.forall_mem_cons.mpr ⟨?_, ?_⟩⟩
        · have hne : l ≠ letter := by
            rintro rfl
            rw [CategoryTable.contains, hkeeps l hl] at hlacks
            exact Bool.noConfusion (hlacks.symm.trans hl)
          rw [CategoryTable.get?_insert, if_neg hne, hkeeps l hl]
        · show (table'.insert letter []).contains letter = true
          simp [CategoryTable.contains_insert]
        · exact fun s hs => isDefinedIn_insert (hdefines s hs) letter []
      | _ => cases ht

theorem Completes.agreeAt (h : alt.Completes table table') :
    ∀ letter, .category letter ∈ alt → AgreeAt (alt.Lacks table) table table' letter := by
  intro letter hl
  cases hc : table.contains letter with
  | true => exact .inl (h.keeps letter hl hc).symm
  | false =>
    have hnone : table.get? letter = none := by simpa [CategoryTable.contains] using hc
    exact .inr ⟨hnone, letter, hl, hc, rfl⟩

/-! ## Outcomes -/

/-- The alternatives of a valid shape are decided, or stopped by a category that is lacking. -/
theorem matchesInWord_of_valid (h : alt.ValidInWord) (w : Word) :
    (∃ fault, matchesInWord table w alt = .error fault ∧ alt.Lacks table fault) ∨
      ∃ b, matchesInWord table w alt = .ok b ∧
        ∀ table', alt.Completes table table' → (b = true ↔ HoldsIn table' alt w) := by
  cases hout : matchesInWord table w alt with
  | error fault =>
    obtain ⟨table', hc⟩ := exists_completes table alt
    obtain ⟨b, hb⟩ := matchesInWord_ok h hc.defines w
    rcases matchesInWord_agree hc.agreeAt w with heq | ⟨fault', hlacks, hfault⟩
    · rw [hout, hb] at heq
      cases heq
    · obtain rfl := Except.error.inj (hout.symm.trans hfault)
      exact .inl ⟨fault, rfl, hlacks⟩
  | ok b =>
    refine .inr ⟨b, rfl, fun table' hc => ?_⟩
    obtain ⟨b', hb', hiff⟩ := matchesInWord_decides h hc.defines w
    have heq := (matchesInWord_agree hc.agreeAt w).eq_of_not_excused fun fault _ => by
      rw [hout]
      nofun
    rw [hout, hb'] at heq
    rwa [Except.ok.inj heq]

theorem matchesInWord_ne_error (h : alt.ValidInWord) (w : Word) {fault : RuleFault}
    (hf : ∀ letter, fault ≠ .unknownCategory letter) :
    matchesInWord table w alt ≠ .error fault := by
  intro hout
  rcases @matchesInWord_of_valid table _ h w with ⟨_, hfault, letter, -, -, rfl⟩ | ⟨b, hb, -⟩
  · exact hf letter (Except.error.inj (hout.symm.trans hfault))
  · rw [hb] at hout
    cases hout

theorem matchesInWord_of_not_edgesAtEnds (hl : .locus ∉ alt) (hcount : Pattern.edgeCount alt ≤ 1)
    (hends : ¬ alt.EdgesAtEnds) (w : Word) :
    matchesInWord table w alt = .error .misplacedEdge := by
  have hinner : .edge ∈ alt.tail.dropLast := not_not.mp fun h => hends (edgesAtEnds_iff.mpr h)
  rcases edge_cases hcount with he | ⟨ts, rfl, he⟩ | ⟨ts, rfl, he⟩ | ⟨he, hhead, hlast⟩
  · exact absurd (List.mem_of_mem_tail (List.dropLast_subset _ hinner)) he
  · exact absurd (List.dropLast_subset _ hinner) he
  · rw [← List.tail_dropLast, List.dropLast_concat] at hinner
    exact absurd (List.mem_of_mem_tail hinner) he
  · exact matchesInWord_of_misplaced hl (Nat.not_lt.mpr hcount) he hhead hlast w

/-- The faults that the shape of an alternative makes for. -/
theorem matchesInWord_eq_error_iff (table : CategoryTable) (w : Word) (alt : Alternative) :
    (matchesInWord table w alt = .error .locusInWordCondition ↔ .locus ∈ alt) ∧
    (matchesInWord table w alt = .error .tooManyEdges ↔
      .locus ∉ alt ∧ 1 < Pattern.edgeCount alt) ∧
    (matchesInWord table w alt = .error .misplacedEdge ↔
      .locus ∉ alt ∧ Pattern.edgeCount alt ≤ 1 ∧ ¬ alt.EdgesAtEnds) := by
  by_cases hl : .locus ∈ alt
  · rw [matchesInWord_of_locus_mem hl w]
    simp [hl]
  by_cases hmany : 1 < Pattern.edgeCount alt
  · rw [matchesInWord_of_tooManyEdges hl hmany w]
    simp [hl, hmany, Nat.not_le.mpr hmany]
  by_cases hends : alt.EdgesAtEnds
  · have h : alt.ValidInWord := ⟨hl, Nat.not_lt.mp hmany, hends⟩
    exact ⟨iff_of_false (matchesInWord_ne_error h w nofun) hl,
      iff_of_false (matchesInWord_ne_error h w nofun) fun h => hmany h.2,
      iff_of_false (matchesInWord_ne_error h w nofun) fun h => h.2.2 hends⟩
  · rw [matchesInWord_of_not_edgesAtEnds hl (Nat.not_lt.mp hmany) hends w]
    simp [hl, hmany, hends, Nat.not_lt.mp hmany]

/-- What comes of an alternative on a whole word. Its shape makes for one of three faults, whatever
the word and the table; an alternative that has none of them is decided if its letters are defined,
and if some of them are not, it is stopped at one of these or decided as if it had them. -/
theorem matchesInWord_outcomes (table : CategoryTable) (w : Word) (alt : Alternative) :
    (matchesInWord table w alt = .error .locusInWordCondition ↔ .locus ∈ alt) ∧
    (matchesInWord table w alt = .error .tooManyEdges ↔
      .locus ∉ alt ∧ 1 < Pattern.edgeCount alt) ∧
    (matchesInWord table w alt = .error .misplacedEdge ↔
      .locus ∉ alt ∧ Pattern.edgeCount alt ≤ 1 ∧ ¬ alt.EdgesAtEnds) ∧
    (alt.ValidInWord → (∀ t ∈ alt, t.isDefinedIn table = true) →
      Decides (matchesInWord table w alt) (HoldsIn table alt w)) ∧
    (alt.ValidInWord →
      (∃ fault, matchesInWord table w alt = .error fault ∧ alt.Lacks table fault) ∨
        ∃ b, matchesInWord table w alt = .ok b ∧
          ∀ table', alt.Completes table table' → (b = true ↔ HoldsIn table' alt w)) := by
  obtain ⟨hlocus, hmany, hmisplaced⟩ := matchesInWord_eq_error_iff table w alt
  exact ⟨hlocus, hmany, hmisplaced, fun h hd => matchesInWord_decides h hd w,
    fun h => matchesInWord_of_valid h w⟩

end

/-- The alternative `kV` without any categories: it is decided where no `k` has a character behind
it, and no table with the category comes to another decision. -/
theorem matchesInWord_outcomes_unasked :
    ValidInWord [.literal 'k', .category 'V'] ∧
      matchesInWord .empty ['t', 'k', 'a'] [.literal 'k', .category 'V'] =
        .error (.unknownCategory 'V') ∧
      matchesInWord .empty ['t', 'a', 'k'] [.literal 'k', .category 'V'] = .ok false ∧
      ∀ members, ¬ HoldsIn (CategoryTable.empty.insert 'V' members)
        [.literal 'k', .category 'V'] ['t', 'a', 'k'] := by
  have hvalid : ValidInWord [.literal 'k', .category 'V'] := by decide
  have hcompletes : ∀ members, Completes [.literal 'k', .category 'V'] .empty
      (CategoryTable.empty.insert 'V' members) := fun members =>
    ⟨nofun, by simp [Symbol.isDefinedIn, CategoryTable.contains_insert]⟩
  have h := matchesInWord_outcomes .empty ['t', 'a', 'k'] [.literal 'k', .category 'V']
  refine ⟨hvalid, rfl, rfl, fun members hholds => ?_⟩
  rcases h.2.2.2.2 hvalid with ⟨_, hfault, -⟩ | ⟨b, hb, hiff⟩
  · cases hfault
  · rw [(hiff _ (hcompletes members)).mpr hholds] at hb
    cases hb

end Alternative

end SoundChange
