import SoundChange.Proofs.Cascade.Run

/-!
# Lists of words

What a cascade makes of the words of a list can be had in one go: an observer is shown the steps of
a word while they are made, keeps them or lets them go, and what it has kept is given up if a later
rule fails. None of this shows in what comes out, so that each word fares as it would alone.

* `Cascade.watch`: a run that shows its steps to an observer.
* `watch_of_run_eq_ok`, `watch_of_run_eq_error`: the run is the same for every observer, which is
  shown the steps in their order.
* `derive_eq_deriveWatched`: a word of a list, by an observer that collects steps.
* `deriveEach_accords`: what becomes of a list, by what becomes of its words.
-/

set_option autoImplicit false

namespace SoundChange

/-! ## Observers -/

/-- Takes a word through numbered entries and shows each step to an observer when it is made. What
the observer has noted by then is there even if a later rule fails. -/
def watchEntries {σ : Type} (table : CategoryTable) (note : σ → Step → σ) :
    List (RuleText.Entry × Nat) → Word → σ → Except CascadeFault Word × σ
  | [], w, s => (.ok w, s)
  | (.comment, _) :: rest, w, s => watchEntries table note rest w s
  | (.rule r, line) :: rest, w, s =>
    match r.apply table w with
    | .error cause => (.error (.inapplicable line cause), s)
    | .ok next =>
      if next = w then watchEntries table note rest w s
      else watchEntries table note rest next (note s ⟨line, w, next⟩)

section
variable {σ : Type} (note : σ → Step → σ) {table : CategoryTable} {r : Rule} {w : Word}

theorem watchEntries_rule_error {cause : RuleFault} (h : r.apply table w = .error cause)
    (line : Nat) (entries : List (RuleText.Entry × Nat)) (s : σ) :
    watchEntries table note ((.rule r, line) :: entries) w s =
      (.error (.inapplicable line cause), s) := by
  rw [watchEntries, h]

theorem watchEntries_rule_ok {next : Word} (h : r.apply table w = .ok next) (line : Nat)
    (entries : List (RuleText.Entry × Nat)) (s : σ) :
    watchEntries table note ((.rule r, line) :: entries) w s =
      watchEntries table note entries next (if next = w then s else note s ⟨line, w, next⟩) := by
  rw [watchEntries, h]
  by_cases hn : next = w
  · simp [hn]
  · simp [hn]

/-- An observer of a run that succeeds is shown the steps in their order; of a run that fails it has
seen the steps before the failure, and the failure is the same. -/
theorem watchEntries_eq (entries : List (RuleText.Entry × Nat)) (s : σ) :
    (∀ output steps, runEntries table entries w = .ok (output, steps) →
      watchEntries table note entries w s = (.ok output, steps.foldl note s)) ∧
    ∀ fault, runEntries table entries w = .error fault →
      (watchEntries table note entries w s).1 = .error fault := by
  induction entries generalizing w s with
  | nil =>
    refine ⟨fun output steps h => ?_, nofun⟩
    cases h
    rfl
  | cons entry entries ih =>
    obtain ⟨entry, line⟩ := entry
    cases entry with
    | comment => exact ih s
    | rule r =>
      cases ha : r.apply table w with
      | error cause =>
        rw [runEntries_rule_error ha, watchEntries_rule_error note ha]
        refine ⟨nofun, fun fault h => ?_⟩
        cases h
        rfl
      | ok next =>
        obtain ⟨ihOk, ihError⟩ := @ih next (if next = w then s else note s ⟨line, w, next⟩)
        rw [runEntries_rule_ok ha, watchEntries_rule_ok note ha]
        constructor
        · intro output steps h
          obtain ⟨run, hrun, hstep⟩ := map_eq_ok_iff.mp h
          obtain ⟨output', steps'⟩ := run
          cases hstep
          rw [ihOk output' steps' hrun]
          by_cases hn : next = w
          · simp [hn]
          · simp [hn]
        · exact fun fault h => ihError fault (map_eq_error_iff.mp h)

end

namespace Cascade

/-- Takes a word through the rules and shows each step to an observer when it is made. -/
def watch {σ : Type} (c : Cascade) (note : σ → Step → σ) (w : Word) (s : σ) :
    Except CascadeFault Word × σ :=
  match c.entries with
  | none => (.error .noRules, s)
  | some entries => watchEntries c.table note (entries.zipIdx 1) w s

/-- The observer that keeps all steps or none. -/
def collect (withSteps : Bool) (kept : List Step) (step : Step) : List Step :=
  if withSteps then kept ++ [step] else kept

/-- What becomes of a word whose run is watched; what was collected of a failed run is given up. -/
def deriveWatched (c : Cascade) (withSteps : Bool) (w : Word) : Derivation :=
  match c.watch (collect withSteps) w [] with
  | (.ok output, kept) => ⟨w, .ok output, kept⟩
  | (.error fault, _) => ⟨w, .error fault, []⟩

section
variable {σ : Type} {c : Cascade} {w : Word}

theorem watch_of_run_eq_ok {output : Word} {steps : List Step} (h : c.run w = .ok (output, steps))
    (note : σ → Step → σ) (s : σ) : c.watch note w s = (.ok output, steps.foldl note s) := by
  obtain ⟨table, _ | entries⟩ := c
  · cases h
  · exact (watchEntries_eq note _ s).1 output steps h

theorem watch_of_run_eq_error {fault : CascadeFault} (h : c.run w = .error fault)
    (note : σ → Step → σ) (s : σ) : (c.watch note w s).1 = .error fault := by
  obtain ⟨table, _ | entries⟩ := c
  · cases h
    rfl
  · exact (watchEntries_eq note _ s).2 fault h

end

theorem foldl_collect (withSteps : Bool) (steps kept : List Step) :
    steps.foldl (collect withSteps) kept = if withSteps then kept ++ steps else kept := by
  induction steps generalizing kept with
  | nil => simp
  | cons step steps ih =>
    rw [List.foldl_cons, ih]
    cases withSteps <;> simp [collect]

theorem derive_eq_deriveWatched (c : Cascade) (withSteps : Bool) (w : Word) :
    c.derive withSteps w = c.deriveWatched withSteps w := by
  rw [derive, deriveWatched]
  cases hrun : c.run w with
  | ok run =>
    obtain ⟨output, steps⟩ := run
    simp [watch_of_run_eq_ok hrun, foldl_collect]
  | error fault =>
    have hwatch := watch_of_run_eq_error hrun (collect withSteps) []
    generalize c.watch (collect withSteps) w [] = watched at hwatch ⊢
    obtain ⟨outcome, kept⟩ := watched
    obtain rfl : outcome = .error fault := hwatch
    rfl

/-! ## One word of a list -/

/-- What is said of a word in a list is what is said of it alone: its output, and its steps if they
are asked for, or the wording of its failure and no steps. -/
structure Accords (c : Cascade) (withSteps : Bool) (w : Word) (d : Derivation) : Prop where
  input : d.input = w
  ofOk : ∀ output, c.apply w = .ok output → d.output? = some output ∧ d.error? = none ∧
    if withSteps then c.steps w = .ok d.steps else d.steps = []
  ofError : ∀ fault, c.apply w = .error fault →
    d.output? = none ∧ d.error? = some fault.message ∧ d.steps = []

theorem derive_accords (c : Cascade) (withSteps : Bool) (w : Word) :
    c.Accords withSteps w (c.derive withSteps w) := by
  cases hrun : c.run w with
  | ok run =>
    obtain ⟨output, steps⟩ := run
    rw [derive, hrun]
    refine ⟨rfl, fun out h => ?_, fun fault h => ?_⟩
    · rw [apply, hrun] at h
      cases h
      refine ⟨rfl, rfl, ?_⟩
      rw [Cascade.steps, hrun]
      cases withSteps <;> rfl
    · rw [apply, hrun] at h
      cases h
  | error fault =>
    rw [derive, hrun]
    refine ⟨rfl, fun out h => ?_, fun other h => ?_⟩
    · rw [apply, hrun] at h
      cases h
    · rw [apply, hrun] at h
      cases h
      exact ⟨rfl, rfl, rfl⟩

theorem outcome_derive (c : Cascade) (withSteps withSteps' : Bool) (w : Word) :
    (c.derive withSteps w).outcome = (c.derive withSteps' w).outcome := by
  rw [derive, derive]
  cases c.run w <;> rfl

end Cascade

theorem Derivation.output?_or_error? (d : Derivation) :
    d.output?.isSome = !d.error?.isSome ∧ d.isOk = d.output?.isSome := by
  obtain ⟨input, outcome, steps⟩ := d
  cases outcome <;> exact ⟨rfl, rfl⟩

/-! ## All words of a list -/

namespace Cascade

/-- Each word of a list has its own entry, in the order of the list, that says what is said of the
word alone, as if the run had been watched. An entry has an output or an error and not both, what
comes out does not hang on steps being asked for, and the entries of words that are put together or
picked from a list by their places are put together or picked alike. -/
theorem deriveEach_accords (c : Cascade) (withSteps : Bool) (ws : List Word) :
    let ds := c.deriveEach withSteps ws
    List.Forall₂ (c.Accords withSteps) ws ds ∧
      ds = ws.map (c.deriveWatched withSteps) ∧
      (∀ d ∈ ds, d.output?.isSome = !d.error?.isSome ∧ d.isOk = d.output?.isSome) ∧
      (∀ b, (c.deriveEach b ws).map Derivation.outcome = ds.map Derivation.outcome) ∧
      (∀ ws', c.deriveEach withSteps (ws ++ ws') = ds ++ c.deriveEach withSteps ws') ∧
      ∀ places : List Nat,
        c.deriveEach withSteps (places.filterMap (ws[·]?)) = places.filterMap (ds[·]?) := by
  intro ds
  refine ⟨?_, ?_, fun d _ => d.output?_or_error?, fun b => ?_, fun ws' => ?_, fun places => ?_⟩
  · exact List.forall₂_map_right_iff.mpr (List.forall₂_same.mpr fun w _ =>
      derive_accords c withSteps w)
  · exact List.map_congr_left fun w _ => derive_eq_deriveWatched c withSteps w
  · simp only [ds, deriveEach, List.map_map]
    exact List.map_congr_left fun w _ => outcome_derive c b withSteps w
  · exact List.map_append
  · simp only [ds, deriveEach, List.map_filterMap, List.getElem?_map]

/-- The rules `#/un#` and `a,e/o/_V`. -/
def unknownVowel : Cascade where
  entries := some [.rule ⟨[.edge], [.literal 'u', .literal 'n', .edge], none, none, none⟩,
    .rule ⟨[.literal 'a', .comma, .literal 'e'], [.literal 'o'], some [.locus, .category 'V'], none,
      none⟩]

/-- The first word fails on the second line and leaves nothing of the step before, and the second
word is not touched by that. -/
theorem deriveEach_unknownVowel :
    ∃ d e, unknownVowel.deriveEach true ["ak".toList, "o".toList] = [d, e] ∧
      (d.output? = none ∧ d.error? = some "Unknown category 'V' on line 2" ∧ d.steps = []) ∧
      (e.output? = some "uno".toList ∧ e.error? = none ∧
        unknownVowel.steps "o".toList = .ok e.steps) ∧
      d.output?.isSome = !d.error?.isSome := by
  obtain ⟨hentries, -, hone, -⟩ := deriveEach_accords unknownVowel true ["ak".toList, "o".toList]
  obtain ⟨d, _, hd, hrest, hds⟩ := List.forall₂_cons_left_iff.mp hentries
  obtain ⟨e, _, he, hnil, rfl⟩ := List.forall₂_cons_left_iff.mp hrest
  obtain rfl := List.forall₂_nil_left_iff.mp hnil
  have hfails : unknownVowel.apply "ak".toList =
      .error (.inapplicable 2 (.unknownCategory 'V')) := rfl
  have hsucceeds : unknownVowel.apply "o".toList = .ok "uno".toList := rfl
  refine ⟨d, e, hds, hd.ofError _ hfails, he.ofOk _ hsucceeds, (hone d ?_).1⟩
  rw [hds]
  exact .head _

end Cascade

end SoundChange
