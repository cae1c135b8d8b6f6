import Mathlib.Data.Option.Defs
import SoundChange.Fault
import SoundChange.Proofs.Pattern
import SoundChange.Verdict

/-!
# How a verdict is reached

Alternatives are tried with anything that answers for them or fails, and that may keep a state of
its own while it does. Those of the exception are asked for in their order, then those of the
environment, and the first answer other than `false` ends it.

* `Trial`, `recorded`: a way to try alternatives, and one that writes down its calls.
* `Asks`, `Decided`: which calls there are, and what comes of their answers.
* `anyM_recorded`, `reach_recorded`: a list of alternatives, and both conditions of a rule.
* `reach_asks_and_decides`: the same of a trial that is not watched, and that the order and the
  number of alternatives do not count where each of them has one answer.
-/

set_option autoImplicit false

namespace SoundChange.Verdict

/-! ## Trials -/

/-- A computation that can fail, with a state of type `σ`. -/
abbrev Attempt (σ α : Type) := ExceptT RuleFault (StateM σ) α

/-- What comes of an attempt that begins in a state, and the state after it. -/
def Attempt.startedIn {σ α : Type} (s : σ) (x : Attempt σ α) : Except RuleFault α × σ :=
  Id.run (x.run.run s)

/-- A way to try alternatives. -/
abbrev Trial (σ : Type) := Alternative → Attempt σ Bool

/-- An alternative that was asked for, with the answer. -/
abbrev Call := Alternative × Except RuleFault Bool

/-- The trial that also writes down its calls. -/
def recorded {σ : Type} (holds : Trial σ) : Trial (σ × List Call) := fun alt =>
  ExceptT.mk fun (s, calls) =>
    let (answer, s') := (holds alt).startedIn s
    (answer, s', calls ++ [(alt, answer)])

/-- Alternatives are asked for one after the other until there are no more of them or there is an
answer other than `false`: the calls that a trial gets which is in the state `s` before them and in
the state `s'` after them. -/
inductive Asks {σ : Type} (holds : Trial σ) : σ → List Alternative → List Call → σ → Prop where
  | done (s : σ) : Asks holds s [] [] s
  | stop {s s' : σ} {alt : Alternative} {alts : List Alternative} {answer : Except RuleFault Bool} :
      (holds alt).startedIn s = (answer, s') → answer ≠ .ok false →
      Asks holds s (alt :: alts) [(alt, answer)] s'
  | next {s s' s'' : σ} {alt : Alternative} {alts : List Alternative} {calls : List Call} :
      (holds alt).startedIn s = (.ok false, s') → Asks holds s' alts calls s'' →
      Asks holds s (alt :: alts) ((alt, .ok false) :: calls) s''

/-- What comes of the calls for an exception and an environment. -/
inductive Decided (environment exception : Option Pattern) (calls : List Call) :
    Except RuleFault Verdict → Prop where
  | fault {alt : Alternative} {fault : RuleFault} : (alt, .error fault) ∈ calls →
      Decided environment exception calls (.error fault)
  /-- One of the exception's alternatives holds. -/
  | exceptionHolds {alt : Alternative} : (alt, .ok true) ∈ calls →
      calls.length ≤ (alternativesOf exception).length →
      Decided environment exception calls (.ok .elseChange)
  /-- None of them does, and the environment asks for nothing. -/
  | noEnvironment : (∀ call ∈ calls, call.2 = .ok false) →
      environment = none ∨ environment = some [] →
      Decided environment exception calls
        (.ok (if exception = some [] then .elseChange else .change))
  /-- None of them does, and one of the environment's does. -/
  | environmentHolds {alt : Alternative} : (alt, .ok true) ∈ calls →
      (alternativesOf exception).length < calls.length →
      Decided environment exception calls (.ok .change)
  /-- Nothing holds. -/
  | nothingHolds : (∀ call ∈ calls, call.2 = .ok false) →
      ¬ (environment = none ∨ environment = some []) →
      Decided environment exception calls
        (.ok (if exception = some [] then .elseChange else .keep))

section
variable {σ α β : Type}

theorem startedIn_bind_ok {x : Attempt σ α} {s s' : σ} {a : α} (h : x.startedIn s = (.ok a, s'))
    (f : α → Attempt σ β) : (x >>= f).startedIn s = (f a).startedIn s' := by
  have hx : x.run.run s = (.ok a, s') := h
  rw [Attempt.startedIn, ExceptT.run_bind, StateT.run_bind, hx]
  rfl

theorem startedIn_bind_error {x : Attempt σ α} {s s' : σ} {fault : RuleFault}
    (h : x.startedIn s = (.error fault, s')) (f : α → Attempt σ β) :
    (x >>= f).startedIn s = (.error fault, s') := by
  have hx : x.run.run s = (.error fault, s') := h
  rw [Attempt.startedIn, ExceptT.run_bind, StateT.run_bind, hx]
  rfl

theorem startedIn_recorded (holds : Trial σ) (alt : Alternative) (s : σ) (calls : List Call) :
    (recorded holds alt).startedIn (s, calls) =
      (((holds alt).startedIn s).1, ((holds alt).startedIn s).2,
        calls ++ [(alt, ((holds alt).startedIn s).1)]) := rfl

/-! ## One list of alternatives -/

/-- What calls come to: the last answer, and `false` if nothing was asked for. -/
def conclusion (calls : List Call) : Except RuleFault Bool :=
  (calls.getLast?.map Prod.snd).getD (.ok false)

theorem conclusion_false_cons (alt : Alternative) (calls : List Call) :
    conclusion ((alt, .ok false) :: calls) = conclusion calls := by
  cases calls with
  | nil => rfl
  | cons call calls => rw [conclusion, conclusion, List.getLast?_cons_cons]

theorem anyM_recorded (holds : Trial σ) (alts : List Alternative) (s : σ) (log : List Call) :
    ∃ calls s', Asks holds s alts calls s' ∧
      (alts.anyM holds).startedIn s = (conclusion calls, s') ∧
      (alts.anyM (recorded holds)).startedIn (s, log) = (conclusion calls, s', log ++ calls) := by
  induction alts generalizing s log with
  | nil => exact ⟨[], s, .done s, rfl, by rw [List.append_nil]; rfl⟩
  | cons alt alts ih =>
    rw [List.anyM, List.anyM]
    cases h : (holds alt).startedIn s with | mk answer s₁
    have hrecorded : (recorded holds alt).startedIn (s, log) =
        (answer, s₁, log ++ [(alt, answer)]) := by
      rw [startedIn_recorded, h]
    cases answer with
    | error fault =>
      exact ⟨_, s₁, .stop h nofun, startedIn_bind_error h _, startedIn_bind_error hrecorded _⟩
    | ok b =>
      rw [startedIn_bind_ok h, startedIn_bind_ok hrecorded]
      cases b with
      | true => exact ⟨_, s₁, .stop h nofun, rfl, rfl⟩
      | false =>
        obtain ⟨calls, s', hasks, hrun, hrun'⟩ := ih s₁ (log ++ [(alt, .ok false)])
        refine ⟨_, s', .next h hasks, ?_, ?_⟩
        · rw [conclusion_false_cons]
          exact hrun
        · rw [conclusion_false_cons, List.append_cons log _ calls]
          exact hrun'

section
variable {holds : Trial σ} {s s' s'' : σ} {alts alts' : List Alternative} {calls calls' : List Call}

theorem Asks.append (h : Asks holds s alts calls s') (hc : conclusion calls = .ok false)
    (h' : Asks holds s' alts' calls' s'') :
    Asks holds s (alts ++ alts') (calls ++ calls') s'' := by
  induction h with
  | done s => exact h'
  | stop ha hne => exact absurd hc hne
  | next ha hrest ih =>
    rw [conclusion_false_cons] at hc
    exact .next ha (ih hc h')

theorem Asks.append_of_ne (h : Asks holds s alts calls s') (hc : conclusion calls ≠ .ok false)
    (alts' : List Alternative) : Asks holds s (alts ++ alts') calls s' := by
  induction h with
  | done s => exact absurd rfl hc
  | stop ha hne => exact .stop ha hne
  | next ha hrest ih =>
    rw [conclusion_false_cons] at hc
    exact .next ha (ih hc)

theorem Asks.length_le (h : Asks holds s alts calls s') : calls.length ≤ alts.length := by
  induction h with
  | done s => exact Nat.le_refl 0
  | stop ha hne => exact Nat.succ_le_succ (Nat.zero_le _)
  | next ha hrest ih => exact Nat.succ_le_succ ih

/-- Where all answers are `false` all alternatives were asked for. -/
theorem Asks.of_conclusion_eq_false (h : Asks holds s alts calls s')
    (hc : conclusion calls = .ok false) :
    calls.length = alts.length ∧ ∀ call ∈ calls, call.2 = .ok false := by
  induction h with
  | done s => exact ⟨rfl, nofun⟩
  | stop ha hne => exact absurd hc hne
  | next ha hrest ih =>
    rw [conclusion_false_cons] at hc
    obtain ⟨hlen, hall⟩ := ih hc
    exact ⟨congrArg Nat.succ hlen, List.forall_mem_cons.mpr ⟨rfl, hall⟩⟩

/-- Any other answer that calls come to is one that was given. -/
theorem exists_mem_of_conclusion {answer : Except RuleFault Bool} (hc : conclusion calls = answer)
    (hne : answer ≠ .ok false) : ∃ alt, (alt, answer) ∈ calls := by
  rw [conclusion] at hc
  cases hlast : calls.getLast? with
  | none =>
    rw [hlast] at hc
    exact absurd hc.symm hne
  | some call =>
    rw [hlast] at hc
    obtain rfl : call.2 = answer := hc
    exact ⟨call.1, List.mem_of_getLast? hlast⟩

end

/-! ## Both conditions -/

theorem alternativesOf_eq_nil_iff {c : Option Pattern} :
    alternativesOf c = [] ↔ c = none ∨ c = some [] := by
  match c with
  | none => simp [alternativesOf]
  | some [] => simp [alternativesOf]
  | some (t :: ts) => simp [alternativesOf, Pattern.alternatives]

/-- What is left to do where the alternatives of the exception do not hold. -/
def reachByEnvironment {m : Type → Type} [Monad m] (environment exception : Option Pattern)
    (holds : Alternative → m Bool) : m Verdict :=
  match alternativesOf environment with
  | [] => return ofNoEnvironment exception
  | alternatives => do
    if ← alternatives.anyM holds then
      return .change
    return ofFailedEnvironment exception

theorem reach_eq {m : Type → Type} [Monad m] (environment exception : Option Pattern)
    (holds : Alternative → m Bool) :
    reach environment exception holds = (do
      if ← (alternativesOf exception).anyM holds then
        return .elseChange
      reachByEnvironment environment exception holds) := rfl

theorem reachByEnvironment_of_nil {m : Type → Type} [Monad m] {environment : Option Pattern}
    (h : alternativesOf environment = []) (exception : Option Pattern)
    (holds : Alternative → m Bool) :
    reachByEnvironment environment exception holds = pure (ofNoEnvironment exception) := by
  rw [reachByEnvironment, h]

theorem reachByEnvironment_of_ne_nil {m : Type → Type} [Monad m] {environment : Option Pattern}
    (h : alternativesOf environment ≠ []) (exception : Option Pattern)
    (holds : Alternative → m Bool) :
    reachByEnvironment environment exception holds = (do
      if ← (alternativesOf environment).anyM holds then
        return .change
      return ofFailedEnvironment exception) := by
  obtain ⟨alt, alts, halts⟩ := List.exists_cons_of_ne_nil h
  rw [reachByEnvironment, halts]

/-- The calls for the environment, behind those for an exception that does not hold. -/
theorem reachByEnvironment_recorded (holds : Trial σ) (environment exception : Option Pattern)
    (s : σ) {log : List Call} (hlen : log.length = (alternativesOf exception).length)
    (hlog : ∀ call ∈ log, call.2 = .ok false) :
    ∃ outcome calls s', Asks holds s (alternativesOf environment) calls s' ∧
      Decided environment exception (log ++ calls) outcome ∧
      (reachByEnvironment environment exception holds).startedIn s = (outcome, s') ∧
      (reachByEnvironment environment exception (recorded holds)).startedIn (s, log) =
        (outcome, s', log ++ calls) := by
  by_cases hnil : alternativesOf environment = []
  · rw [reachByEnvironment_of_nil hnil, reachByEnvironment_of_nil hnil, hnil]
    refine ⟨_, [], s, .done s, ?_, rfl, by rw [List.append_nil]; rfl⟩
    rw [List.append_nil]
    exact .noEnvironment hlog (alternativesOf_eq_nil_iff.mp hnil)
  · rw [reachByEnvironment_of_ne_nil hnil, reachByEnvironment_of_ne_nil hnil]
    obtain ⟨calls, s', hasks, hrun, hrun'⟩ :=
      anyM_recorded holds (alternativesOf environment) s log
    cases hc : conclusion calls with
    | error fault =>
      rw [hc] at hrun hrun'
      obtain ⟨alt, halt⟩ := exists_mem_of_conclusion hc nofun
      exact ⟨_, calls, s', hasks, .fault (List.mem_append_right _ halt),
        startedIn_bind_error hrun _, startedIn_bind_error hrun' _⟩
    | ok b =>
      rw [hc] at hrun hrun'
      rw [startedIn_bind_ok hrun, startedIn_bind_ok hrun']
      cases b with
      | true =>
        obtain ⟨alt, halt⟩ := exists_mem_of_conclusion hc nofun
        refine ⟨_, calls, s', hasks, .environmentHolds (List.mem_append_right _ halt) ?_, rfl, rfl⟩
        have := List.length_pos_of_mem halt
        rw [List.length_append]
        omega
      | false =>
        obtain ⟨-, hall⟩ := hasks.of_conclusion_eq_false hc
        exact ⟨_, calls, s', hasks, .nothingHolds (List.forall_mem_append.mpr ⟨hlog, hall⟩)
          (fun h => hnil (alternativesOf_eq_nil_iff.mpr h)), rfl, rfl⟩

theorem reach_recorded (holds : Trial σ) (environment exception : Option Pattern) (s : σ) :
    ∃ outcome calls s',
      Asks holds s (alternativesOf exception ++ alternativesOf environment) calls s' ∧
      Decided environment exception calls outcome ∧
      (reach environment exception holds).startedIn s = (outcome, s') ∧
      (reach environment exception (recorded holds)).startedIn (s, []) = (outcome, s', calls) := by
  rw [reach_eq, reach_eq]
  obtain ⟨calls, s₁, hasks, hrun, hrun'⟩ := anyM_recorded holds (alternativesOf exception) s []
  cases hc : conclusion calls with
  | error fault =>
    rw [hc] at hrun hrun'
    obtain ⟨alt, halt⟩ := exists_mem_of_conclusion hc nofun
    exact ⟨_, calls, s₁, hasks.append_of_ne (by rw [hc]; nofun) _, .fault halt,
      startedIn_bind_error hrun _, startedIn_bind_error hrun' _⟩
  | ok b =>
    rw [hc] at hrun hrun'
    rw [startedIn_bind_ok hrun, startedIn_bind_ok hrun']
    cases b with
    | true =>
      obtain ⟨alt, halt⟩ := exists_mem_of_conclusion hc nofun
      exact ⟨_, calls, s₁, hasks.append_of_ne (by rw [hc]; nofun) _,
        .exceptionHolds halt hasks.length_le, rfl, rfl⟩
    | false =>
      obtain ⟨hlen, hall⟩ := hasks.of_conclusion_eq_false hc
      obtain ⟨outcome, calls', s', hasks', hdecided, hrest, hrest'⟩ :=
        reachByEnvironment_recorded holds environment exception s₁ hlen hall
      exact ⟨outcome, calls ++ calls', s', hasks.append hc hasks', hdecided, hrest, hrest'⟩

/-! ## Order and number of alternatives -/

/-- The conditions are both absent, both empty or have the same alternatives, in whatever order and
however often. -/
def Rearranged (c c' : Option Pattern) : Prop :=
  Option.Rel (fun p q => (p = [] ↔ q = []) ∧
    ∀ alt, alt ∈ Pattern.alternatives p ↔ alt ∈ Pattern.alternatives q) c c'

theorem Rearranged.mem_alternativesOf_iff {c c' : Option Pattern} (h : Rearranged c c')
    (alt : Alternative) : alt ∈ alternativesOf c ↔ alt ∈ alternativesOf c' := by
  cases h with
  | none => rfl
  | @some p q hpq =>
    obtain ⟨hnil, halts⟩ := hpq
    match p, q with
    | [], [] => rfl
    | [], _ :: _ => exact absurd (hnil.mp rfl) (List.cons_ne_nil _ _)
    | _ :: _, [] => exact absurd (hnil.mpr rfl) (List.cons_ne_nil _ _)
    | _ :: _, _ :: _ => exact halts alt

theorem Rearranged.alternativesOf_eq_nil_iff {c c' : Option Pattern} (h : Rearranged c c') :
    alternativesOf c = [] ↔ alternativesOf c' = [] := by
  rw [List.eq_nil_iff_forall_not_mem, List.eq_nil_iff_forall_not_mem]
  exact forall_congr' fun alt => not_congr (h.mem_alternativesOf_iff alt)

theorem Rearranged.eq_some_nil_iff {c c' : Option Pattern} (h : Rearranged c c') :
    c = some [] ↔ c' = some [] := by
  cases h with
  | none => rfl
  | some hpq => simpa using hpq.1

/-- The verdict where every alternative has its answer. -/
def byAnswers (environment exception : Option Pattern) (p : Alternative → Bool) : Verdict :=
  if (alternativesOf exception).any p then .elseChange
  else if alternativesOf environment = [] then ofNoEnvironment exception
  else if (alternativesOf environment).any p then .change
  else ofFailedEnvironment exception

theorem byAnswers_of_rearranged {environment environment' exception exception' : Option Pattern}
    (he : Rearranged environment environment') (hx : Rearranged exception exception')
    (p : Alternative → Bool) :
    byAnswers environment exception p = byAnswers environment' exception' p := by
  have hany {c c' : Option Pattern} (h : Rearranged c c') :
      (alternativesOf c).any p = (alternativesOf c').any p := by
    rw [Bool.eq_iff_iff, List.any_eq_true, List.any_eq_true]
    simp only [h.mem_alternativesOf_iff]
  simp only [byAnswers, ofNoEnvironment, ofFailedEnvironment, hany he, hany hx,
    he.alternativesOf_eq_nil_iff, hx.eq_some_nil_iff]

section
variable {holds : Trial σ} {p : Alternative → Bool}
  (h : ∀ alt s, ((holds alt).startedIn s).1 = .ok (p alt))
include h

theorem anyM_of_answers (alts : List Alternative) (s : σ) :
    ∃ s', (alts.anyM holds).startedIn s = (.ok (alts.any p), s') := by
  induction alts generalizing s with
  | nil => exact ⟨s, rfl⟩
  | cons alt alts ih =>
    have halt : (holds alt).startedIn s = (.ok (p alt), ((holds alt).startedIn s).2) :=
      Prod.ext (h alt s) rfl
    rw [List.anyM, startedIn_bind_ok halt, List.any_cons]
    cases p alt with
    | true => exact ⟨_, rfl⟩
    | false => exact ih _

theorem reach_of_answers (environment exception : Option Pattern) (s : σ) :
    ((reach environment exception holds).startedIn s).1 =
      .ok (byAnswers environment exception p) := by
  obtain ⟨s₁, hx⟩ := anyM_of_answers h (alternativesOf exception) s
  rw [reach_eq, startedIn_bind_ok hx, byAnswers]
  cases (alternativesOf exception).any p with
  | true => rfl
  | false =>
    rw [if_neg nofun]
    by_cases hnil : alternativesOf environment = []
    · rw [if_pos hnil]
      show ((reachByEnvironment environment exception holds).startedIn s₁).1 = _
      rw [reachByEnvironment_of_nil hnil]
      rfl
    · obtain ⟨s₂, he⟩ := anyM_of_answers h (alternativesOf environment) s₁
      rw [if_neg hnil]
      show ((reachByEnvironment environment exception holds).startedIn s₁).1 = _
      rw [reachByEnvironment_of_ne_nil hnil, startedIn_bind_ok he]
      cases (alternativesOf environment).any p <;> rfl

end

/-- The alternatives of an exception that is not empty are asked for in their order, then those of
an environment that is not empty, until there is an answer other than `false`; and the verdict is
what the answers decide. Where an alternative has one answer whenever it is asked for, and that is
no fault, alternatives can be put in another order and repeated. -/
theorem reach_asks_and_decides {σ : Type} (holds : Trial σ)
    (environment exception : Option Pattern) :
    (∀ s, ∃ outcome calls s',
      (reach environment exception holds).startedIn s = (outcome, s') ∧
      (reach environment exception (recorded holds)).startedIn (s, []) = (outcome, s', calls) ∧
      Asks holds s (alternativesOf exception ++ alternativesOf environment) calls s' ∧
      Decided environment exception calls outcome) ∧
    ((∀ alt, ∃ b, ∀ s, ((holds alt).startedIn s).1 = .ok b) →
      ∀ environment' exception', Rearranged environment environment' →
        Rearranged exception exception' →
        ∃ v, ∀ s, ((reach environment exception holds).startedIn s).1 = .ok v ∧
          ((reach environment' exception' holds).startedIn s).1 = .ok v) := by
  constructor
  · intro s
    obtain ⟨outcome, calls, s', hasks, hdecided, hrun, hrecorded⟩ :=
      reach_recorded holds environment exception s
    exact ⟨outcome, calls, s', hrun, hrecorded, hasks, hdecided⟩
  · intro hanswers environment' exception' he hx
    obtain ⟨p, hp⟩ := Classical.skolem.mp hanswers
    refine ⟨byAnswers environment exception p, fun s => ⟨reach_of_answers hp _ _ s, ?_⟩⟩
    rw [byAnswers_of_rearranged he hx]
    exact reach_of_answers hp _ _ s

/-- A trial under which the alternatives with a `k` hold, and that counts how often it is asked. -/
def asksForK : Trial Nat := fun alt => do
  modify (· + 1)
  pure (alt.contains (.literal 'k'))

/-- For `t|k` with the exception `p` there are three calls, one of them for the exception; with
`k|t|k` and `p|p` the verdict is the same. -/
theorem reach_stops :
    let environment : Pattern := [.literal 't', .bar, .literal 'k']
    let environment' : Pattern := [.literal 'k', .bar, .literal 't', .bar, .literal 'k']
    let exception : Pattern := [.literal 'p']
    let exception' : Pattern := [.literal 'p', .bar, .literal 'p']
    (∀ alt, ∃ b, ∀ s, ((asksForK alt).startedIn s).1 = .ok b) ∧
      Rearranged (some environment) (some environment') ∧
      Rearranged (some exception) (some exception') ∧
      (∃ calls, Asks asksForK 0 [exception, [.literal 't'], [.literal 'k']] calls 3 ∧
        Decided (some environment) (some exception) calls (.ok .change)) ∧
      ((reach (some environment') (some exception') asksForK).startedIn 0).1 = .ok .change := by
  intro environment environment' exception exception'
  have hanswers : ∀ alt, ∃ b, ∀ s, ((asksForK alt).startedIn s).1 = .ok b :=
    fun alt => ⟨alt.contains (.literal 'k'), fun _ => rfl⟩
  have he : Rearranged (some environment) (some environment') := by
    refine .some ⟨by decide, fun alt => ?_⟩
    show alt ∈ [[.literal 't'], [.literal 'k']] ↔
      alt ∈ [[.literal 'k'], [.literal 't'], [.literal 'k']]
    simp [or_comm]
  have hx : Rearranged (some exception) (some exception') := by
    refine .some ⟨by decide, fun alt => ?_⟩
    show alt ∈ [[.literal 'p']] ↔ alt ∈ [[.literal 'p'], [.literal 'p']]
    simp
  obtain ⟨hcalls, hrearranged⟩ :=
    reach_asks_and_decides asksForK (some environment) (some exception)
  obtain ⟨outcome, calls, s', hrun, -, hasks, hdecided⟩ := hcalls 0
  obtain ⟨v, hv⟩ := hrearranged hanswers _ _ he hx
  have hchange : (reach (some environment) (some exception) asksForK).startedIn 0 =
      (.ok .change, 3) := rfl
  rw [hchange] at hrun
  cases hrun
  refine ⟨hanswers, he, hx, ⟨calls, hasks, hdecided⟩, ?_⟩
  rw [(hv 0).2, ← (hv 0).1, hchange]

end

end SoundChange.Verdict
