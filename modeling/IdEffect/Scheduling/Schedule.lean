import Mathlib.Algebra.Ring.Nat
import Mathlib.Data.List.Basic

set_option autoImplicit false

/-! # Schedules: `scheduling/schedule.rs`

A schedule is a tree whose leaves carry counters; `next` takes one step with an input and returns
the delay, or nothing to stop. Durations are counted in nanoseconds.

`Compose` and `Jittered` do not pass the input of the step on: what is below them is always asked
about the default input, attempt 0. The counters of a tree advance at every step, whatever the input
and whether it stops or not (`next_eq`), so that a run is known from the counters, the answers of
the predicates and the delays alone. From that it can be said exactly when the loss of the input
shows (`passes_input_iff`). -/

namespace IdEffect.Scheduling

abbrev Duration : Type := ℕ

def u32Max : ℕ := 2 ^ 32 - 1

def u64Max : ℕ := 2 ^ 64 - 1

def u128Max : ℕ := 2 ^ 128 - 1

/-- `Duration::MAX`. -/
def durationMax : Duration := u64Max * 10 ^ 9 + 999999999

structure ScheduleInput where
  attempt : ℕ
deriving DecidableEq

/-- `ScheduleInput::default()`. -/
def ScheduleInput.default : ScheduleInput := ⟨0⟩

inductive Schedule where
  | recurs (remaining : ℕ)
  | spaced (interval : Duration)
  | exponential (base : Duration) (step : ℕ)
  | compose (a b : Schedule)
  | jittered (inner : Schedule)
  | recursWhile (pred : ScheduleInput → Bool)
  | recursUntil (pred : ScheduleInput → Bool)
  | mapDelay (inner : Schedule) (f : Duration → Duration)
  | contramapInput (inner : Schedule) (g : ScheduleInput → ScheduleInput)

namespace Schedule

/-- `Schedule::map`; a second one is composed with the first. -/
def map (f : Duration → Duration) : Schedule → Schedule
  | .mapDelay inner existing => .mapDelay inner (f ∘ existing)
  | other => .mapDelay other f

/-- `Schedule::contramap`; a second one is composed with the first. -/
def contramap (g : ScheduleInput → ScheduleInput) : Schedule → Schedule
  | .contramapInput inner existing => .contramapInput inner (existing ∘ g)
  | other => .contramapInput other g

/-! ## One step -/

/-- The delay of `Exponential` at an exponent; the arithmetic saturates. -/
def exponentialDelay (base : Duration) (step : ℕ) : Duration :=
  let mult := min (2 ^ step) u128Max
  let nanos := min (base * mult) u128Max
  min (max (min nanos u64Max) 0) durationMax

def jitter80120 (d : Duration) : Duration := min (min (d * 9) u128Max / 10) u64Max

/-- `Schedule::next`: the delay, if the schedule goes on, and the schedule afterwards. -/
def next : Schedule → ScheduleInput → Option Duration × Schedule
  | .recurs 0, _ => (none, .recurs 0)
  | .recurs (n + 1), _ => (some 0, .recurs n)
  | .spaced interval, _ => (some interval, .spaced interval)
  | .exponential base step, _ =>
      (some (exponentialDelay base step), .exponential base (min (step + 1) u32Max))
  | .compose a b, _ =>
      match a.next .default, b.next .default with
      | (some da, a'), (some db, b') => (some (max da db), .compose a' b')
      | (_, a'), (_, b') => (none, .compose a' b')
  | .jittered inner, _ =>
      match inner.next .default with
      | (d, inner') => (d.map jitter80120, .jittered inner')
  | .recursWhile pred, input => (if pred input then some 0 else none, .recursWhile pred)
  | .recursUntil pred, input => (if pred input then none else some 0, .recursUntil pred)
  | .mapDelay inner f, input =>
      match inner.next input with
      | (d, inner') => (d.map f, .mapDelay inner' f)
  | .contramapInput inner g, input =>
      match inner.next (g input) with
      | (d, inner') => (d, .contramapInput inner' g)

/-- The answers of a schedule to a sequence of inputs. -/
def trace : Schedule → List ScheduleInput → List (Option Duration)
  | _, [] => []
  | s, input :: inputs => (s.next input).1 :: trace (s.next input).2 inputs

end Schedule

/-! ## Repeating and retrying

The effect is run again and again: `make k` is what its run number `k` comes to, and `interrupted k`
whether the token is found cancelled in round `k`. The loops need not end; they get `fuel` for a
number of rounds, and are `none` if it was not enough. -/

variable {A E : Type}

/-- `attempt.saturating_add(1)`. -/
def nextAttempt (attempt : ℕ) : ℕ := min (attempt + 1) u64Max

/-- The loop of `retry_with_clock_and_interrupt`, from round `k` on. -/
def retryLoop (make : ℕ → Except E A) (interrupted : ℕ → Bool) :
    ℕ → ℕ → ℕ → Schedule → Option (Except E A)
  | 0, _, _, _ => none
  | fuel + 1, k, attempt, schedule =>
      match make k with
      | .ok a => some (.ok a)
      | .error e =>
          if interrupted k then some (.error e)
          else
            match schedule.next ⟨attempt⟩ with
            | (some _, schedule') =>
                retryLoop make interrupted fuel (k + 1) (nextAttempt attempt) schedule'
            | (none, _) => some (.error e)

def retryWithClockAndInterrupt (make : ℕ → Except E A) (interrupted : ℕ → Bool) (fuel : ℕ)
    (schedule : Schedule) : Option (Except E A) :=
  retryLoop make interrupted fuel 0 0 schedule

def retryWithClock (make : ℕ → Except E A) (fuel : ℕ) (schedule : Schedule) :
    Option (Except E A) :=
  retryLoop make (fun _ => false) fuel 0 0 schedule

/-- The loop of `repeat_with_clock_and_interrupt`, after round `k` has come to `last`. -/
def repeatLoop (make : ℕ → Except E A) (interrupted : ℕ → Bool) :
    ℕ → ℕ → ℕ → A → Schedule → Option (Except E A)
  | 0, _, _, _, _ => none
  | fuel + 1, k, attempt, last, schedule =>
      match schedule.next ⟨attempt⟩ with
      | (none, _) => some (.ok last)
      | (some _, schedule') =>
          if interrupted k then some (.ok last)
          else
            match make (k + 1) with
            | .ok a => repeatLoop make interrupted fuel (k + 1) (nextAttempt attempt) a schedule'
            | .error e => some (.error e)

def repeatWithClockAndInterrupt (make : ℕ → Except E A) (interrupted : ℕ → Bool) (fuel : ℕ)
    (schedule : Schedule) : Option (Except E A) :=
  match make 0 with
  | .ok a => repeatLoop make interrupted fuel 0 0 a schedule
  | .error e => some (.error e)

def repeatWithClock (make : ℕ → Except E A) (fuel : ℕ) (schedule : Schedule) :
    Option (Except E A) :=
  repeatWithClockAndInterrupt make (fun _ => false) fuel schedule

/-! ## What a schedule asks -/

namespace Schedule

/-- No counter of the tree is used up after `k` steps. -/
def lasts : Schedule → ℕ → Bool
  | .recurs remaining, k => decide (k < remaining)
  | .spaced _, _ | .exponential _ _, _ | .recursWhile _, _ | .recursUntil _, _ => true
  | .compose a b, k => a.lasts k && b.lasts k
  | .jittered inner, k | .mapDelay inner _, k | .contramapInput inner _, k => inner.lasts k

/-- The predicates of the tree let the input pass, asked as the code asks them: below `Compose` and
    `Jittered` it is the default input. -/
def allows : Schedule → ScheduleInput → Bool
  | .recurs _, _ | .spaced _, _ | .exponential _ _, _ => true
  | .compose a b, _ => a.allows .default && b.allows .default
  | .jittered inner, _ => inner.allows .default
  | .recursWhile pred, input => pred input
  | .recursUntil pred, input => !pred input
  | .mapDelay inner _, input => inner.allows input
  | .contramapInput inner g, input => inner.allows (g input)

/-- The predicates of the tree let the input pass, if every combinator passes it on. -/
def through : Schedule → ScheduleInput → Bool
  | .recurs _, _ | .spaced _, _ | .exponential _ _, _ => true
  | .compose a b, input => a.through input && b.through input
  | .jittered inner, input => inner.through input
  | .recursWhile pred, input => pred input
  | .recursUntil pred, input => !pred input
  | .mapDelay inner _, input => inner.through input
  | .contramapInput inner g, input => inner.through (g input)

/-- The delay of the next step, should there be one. -/
def delay : Schedule → Duration
  | .recurs _ | .recursWhile _ | .recursUntil _ => 0
  | .spaced interval => interval
  | .exponential base step => exponentialDelay base step
  | .compose a b => max a.delay b.delay
  | .jittered inner => jitter80120 inner.delay
  | .mapDelay inner f => f inner.delay
  | .contramapInput inner _ => inner.delay

/-- The tree after a step. -/
def advance : Schedule → Schedule
  | .recurs remaining => .recurs (remaining - 1)
  | .spaced interval => .spaced interval
  | .exponential base step => .exponential base (min (step + 1) u32Max)
  | .compose a b => .compose a.advance b.advance
  | .jittered inner => .jittered inner.advance
  | .recursWhile pred => .recursWhile pred
  | .recursUntil pred => .recursUntil pred
  | .mapDelay inner f => .mapDelay inner.advance f
  | .contramapInput inner g => .contramapInput inner.advance g

theorem allows_advance (s : Schedule) (input : ScheduleInput) :
    s.advance.allows input = s.allows input := by
  induction s generalizing input with
  | recurs n => rfl
  | spaced interval => rfl
  | exponential base step => rfl
  | compose a b iha ihb => rw [advance, allows, allows, iha, ihb]
  | jittered inner ih => rw [advance, allows, allows, ih]
  | recursWhile pred => rfl
  | recursUntil pred => rfl
  | mapDelay inner f ih => rw [advance, allows, allows, ih]
  | contramapInput inner g ih => rw [advance, allows, allows, ih]

theorem lasts_advance (s : Schedule) (k : ℕ) : s.advance.lasts k = s.lasts (k + 1) := by
  induction s with
  | recurs n =>
      rw [advance, lasts, lasts, decide_eq_decide]
      omega
  | spaced interval => rfl
  | exponential base step => rfl
  | compose a b iha ihb => rw [advance, lasts, lasts, iha, ihb]
  | jittered inner ih => rw [advance, lasts, lasts, ih]
  | recursWhile pred => rfl
  | recursUntil pred => rfl
  | mapDelay inner f ih => rw [advance, lasts, lasts, ih]
  | contramapInput inner g ih => rw [advance, lasts, lasts, ih]

/-- **A step.** Whether there is a delay depends on the counters and the predicates; what comes
    after does not depend on the input. -/
theorem next_eq (s : Schedule) (input : ScheduleInput) :
    s.next input = (if s.lasts 0 && s.allows input then some s.delay else none, s.advance) := by
  induction s generalizing input with
  | recurs n =>
      cases n with
      | zero => rfl
      | succ n => rfl
  | spaced interval => rfl
  | exponential base step => rfl
  | compose a b iha ihb =>
      rw [next, iha, ihb, lasts, allows]
      cases a.lasts 0 <;> cases b.lasts 0 <;> cases a.allows .default <;>
        cases b.allows .default <;> rfl
  | jittered inner ih =>
      rw [next, ih, lasts, allows]
      cases inner.lasts 0 <;> cases inner.allows .default <;> rfl
  | recursWhile pred =>
      rw [next, lasts, allows, Bool.true_and]
      rfl
  | recursUntil pred =>
      rw [next, lasts, allows, Bool.true_and]
      cases pred input <;> rfl
  | mapDelay inner f ih =>
      rw [next, ih, lasts, allows]
      cases inner.lasts 0 <;> cases inner.allows input <;> rfl
  | contramapInput inner g ih =>
      rw [next, ih, lasts, allows]
      rfl

/-! ## The builders -/

theorem trace_mapDelay (s : Schedule) (f : Duration → Duration) (inputs : List ScheduleInput) :
    (Schedule.mapDelay s f).trace inputs = (s.trace inputs).map (Option.map f) := by
  induction inputs generalizing s with
  | nil => rfl
  | cons input inputs ih =>
      simp only [trace, List.map_cons]
      rw [show ((Schedule.mapDelay s f).next input) =
        ((s.next input).1.map f, .mapDelay (s.next input).2 f) from rfl, ih]

theorem trace_contramapInput (s : Schedule) (g : ScheduleInput → ScheduleInput)
    (inputs : List ScheduleInput) :
    (Schedule.contramapInput s g).trace inputs = s.trace (inputs.map g) := by
  induction inputs generalizing s with
  | nil => rfl
  | cons input inputs ih =>
      simp only [trace, List.map_cons]
      rw [show ((Schedule.contramapInput s g).next input) =
        ((s.next (g input)).1, .contramapInput (s.next (g input)).2 g) from rfl, ih]

/-- `map` maps every delay, also on a schedule that is mapped already. -/
theorem trace_map (s : Schedule) (f : Duration → Duration) (inputs : List ScheduleInput) :
    (s.map f).trace inputs = (s.trace inputs).map (Option.map f) := by
  cases s with
  | mapDelay inner existing =>
      rw [map, trace_mapDelay, trace_mapDelay, List.map_map]
      congr 1
      funext d
      cases d <;> rfl
  | _ => exact trace_mapDelay _ f inputs

/-- `contramap` maps every input. -/
theorem trace_contramap (s : Schedule) (g : ScheduleInput → ScheduleInput)
    (inputs : List ScheduleInput) : (s.contramap g).trace inputs = s.trace (inputs.map g) := by
  cases s with
  | contramapInput inner existing =>
      rw [contramap, trace_contramapInput, trace_contramapInput, List.map_map]
  | _ => exact trace_contramapInput _ g inputs

/-! ## The laws -/

/-- Both go on, after the longer delay. -/
def both : Option Duration → Option Duration → Option Duration
  | some a, some b => some (max a b)
  | _, _ => none

/-- Retrying and repeating, with whatever effect, end in round `n` at the latest. -/
def StopsBy (s : Schedule) (n : ℕ) : Prop :=
  ∀ (A E : Type) (make : ℕ → Except E A) (interrupted : ℕ → Bool),
    (retryWithClock make (n + 1) s).isSome = true ∧
      (repeatWithClock make (n + 1) s).isSome = true ∧
      (retryWithClockAndInterrupt make interrupted (n + 1) s).isSome = true ∧
      (repeatWithClockAndInterrupt make interrupted (n + 1) s).isSome = true

/-- The combinators pass the input of a step on. -/
structure PassesInput : Prop where
  compose : ∀ (a b : Schedule) (inputs : List ScheduleInput),
    (Schedule.compose a b).trace inputs = List.zipWith both (a.trace inputs) (b.trace inputs)
  jittered : ∀ (a : Schedule) (inputs : List ScheduleInput),
    ((Schedule.jittered a).trace inputs).map Option.isSome =
      (a.trace inputs).map Option.isSome
  stops : ∀ (s : Schedule) (n : ℕ), s.through ⟨min n u64Max⟩ = false → s.StopsBy n

/-- A predicate that allows one attempt, composed with another schedule or jittered: it allows two,
    and any number. -/
theorem compose_loses_input :
    (Schedule.compose (.recursWhile fun i => i.attempt < 1) (.spaced 5)).trace [⟨0⟩, ⟨1⟩] =
      [some 5, some 5] ∧
    (Schedule.recursWhile fun i => i.attempt < 1).trace [⟨0⟩, ⟨1⟩] = [some 0, none] ∧
    ((Schedule.jittered (.recursWhile fun i => i.attempt < 1)).trace [⟨0⟩, ⟨1⟩]).map
      Option.isSome = [true, true] ∧
    ¬ PassesInput := by
  refine ⟨by decide, by decide, by decide, fun h => ?_⟩
  have hjittered := h.jittered (.recursWhile fun i => i.attempt < 1) [⟨0⟩, ⟨1⟩]
  revert hjittered
  decide

theorem trace_cons (s : Schedule) (input : ScheduleInput) (inputs : List ScheduleInput) :
    s.trace (input :: inputs) =
      (if s.lasts 0 && s.allows input then some s.delay else none) :: s.advance.trace inputs := by
  rw [trace, next_eq]

/-- A statement about the steps of a run, split into the first step and the others. -/
theorem forall_steps_cons {P : ℕ → ScheduleInput → Prop} {input : ScheduleInput}
    {inputs : List ScheduleInput} :
    (∀ k i, (input :: inputs)[k]? = some i → P k i) ↔
      P 0 input ∧ ∀ k i, inputs[k]? = some i → P (k + 1) i := by
  constructor
  · intro h
    exact ⟨h 0 input rfl, fun k i hi => h (k + 1) i hi⟩
  · rintro ⟨hzero, hsucc⟩ k i hi
    cases k with
    | zero => exact Option.some.inj hi ▸ hzero
    | succ k => exact hsucc k i hi

/-- The composite and its parts agree as long as the counters last and the predicates say together
    about the default input what they say about the input. -/
theorem trace_compose_iff (a b : Schedule) (inputs : List ScheduleInput) :
    (Schedule.compose a b).trace inputs = List.zipWith both (a.trace inputs) (b.trace inputs) ↔
      ∀ k input, inputs[k]? = some input → a.lasts k = true → b.lasts k = true →
        (a.allows .default && b.allows .default) = (a.allows input && b.allows input) := by
  induction inputs generalizing a b with
  | nil => simp [trace]
  | cons input inputs ih =>
      have hhead : (if (a.lasts 0 && b.lasts 0) && (a.allows .default && b.allows .default) then
            some (max a.delay b.delay) else none) =
          both (if a.lasts 0 && a.allows input then some a.delay else none)
            (if b.lasts 0 && b.allows input then some b.delay else none) ↔
          (a.lasts 0 = true → b.lasts 0 = true →
            (a.allows .default && b.allows .default) = (a.allows input && b.allows input)) := by
        cases a.lasts 0 <;> cases b.lasts 0 <;> cases a.allows .default <;>
          cases b.allows .default <;> cases a.allows input <;> cases b.allows input <;>
          simp [both]
      have htail := ih a.advance b.advance
      simp only [lasts_advance, allows_advance] at htail
      rw [forall_steps_cons, ← hhead, ← htail, trace_cons, trace_cons, trace_cons,
        List.zipWith_cons_cons, List.cons.injEq]
      rfl

theorem trace_jittered_iff (a : Schedule) (inputs : List ScheduleInput) :
    ((Schedule.jittered a).trace inputs).map Option.isSome =
        (a.trace inputs).map Option.isSome ↔
      ∀ k input, inputs[k]? = some input → a.lasts k = true →
        a.allows .default = a.allows input := by
  induction inputs generalizing a with
  | nil => simp [trace]
  | cons input inputs ih =>
      have hhead : (if a.lasts 0 && a.allows .default then some (jitter80120 a.delay)
            else none).isSome =
          (if a.lasts 0 && a.allows input then some a.delay else none).isSome ↔
          (a.lasts 0 = true → a.allows .default = a.allows input) := by
        cases a.lasts 0 <;> cases a.allows .default <;> cases a.allows input <;> simp
      have htail := ih a.advance
      simp only [lasts_advance, allows_advance] at htail
      rw [forall_steps_cons, ← hhead, ← htail, trace_cons, trace_cons, List.map_cons, List.map_cons,
        List.cons.injEq]
      rfl

/-! ## The loops -/

/-- The schedule goes on at the attempt it is asked about in round `k`, the first one being
    `attempt`. -/
def goesOn (s : Schedule) (attempt k : ℕ) : Bool :=
  s.lasts k && s.allows ⟨min (attempt + k) u64Max⟩

theorem goesOn_advance (s : Schedule) (attempt k : ℕ) :
    s.advance.goesOn (nextAttempt attempt) k = s.goesOn attempt (k + 1) := by
  have hattempt : min (nextAttempt attempt + k) u64Max = min (attempt + (k + 1)) u64Max := by
    unfold nextAttempt
    omega
  rw [goesOn, goesOn, lasts_advance, allows_advance, hattempt]

theorem goesOn_zero (s : Schedule) {attempt : ℕ} (h : attempt ≤ u64Max) :
    (s.lasts 0 && s.allows ⟨attempt⟩) = s.goesOn attempt 0 := by
  rw [goesOn, Nat.add_zero, Nat.min_eq_left h]

/-- The first round in which the schedule does not go on is this one or a later one. -/
theorem stop_later {s : Schedule} {attempt fuel : ℕ} (hgo : s.goesOn attempt 0 = true)
    (h : ∃ j < fuel + 1, s.goesOn attempt j = false) :
    ∃ j < fuel, s.advance.goesOn (nextAttempt attempt) j = false := by
  obtain ⟨j, hj, hstop⟩ := h
  cases j with
  | zero => exact absurd (hgo.symm.trans hstop) (by simp)
  | succ j => exact ⟨j, by omega, (goesOn_advance s attempt j).trans hstop⟩

theorem go_later {s : Schedule} {attempt fuel : ℕ}
    (h : ∀ j < fuel + 1, s.goesOn attempt j = true) :
    ∀ j < fuel, s.advance.goesOn (nextAttempt attempt) j = true := by
  intro j hj
  rw [goesOn_advance]
  exact h (j + 1) (by omega)

theorem retryLoop_succ (make : ℕ → Except E A) (interrupted : ℕ → Bool) (fuel k : ℕ) {attempt : ℕ}
    (hattempt : attempt ≤ u64Max) (s : Schedule) :
    retryLoop make interrupted (fuel + 1) k attempt s =
      match make k with
      | .ok a => some (.ok a)
      | .error e =>
          if interrupted k || !s.goesOn attempt 0 then some (.error e)
          else retryLoop make interrupted fuel (k + 1) (nextAttempt attempt) s.advance := by
  rw [retryLoop, next_eq, goesOn_zero s hattempt]
  cases make k with
  | ok a => rfl
  | error e => cases interrupted k <;> cases s.goesOn attempt 0 <;> rfl

theorem repeatLoop_succ (make : ℕ → Except E A) (interrupted : ℕ → Bool) (fuel k : ℕ) {attempt : ℕ}
    (hattempt : attempt ≤ u64Max) (last : A) (s : Schedule) :
    repeatLoop make interrupted (fuel + 1) k attempt last s =
      if interrupted k || !s.goesOn attempt 0 then some (.ok last)
      else
        match make (k + 1) with
        | .ok a => repeatLoop make interrupted fuel (k + 1) (nextAttempt attempt) a s.advance
        | .error e => some (.error e) := by
  rw [repeatLoop, next_eq, goesOn_zero s hattempt]
  cases interrupted k <;> cases s.goesOn attempt 0 <;> rfl

theorem retryLoop_isSome (make : ℕ → Except E A) (interrupted : ℕ → Bool) {fuel k attempt : ℕ}
    (hattempt : attempt ≤ u64Max) {s : Schedule} (h : ∃ j < fuel, s.goesOn attempt j = false) :
    (retryLoop make interrupted fuel k attempt s).isSome = true := by
  induction fuel generalizing k attempt s with
  | zero =>
      obtain ⟨j, hj, -⟩ := h
      omega
  | succ fuel ih =>
      rw [retryLoop_succ make interrupted fuel k hattempt]
      cases make k with
      | ok a => rfl
      | error e =>
          cases hgo : s.goesOn attempt 0 with
          | false => simp
          | true =>
              cases interrupted k with
              | true => simp
              | false => exact ih (Nat.min_le_right _ _) (stop_later hgo h)

theorem repeatLoop_isSome (make : ℕ → Except E A) (interrupted : ℕ → Bool) {fuel k attempt : ℕ}
    (hattempt : attempt ≤ u64Max) (last : A) {s : Schedule}
    (h : ∃ j < fuel, s.goesOn attempt j = false) :
    (repeatLoop make interrupted fuel k attempt last s).isSome = true := by
  induction fuel generalizing k attempt last s with
  | zero =>
      obtain ⟨j, hj, -⟩ := h
      omega
  | succ fuel ih =>
      rw [repeatLoop_succ make interrupted fuel k hattempt]
      cases hgo : s.goesOn attempt 0 with
      | false => simp
      | true =>
          cases interrupted k with
          | true => simp
          | false =>
              cases make (k + 1) with
              | error e => simp
              | ok a => exact ih (Nat.min_le_right _ _) a (stop_later hgo h)

/-- An effect that always fails is retried as long as the schedule goes on. -/
theorem retryLoop_failing {fuel k attempt : ℕ} (hattempt : attempt ≤ u64Max) {s : Schedule}
    (h : ∀ j < fuel, s.goesOn attempt j = true) :
    retryLoop (fun _ => (.error () : Except Unit Unit)) (fun _ => false) fuel k attempt s =
      none := by
  induction fuel generalizing k attempt s with
  | zero => rfl
  | succ fuel ih =>
      rw [retryLoop_succ _ _ fuel k hattempt, h 0 (by omega)]
      exact ih (Nat.min_le_right _ _) (go_later h)

/-- Retrying and repeating end in round `n` at the latest if and only if, by then, a counter is used
    up or a predicate, asked as the code asks it, says stop. -/
theorem stopsBy_iff (s : Schedule) (n : ℕ) :
    s.StopsBy n ↔ ∃ k ≤ n, s.lasts k = false ∨ s.allows ⟨min k u64Max⟩ = false := by
  have hgo : ∀ k, s.goesOn 0 k = false ↔
      s.lasts k = false ∨ s.allows ⟨min k u64Max⟩ = false := by
    intro k
    rw [goesOn, Nat.zero_add, Bool.and_eq_false_iff]
  constructor
  · intro h
    by_contra hnot
    have hall : ∀ j < n + 1, s.goesOn 0 j = true := by
      intro j hj
      by_contra hj'
      exact hnot ⟨j, by omega, (hgo j).1 (eq_false_of_ne_true hj')⟩
    have hnone := retryLoop_failing (k := 0) (Nat.zero_le u64Max) hall
    have hsome := (h Unit Unit (fun _ => .error ()) (fun _ => false)).1
    rw [retryWithClock, hnone] at hsome
    cases hsome
  · rintro ⟨k, hk, hstop⟩ A E make interrupted
    have hex : ∃ j < n + 1, s.goesOn 0 j = false := ⟨k, by omega, (hgo k).2 hstop⟩
    have hretry : ∀ interrupted, (retryLoop make interrupted (n + 1) 0 0 s).isSome = true :=
      fun interrupted => retryLoop_isSome make interrupted (Nat.zero_le _) hex
    have hrepeat : ∀ interrupted,
        (repeatWithClockAndInterrupt make interrupted (n + 1) s).isSome = true := by
      intro interrupted
      unfold repeatWithClockAndInterrupt
      cases make 0 with
      | error e => rfl
      | ok a => exact repeatLoop_isSome make interrupted (Nat.zero_le _) a hex
    exact ⟨hretry _, hrepeat _, hretry interrupted, hrepeat interrupted⟩

/-- **When the input gets through.** A composite follows its parts, and a jittered schedule its
    inner one, if and only if in every step before a counter is used up the predicates say about
    the default input what they say about the input; and a predicate that says stop about an attempt
    ends the loops there if and only if, by then, a counter is used up or some predicate, asked as
    the code asks it, says stop. -/
theorem passes_input_iff (a b s : Schedule) (inputs : List ScheduleInput) (n : ℕ) :
    ((Schedule.compose a b).trace inputs = List.zipWith both (a.trace inputs) (b.trace inputs) ↔
        ∀ k input, inputs[k]? = some input → a.lasts k = true → b.lasts k = true →
          (a.allows .default && b.allows .default) = (a.allows input && b.allows input)) ∧
    (((Schedule.jittered a).trace inputs).map Option.isSome = (a.trace inputs).map Option.isSome ↔
        ∀ k input, inputs[k]? = some input → a.lasts k = true →
          a.allows .default = a.allows input) ∧
    ((s.through ⟨min n u64Max⟩ = false → s.StopsBy n) ↔
        (s.through ⟨min n u64Max⟩ = false →
          ∃ k ≤ n, s.lasts k = false ∨ s.allows ⟨min k u64Max⟩ = false)) := by
  refine ⟨trace_compose_iff a b inputs, trace_jittered_iff a inputs, ?_⟩
  exact imp_congr_right fun _ => stopsBy_iff s n

end Schedule

end IdEffect.Scheduling
