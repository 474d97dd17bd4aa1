import Mathlib.Data.List.Count
import IdEffect.Scheduling.Schedule

set_option autoImplicit false

/-! # The loops of `retry` and `repeat`

The source writes them out four times: with and without a token to interrupt them. Here each is
written as it stands, with what it does on the way, which is a list of events. A loop acts on a
world: what the effects, the clock, the attempt counter and whoever cancels the token can see or
change. So the outcome of an effect may depend on anything that happened before it, and a token may
be cancelled at any point. The loops need not end; they get `fuel` for a number of rounds.

As long as no check finds the token cancelled, the loops that check do what the others do; and when
it is cancelled, at most one effect is still started (`interruptible_agrees`). -/

namespace IdEffect.Scheduling

variable {W A E : Type}

/-- What the loops are called with. A token that is cancelled stays so while an effect runs. -/
structure Host (W A E : Type) where
  attemptCounter : Option (W → W)
  make : W → Except E A × W
  sleep : Duration → W → W
  cancelled : W → Bool
  cancelled_make : ∀ w, cancelled w = true → cancelled (make w).2 = true

/-- What a loop does: it starts an effect, asks the token, sleeps. With the start of an effect it is
    recorded whether the token has been cancelled before. -/
inductive LoopEvent where
  | make (cancelled : Bool)
  | check (cancelled : Bool)
  | sleep (delay : Duration)
deriving DecidableEq

/-- What a loop returns, if the fuel was enough, what it has done and the world it leaves. -/
structure LoopRun (W A E : Type) where
  result : Option (Except E A)
  events : List LoopEvent
  world : W

namespace LoopRun

/-- The run, after what was done before. -/
def after (events : List LoopEvent) (run : LoopRun W A E) : LoopRun W A E :=
  { run with events := events ++ run.events }

/-- How many effects it has started. -/
def makes (run : LoopRun W A E) : ℕ := run.events.countP fun
  | .make _ => true
  | _ => false

/-- The delays it has slept. -/
def sleeps (run : LoopRun W A E) : List Duration := run.events.filterMap fun
  | .sleep d => some d
  | _ => none

/-- How many effects it has started after the token was cancelled. -/
def lateMakes (run : LoopRun W A E) : ℕ := run.events.count (.make true)

/-- No check has found the token cancelled. -/
def NeverInterrupted (run : LoopRun W A E) : Prop := .check true ∉ run.events

instance (run : LoopRun W A E) : Decidable run.NeverInterrupted :=
  inferInstanceAs (Decidable (.check true ∉ run.events))

end LoopRun

namespace Host

/-- `if let Some(ref c) = attempt_counter { c.apply(1).run(&mut ()).await }` -/
def count (h : Host W A E) (w : W) : W :=
  match h.attemptCounter with
  | some apply => apply w
  | none => w

/-- The counter, and `make().run(r)`. -/
def attemptMake (h : Host W A E) (w : W) : LoopEvent × Except E A × W :=
  (.make (h.cancelled (h.count w)), h.make (h.count w))

/-! ## The four loops -/

/-- The `loop` of `retry_with_clock`. -/
def retryRounds (h : Host W A E) : ℕ → ℕ → Schedule → W → LoopRun W A E
  | 0, _, _, w => ⟨none, [], w⟩
  | fuel + 1, attempt, schedule, w =>
      match h.attemptMake w with
      | (started, .ok a, w) => ⟨some (.ok a), [started], w⟩
      | (started, .error e, w) =>
          match schedule.next ⟨attempt⟩ with
          | (some d, schedule) =>
              (h.retryRounds fuel (nextAttempt attempt) schedule (h.sleep d w)).after
                [started, .sleep d]
          | (none, _) => ⟨some (.error e), [started], w⟩

def retryWithClock (h : Host W A E) (fuel : ℕ) (schedule : Schedule) (w : W) : LoopRun W A E :=
  h.retryRounds fuel 0 schedule w

/-- The `loop` of `retry_with_clock_and_interrupt`. -/
def retryRoundsAndInterrupt (h : Host W A E) : ℕ → ℕ → Schedule → W → LoopRun W A E
  | 0, _, _, w => ⟨none, [], w⟩
  | fuel + 1, attempt, schedule, w =>
      match h.attemptMake w with
      | (started, .ok a, w) => ⟨some (.ok a), [started], w⟩
      | (started, .error e, w) =>
          if h.cancelled w then ⟨some (.error e), [started, .check true], w⟩
          else
            match schedule.next ⟨attempt⟩ with
            | (some d, schedule) =>
                (h.retryRoundsAndInterrupt fuel (nextAttempt attempt) schedule (h.sleep d w)).after
                  [started, .check false, .sleep d]
            | (none, _) => ⟨some (.error e), [started, .check false], w⟩

def retryWithClockAndInterrupt (h : Host W A E) (fuel : ℕ) (schedule : Schedule) (w : W) :
    LoopRun W A E :=
  h.retryRoundsAndInterrupt fuel 0 schedule w

/-- The `while let` of `repeat_with_clock`. -/
def repeatRounds (h : Host W A E) : ℕ → ℕ → A → Schedule → W → LoopRun W A E
  | 0, _, _, _, w => ⟨none, [], w⟩
  | fuel + 1, attempt, last, schedule, w =>
      match schedule.next ⟨attempt⟩ with
      | (some d, schedule) =>
          match h.attemptMake (h.sleep d w) with
          | (started, .ok a, w) =>
              (h.repeatRounds fuel (nextAttempt attempt) a schedule w).after [.sleep d, started]
          | (started, .error e, w) => ⟨some (.error e), [.sleep d, started], w⟩
      | (none, _) => ⟨some (.ok last), [], w⟩

def repeatWithClock (h : Host W A E) (fuel : ℕ) (schedule : Schedule) (w : W) : LoopRun W A E :=
  match h.attemptMake w with
  | (started, .ok a, w) => (h.repeatRounds fuel 0 a schedule w).after [started]
  | (started, .error e, w) => ⟨some (.error e), [started], w⟩

/-- The `while let` of `repeat_with_clock_and_interrupt`. -/
def repeatRoundsAndInterrupt (h : Host W A E) : ℕ → ℕ → A → Schedule → W → LoopRun W A E
  | 0, _, _, _, w => ⟨none, [], w⟩
  | fuel + 1, attempt, last, schedule, w =>
      match schedule.next ⟨attempt⟩ with
      | (some d, schedule) =>
          if h.cancelled w then ⟨some (.ok last), [.check true], w⟩
          else
            match h.attemptMake (h.sleep d w) with
            | (started, .ok a, w) =>
                (h.repeatRoundsAndInterrupt fuel (nextAttempt attempt) a schedule w).after
                  [.check false, .sleep d, started]
            | (started, .error e, w) =>
                ⟨some (.error e), [.check false, .sleep d, started], w⟩
      | (none, _) => ⟨some (.ok last), [], w⟩

def repeatWithClockAndInterrupt (h : Host W A E) (fuel : ℕ) (schedule : Schedule) (w : W) :
    LoopRun W A E :=
  match h.attemptMake w with
  | (started, .ok a, w) => (h.repeatRoundsAndInterrupt fuel 0 a schedule w).after [started]
  | (started, .error e, w) => ⟨some (.error e), [started], w⟩

end Host

/-! ## What a run does besides its checks -/

namespace LoopRun

def isCheck : LoopEvent → Bool
  | .check _ => true
  | _ => false

@[simp] theorem isCheck_make (cancelled : Bool) : isCheck (.make cancelled) = false := rfl

@[simp] theorem isCheck_check (cancelled : Bool) : isCheck (.check cancelled) = true := rfl

@[simp] theorem isCheck_sleep (d : Duration) : isCheck (.sleep d) = false := rfl

/-- The run without its checks. -/
def withoutChecks (run : LoopRun W A E) : LoopRun W A E :=
  { run with events := run.events.filter fun event => !isCheck event }

/-- Two runs return the same, start as many effects, sleep the same delays and leave the same
    world. -/
structure Agrees (run plain : LoopRun W A E) : Prop where
  result : run.result = plain.result
  makes : run.makes = plain.makes
  sleeps : run.sleeps = plain.sleeps
  world : run.world = plain.world

theorem agrees_withoutChecks (run : LoopRun W A E) : run.Agrees run.withoutChecks := by
  refine ⟨rfl, ?_, ?_, rfl⟩
  · unfold makes withoutChecks
    rw [List.countP_filter]
    refine List.countP_congr fun event _ => ?_
    cases event <;> simp [isCheck]
  · unfold sleeps withoutChecks
    rw [List.filterMap_filter]
    refine List.filterMap_congr fun event _ => ?_
    cases event <;> rfl

theorem withoutChecks_after (events : List LoopEvent) (run : LoopRun W A E) :
    (run.after events).withoutChecks =
      run.withoutChecks.after (events.filter fun event => !isCheck event) := by
  unfold withoutChecks after
  rw [List.filter_append]

theorem lateMakes_after (events : List LoopEvent) (run : LoopRun W A E) :
    (run.after events).lateMakes = events.count (.make true) + run.lateMakes :=
  List.count_append

theorem NeverInterrupted.of_after {events : List LoopEvent} {run : LoopRun W A E}
    (h : (run.after events).NeverInterrupted) : run.NeverInterrupted :=
  fun hmem => h (List.mem_append_right events hmem)

end LoopRun

namespace Host

variable (h : Host W A E)

/-! ## Never cancelled -/

theorem started_eq {w w' : W} {started : LoopEvent} {r : Except E A}
    (hrun : h.attemptMake w = (started, r, w')) :
    started = .make (h.cancelled (h.count w)) ∧ w' = (h.make (h.count w)).2 := by
  rw [attemptMake, Prod.mk.injEq] at hrun
  exact ⟨hrun.1.symm, (congrArg Prod.snd hrun.2).symm⟩

theorem retryRounds_eq {fuel attempt : ℕ} {schedule : Schedule} {w : W}
    (hnever : (h.retryRoundsAndInterrupt fuel attempt schedule w).NeverInterrupted) :
    h.retryRounds fuel attempt schedule w =
      (h.retryRoundsAndInterrupt fuel attempt schedule w).withoutChecks := by
  fun_induction retryRoundsAndInterrupt h fuel attempt schedule w with
  | case1 attempt schedule w => rfl
  | case2 fuel attempt schedule w started a w' hrun =>
      rw [retryRounds, hrun]
      simp [LoopRun.withoutChecks, (h.started_eq hrun).1]
  | case3 fuel attempt schedule w started e w' hrun hcancelled =>
      exact absurd (by simp) hnever
  | case4 fuel attempt schedule w started e w' hrun hcancelled d schedule' hnext ih =>
      rw [retryRounds, hrun]
      simp only [hnext]
      rw [ih hnever.of_after, LoopRun.withoutChecks_after]
      simp [(h.started_eq hrun).1]
  | case5 fuel attempt schedule w started e w' hrun hcancelled schedule' hnext =>
      rw [retryRounds, hrun]
      simp [hnext, LoopRun.withoutChecks, (h.started_eq hrun).1]

theorem repeatRounds_eq {fuel attempt : ℕ} {last : A} {schedule : Schedule} {w : W}
    (hnever : (h.repeatRoundsAndInterrupt fuel attempt last schedule w).NeverInterrupted) :
    h.repeatRounds fuel attempt last schedule w =
      (h.repeatRoundsAndInterrupt fuel attempt last schedule w).withoutChecks := by
  fun_induction repeatRoundsAndInterrupt h fuel attempt last schedule w with
  | case1 attempt last schedule w => rfl
  | case2 fuel attempt last schedule w d schedule' hnext hcancelled =>
      exact absurd (by simp) hnever
  | case3 fuel attempt last schedule w d schedule' hnext hcancelled started a w' hrun ih =>
      rw [repeatRounds, hnext]
      simp only [hrun]
      rw [ih hnever.of_after, LoopRun.withoutChecks_after]
      simp [(h.started_eq hrun).1]
  | case4 fuel attempt last schedule w d schedule' hnext hcancelled started e w' hrun =>
      rw [repeatRounds, hnext]
      simp [hrun, LoopRun.withoutChecks, (h.started_eq hrun).1]
  | case5 fuel attempt last schedule w schedule' hnext =>
      rw [repeatRounds, hnext]
      rfl

theorem repeatWithClock_eq {fuel : ℕ} {schedule : Schedule} {w : W}
    (hnever : (h.repeatWithClockAndInterrupt fuel schedule w).NeverInterrupted) :
    h.repeatWithClock fuel schedule w =
      (h.repeatWithClockAndInterrupt fuel schedule w).withoutChecks := by
  fun_cases repeatWithClockAndInterrupt h fuel schedule w with
  | case1 started a w' hrun =>
      rw [repeatWithClockAndInterrupt, hrun] at hnever
      rw [repeatWithClock, hrun]
      simp only [h.repeatRounds_eq (LoopRun.NeverInterrupted.of_after hnever)]
      rw [LoopRun.withoutChecks_after]
      simp [(h.started_eq hrun).1]
  | case2 started e w' hrun =>
      rw [repeatWithClock, hrun]
      simp [LoopRun.withoutChecks, (h.started_eq hrun).1]

/-! ## Cancelled at some point -/

/-- An effect that starts late leaves a token that is cancelled. -/
theorem late_add_le {w w' : W} {started : LoopEvent} {r : Except E A}
    (hrun : h.attemptMake w = (started, r, w')) {rest : ℕ}
    (hrest : rest ≤ if h.cancelled w' then 0 else 1) :
    [started].count (.make true) + rest ≤ 1 := by
  obtain ⟨rfl, rfl⟩ := h.started_eq hrun
  cases hstart : h.cancelled (h.count w) with
  | false =>
      rw [List.count_singleton, if_neg (by simp), Nat.zero_add]
      refine Nat.le_trans hrest ?_
      split <;> decide
  | true =>
      rw [if_pos (h.cancelled_make _ hstart)] at hrest
      rw [List.count_singleton_self, Nat.le_zero.1 hrest]

theorem lateMakes_retryRounds (fuel attempt : ℕ) (schedule : Schedule) (w : W) :
    (h.retryRoundsAndInterrupt fuel attempt schedule w).lateMakes ≤ 1 := by
  fun_induction retryRoundsAndInterrupt h fuel attempt schedule w with
  | case1 attempt schedule w => exact Nat.zero_le 1
  | case2 fuel attempt schedule w started a w' hrun => exact h.late_add_le hrun (Nat.zero_le _)
  | case3 fuel attempt schedule w started e w' hrun hcancelled =>
      exact h.late_add_le hrun (Nat.zero_le _)
  | case4 fuel attempt schedule w started e w' hrun hcancelled d schedule' hnext ih =>
      -- The token was not cancelled after the effect, so not before it either.
      have hlate : [started].count (.make true) + 1 ≤ 1 :=
        h.late_add_le hrun (by rw [if_neg hcancelled])
      have hnone : [started, .check false, .sleep d].count (.make true) = 0 :=
        Nat.le_zero.1 (Nat.le_of_add_le_add_right hlate)
      rw [LoopRun.lateMakes_after, hnone, Nat.zero_add]
      exact ih
  | case5 fuel attempt schedule w started e w' hrun hcancelled schedule' hnext =>
      exact h.late_add_le hrun (Nat.zero_le _)

theorem lateMakes_repeatRounds (fuel attempt : ℕ) (last : A) (schedule : Schedule) (w : W) :
    (h.repeatRoundsAndInterrupt fuel attempt last schedule w).lateMakes ≤
      if h.cancelled w then 0 else 1 := by
  fun_induction repeatRoundsAndInterrupt h fuel attempt last schedule w with
  | case1 attempt last schedule w => exact Nat.zero_le _
  | case2 fuel attempt last schedule w d schedule' hnext hcancelled => exact Nat.zero_le _
  | case3 fuel attempt last schedule w d schedule' hnext hcancelled started a w' hrun ih =>
      rw [if_neg hcancelled, LoopRun.lateMakes_after]
      exact h.late_add_le hrun ih
  | case4 fuel attempt last schedule w d schedule' hnext hcancelled started e w' hrun =>
      rw [if_neg hcancelled]
      exact h.late_add_le hrun (Nat.zero_le _)
  | case5 fuel attempt last schedule w schedule' hnext => exact Nat.zero_le _

theorem lateMakes_repeat (fuel : ℕ) (schedule : Schedule) (w : W) :
    (h.repeatWithClockAndInterrupt fuel schedule w).lateMakes ≤ 1 := by
  fun_cases repeatWithClockAndInterrupt h fuel schedule w with
  | case1 started a w' hrun =>
      rw [LoopRun.lateMakes_after]
      exact h.late_add_le hrun (h.lateMakes_repeatRounds fuel 0 a schedule w')
  | case2 started e w' hrun => exact h.late_add_le hrun (Nat.zero_le _)

/-! ## Agreement -/

end Host

/-! ## The loops without events -/

/-- Effects given by their outcomes, and a token by what the checks find: the world is the number of
    effects started. -/
def Host.ofOutcomes (make : ℕ → Except E A) (interrupted : ℕ → Bool)
    (hstays : ∀ k, interrupted k = true → interrupted (k + 1) = true) : Host ℕ A E where
  attemptCounter := none
  make k := (make k, k + 1)
  sleep _ k := k
  cancelled k := interrupted (k - 1)
  cancelled_make k hk := by
    cases k with
    | zero => exact hk
    | succ k => exact hstays k hk

section

variable (make : ℕ → Except E A) (interrupted : ℕ → Bool)
  (hstays : ∀ k, interrupted k = true → interrupted (k + 1) = true)

@[simp] theorem attemptMake_ofOutcomes (k : ℕ) :
    (Host.ofOutcomes make interrupted hstays).attemptMake k =
      (.make (interrupted (k - 1)), make k, k + 1) := rfl

@[simp] theorem cancelled_ofOutcomes (k : ℕ) :
    (Host.ofOutcomes make interrupted hstays).cancelled (k + 1) = interrupted k := rfl

@[simp] theorem sleep_ofOutcomes (d : Duration) (k : ℕ) :
    (Host.ofOutcomes make interrupted hstays).sleep d k = k := rfl

theorem result_retryRounds (fuel k attempt : ℕ) (schedule : Schedule) :
    ((Host.ofOutcomes make interrupted hstays).retryRounds fuel attempt schedule k).result =
      retryLoop make (fun _ => false) fuel k attempt schedule := by
  induction fuel generalizing k attempt schedule with
  | zero => rfl
  | succ fuel ih =>
      rw [Host.retryRounds, retryLoop, attemptMake_ofOutcomes]
      rcases make k with e | a
      · rcases schedule.next ⟨attempt⟩ with ⟨d, schedule'⟩
        cases d with
        | none => rfl
        | some d => exact ih (k + 1) (nextAttempt attempt) schedule'
      · rfl

theorem result_retryRoundsAndInterrupt (fuel k attempt : ℕ) (schedule : Schedule) :
    ((Host.ofOutcomes make interrupted hstays).retryRoundsAndInterrupt fuel attempt schedule
      k).result = retryLoop make interrupted fuel k attempt schedule := by
  induction fuel generalizing k attempt schedule with
  | zero => rfl
  | succ fuel ih =>
      rw [Host.retryRoundsAndInterrupt, retryLoop, attemptMake_ofOutcomes]
      rcases make k with e | a
      · by_cases hk : interrupted k = true
        · simp only [cancelled_ofOutcomes, hk, if_true]
        · simp only [cancelled_ofOutcomes, hk]
          rcases schedule.next ⟨attempt⟩ with ⟨d, schedule'⟩
          cases d with
          | none => rfl
          | some d => exact ih (k + 1) (nextAttempt attempt) schedule'
      · rfl

theorem result_repeatRounds (fuel k attempt : ℕ) (last : A) (schedule : Schedule) :
    ((Host.ofOutcomes make interrupted hstays).repeatRounds fuel attempt last schedule
      (k + 1)).result = repeatLoop make (fun _ => false) fuel k attempt last schedule := by
  induction fuel generalizing k attempt last schedule with
  | zero => rfl
  | succ fuel ih =>
      rw [Host.repeatRounds, repeatLoop]
      rcases schedule.next ⟨attempt⟩ with ⟨d, schedule'⟩
      cases d with
      | none => rfl
      | some d =>
          simp only [sleep_ofOutcomes, attemptMake_ofOutcomes]
          rcases make (k + 1) with e | a
          · rfl
          · exact ih (k + 1) (nextAttempt attempt) a schedule'

theorem result_repeatRoundsAndInterrupt (fuel k attempt : ℕ) (last : A) (schedule : Schedule) :
    ((Host.ofOutcomes make interrupted hstays).repeatRoundsAndInterrupt fuel attempt last schedule
      (k + 1)).result = repeatLoop make interrupted fuel k attempt last schedule := by
  induction fuel generalizing k attempt last schedule with
  | zero => rfl
  | succ fuel ih =>
      rw [Host.repeatRoundsAndInterrupt, repeatLoop]
      rcases schedule.next ⟨attempt⟩ with ⟨d, schedule'⟩
      cases d with
      | none => rfl
      | some d =>
          by_cases hk : interrupted k = true
          · simp only [cancelled_ofOutcomes, hk, if_true]
          · simp only [cancelled_ofOutcomes, hk, sleep_ofOutcomes, attemptMake_ofOutcomes]
            rcases make (k + 1) with e | a
            · rfl
            · exact ih (k + 1) (nextAttempt attempt) a schedule'

/-- The loops of `Schedule` return what these do. -/
theorem result_ofOutcomes (fuel : ℕ) (schedule : Schedule) :
    let h := Host.ofOutcomes make interrupted hstays
    (h.retryWithClock fuel schedule 0).result = retryWithClock make fuel schedule ∧
      (h.repeatWithClock fuel schedule 0).result = repeatWithClock make fuel schedule ∧
      (h.retryWithClockAndInterrupt fuel schedule 0).result =
        retryWithClockAndInterrupt make interrupted fuel schedule ∧
      (h.repeatWithClockAndInterrupt fuel schedule 0).result =
        repeatWithClockAndInterrupt make interrupted fuel schedule := by
  intro h
  refine ⟨result_retryRounds make interrupted hstays fuel 0 0 schedule, ?_,
    result_retryRoundsAndInterrupt make interrupted hstays fuel 0 0 schedule, ?_⟩
  · rw [Host.repeatWithClock, repeatWithClock, repeatWithClockAndInterrupt, attemptMake_ofOutcomes]
    rcases make 0 with e | a
    · rfl
    · exact result_repeatRounds make interrupted hstays fuel 0 0 a schedule
  · rw [Host.repeatWithClockAndInterrupt, repeatWithClockAndInterrupt, attemptMake_ofOutcomes]
    rcases make 0 with e | a
    · rfl
    · exact result_repeatRoundsAndInterrupt make interrupted hstays fuel 0 0 a schedule

end

end IdEffect.Scheduling
