import IdEffect.Concurrency.Supervised
import IdEffect.Lib.Transition
import IdEffect.Scheduling.Loops

set_option autoImplicit false

/-! # What a supervised loop accounts for

`supervised` runs the loop of `Supervised` to its end, with children, a clock and a token that are
those of a `Host`. Under `RestartWithLimit` the variables of the loop say at its head which errors
the children have come to (`Restarts.After`); from that follows when it stops and what it returns
(`Accounted`). Under `Restart` it does what `retry_with_clock` does, round by round.

The token may also be cancelled between a look at it and the start of the child. So what a
cancelled token does is said of the loop turn by turn (`Watched`), which `supervised` is a run of
(`exists_turns`). -/

namespace IdEffect.Supervision

open Scheduling Transition

variable {W A E : Type}

/-! ## The whole loop -/

def Control.result : Control A E → Option (Except (Cause E) A)
  | .returned out => some out
  | .head | .make | .child | .asleep _ => none

/-- The `loop` of `supervised`. -/
def supervisedRounds (h : Host W A E) (supervisorId : ℕ) (policy : SupervisorPolicy A) :
    ℕ → Restarts E → W → LoopRun W A (Cause E)
  | 0, _, w => ⟨none, [], w⟩
  | fuel + 1, vars, w =>
      if h.cancelled w then ⟨some (.error (.interrupt supervisorId)), [.check true], w⟩
      else
        match h.make w with
        | (out, w) =>
            match policy.settle vars out with
            | (.asleep d, vars) =>
                (supervisedRounds h supervisorId policy fuel (policy.count vars)
                  (h.sleep d w)).after [.check false, .make false, .sleep d]
            | (control, _) => ⟨control.result, [.check false, .make false], w⟩

def supervised (h : Host W A E) (supervisorId : ℕ) (policy : SupervisorPolicy A) (fuel : ℕ)
    (w : W) : LoopRun W A (Cause E) :=
  supervisedRounds h supervisorId policy fuel ⟨none, none, none, 0, 0⟩ w

section

variable {h : Host W A E} {supervisorId fuel : ℕ} {policy : SupervisorPolicy A}
  {vars vars' : Restarts E} {w w' : W} {out : Except E A}

theorem cancelled_of_never
    (hnever : (supervisedRounds h supervisorId policy (fuel + 1) vars w).NeverInterrupted) :
    h.cancelled w = false := by
  cases hcancelled : h.cancelled w with
  | false => rfl
  | true =>
      rw [supervisedRounds, if_pos hcancelled] at hnever
      exact absurd (List.mem_singleton_self _) hnever

/-- A round after which the loop sleeps. -/
theorem supervisedRounds_asleep {d : Duration} (hcancelled : h.cancelled w = false)
    (hmake : h.make w = (out, w')) (hsettle : policy.settle vars out = (.asleep d, vars')) :
    supervisedRounds h supervisorId policy (fuel + 1) vars w =
      (supervisedRounds h supervisorId policy fuel (policy.count vars') (h.sleep d w')).after
        [.check false, .make false, .sleep d] := by
  rw [supervisedRounds, hcancelled]
  simp only [hmake, hsettle, Bool.false_eq_true, if_false]

/-- A round after which it is through. -/
theorem supervisedRounds_returned {r : Except (Cause E) A} (hcancelled : h.cancelled w = false)
    (hmake : h.make w = (out, w')) (hsettle : policy.settle vars out = (.returned r, vars')) :
    supervisedRounds h supervisorId policy (fuel + 1) vars w =
      ⟨some r, [.check false, .make false], w'⟩ := by
  rw [supervisedRounds, hcancelled]
  simp only [hmake, hsettle, Bool.false_eq_true, if_false]
  rfl

end

/-! ## With a limit -/

/-- The errors of a cause that is made of `Fail` and `Then`, from left to right. -/
def thenErrors : Cause E → Option (List E)
  | .fail error => some [error]
  | .andThen left right => do return (← thenErrors left) ++ (← thenErrors right)
  | .die _ | .interrupt _ | .both _ _ => none

/-- What a child comes to, and then, after each of the delays, the next one. -/
def outcomes (h : Host W A E) : List Duration → W → List (Except E A)
  | [], w => [(h.make w).1]
  | d :: ds, w => (h.make w).1 :: outcomes h ds (h.sleep d (h.make w).2)

/-- The inputs a schedule is asked about from attempt `k` on. -/
def attempts (k n : ℕ) : List ScheduleInput := (List.range' k n).map ScheduleInput.mk

/-- How a loop ends whose last child has come to `last`, after the errors `es`; `answer` is what the
    schedule says to that attempt. -/
inductive Ends (limit : ℕ) (es : List E) (answer : Option Duration) :
    Except E A → Option (Except (Cause E) A) → Prop
  | success (a : A) : Ends limit es answer (.ok a) (some (.ok a))
  | failure {e : E} {cause : Cause E} (hstop : es.length = limit ∨ answer = none)
      (hcause : thenErrors cause = some (es ++ [e])) :
      Ends limit es answer (.error e) (some (.error cause))

/-- What a run comes to whose first child is preceded by the errors `es`: all children but the last
    one fail and are followed by a delay, which is what `schedule` says. -/
structure Accounted (h : Host W A E) (limit : ℕ) (es : List E) (schedule : Schedule) (w : W)
    (run : LoopRun W A (Cause E)) : Prop where
  makes : run.makes = run.sleeps.length + 1
  retries : es.length + run.sleeps.length ≤ limit
  ends : ∃ fails last answer,
    outcomes h run.sleeps w = fails.map .error ++ [last] ∧
    schedule.trace (attempts es.length (run.sleeps.length + 1)) =
      run.sleeps.map some ++ [answer] ∧
    Ends limit (es ++ fails) answer last run.result

/-- The variables of the loop after the errors `es`. -/
structure Restarts.After (vars : Restarts E) (es : List E) (first schedule : Schedule) : Prop where
  scheduleLimited : vars.scheduleLimited.getD first = schedule
  aggregated : ∀ e, thenErrors (aggregate vars.aggregated (.fail e)) = some (es ++ [e])
  restartsUsed : vars.restartsUsed = es.length
  attempt : vars.attempt = es.length

theorem Restarts.after_start (s : Schedule) :
    (⟨none, none, none, 0, 0⟩ : Restarts E).After [] s s where
  scheduleLimited := rfl
  aggregated _ := rfl
  restartsUsed := rfl
  attempt := rfl

theorem attempts_succ (k n : ℕ) : attempts k (n + 1) = ⟨k⟩ :: attempts (k + 1) n := rfl

theorem nextAttempt_eq {k : ℕ} (h : k < u64Max) : nextAttempt k = k + 1 :=
  Nat.min_eq_left h

/-- What the loop does with one more error. -/
theorem Restarts.After.settle {vars : Restarts E} {es : List E} {first s : Schedule}
    (hvars : vars.After es first s) (limit : ℕ) (e : E) :
    (SupervisorPolicy.restartWithLimit (A := A) limit first).settle vars (.error e) =
      if limit ≤ es.length then (.returned (.error (aggregate vars.aggregated (.fail e))), vars)
      else
        match s.next ⟨es.length⟩ with
        | (some delay, s') =>
            (.asleep delay, { vars with
              aggregated := some (aggregate vars.aggregated (.fail e))
              scheduleLimited := some s' })
        | (none, _) => (.returned (.error (aggregate vars.aggregated (.fail e))), vars) := by
  obtain ⟨scheduleRestart, scheduleLimited, aggregated, restartsUsed, attempt⟩ := vars
  obtain ⟨rfl, -, rfl, rfl⟩ := hvars
  rfl

/-- The variables after it, and after the sleep. -/
theorem Restarts.After.next {vars : Restarts E} {es : List E} {first s s' : Schedule}
    (hvars : vars.After es first s) (hlimit : es.length < u64Max) (e : E) (limit : ℕ) :
    ((SupervisorPolicy.restartWithLimit (A := A) limit first).count
      { vars with
        aggregated := some (aggregate vars.aggregated (.fail e))
        scheduleLimited := some s' }).After (es ++ [e]) first s' where
  scheduleLimited := rfl
  aggregated e' := by
    show thenErrors (.andThen (aggregate vars.aggregated (.fail e)) (.fail e')) = _
    rw [thenErrors, hvars.aggregated e]
    rfl
  restartsUsed := by
    show nextAttempt vars.restartsUsed = _
    rw [hvars.restartsUsed, nextAttempt_eq hlimit, List.length_append, List.length_singleton]
  attempt := by
    show nextAttempt vars.attempt = _
    rw [hvars.attempt, nextAttempt_eq hlimit, List.length_append, List.length_singleton]

/-- A run of one child. -/
theorem Accounted.last {h : Host W A E} {limit : ℕ} {es : List E} {s : Schedule} {w : W}
    {run : LoopRun W A (Cause E)} (hes : es.length ≤ limit)
    (hevents : run.events = [.check false, .make false])
    (hends : Ends limit es (s.next ⟨es.length⟩).1 (h.make w).1 run.result) :
    Accounted h limit es s w run := by
  have hsleeps : run.sleeps = [] := by rw [LoopRun.sleeps, hevents]; rfl
  refine ⟨?_, ?_, [], (h.make w).1, (s.next ⟨es.length⟩).1, ?_, ?_, ?_⟩
  · rw [hsleeps, LoopRun.makes, hevents]
    rfl
  · rw [hsleeps]
    exact hes
  · rw [hsleeps]
    rfl
  · rw [hsleeps]
    rfl
  · rw [List.append_nil]
    exact hends

/-- A child that fails and is followed by a delay, before a run that is accounted for. -/
theorem Accounted.after {h : Host W A E} {limit : ℕ} {es : List E} {s : Schedule} {w : W} {e : E}
    {d : Duration} {run : LoopRun W A (Cause E)} (hmake : (h.make w).1 = .error e)
    (hnext : (s.next ⟨es.length⟩).1 = some d)
    (hrun : Accounted h limit (es ++ [e]) (s.next ⟨es.length⟩).2 (h.sleep d (h.make w).2) run) :
    Accounted h limit es s w (run.after [.check false, .make false, .sleep d]) := by
  obtain ⟨hmakes, hretries, fails, last, answer, houtcomes, htrace, hends⟩ := hrun
  have hsleeps : (run.after [.check false, .make false, .sleep d]).sleeps = d :: run.sleeps := by
    rw [LoopRun.sleeps, LoopRun.after, List.filterMap_append]
    rfl
  refine ⟨?_, ?_, e :: fails, last, answer, ?_, ?_, ?_⟩
  · rw [hsleeps, LoopRun.makes, LoopRun.after, List.countP_append]
    rw [LoopRun.makes] at hmakes
    rw [hmakes, List.length_cons, Nat.add_comm]
    rfl
  · rw [hsleeps, List.length_cons]
    rw [List.length_append, List.length_singleton] at hretries
    omega
  · rw [hsleeps, outcomes, houtcomes, hmake]
    rfl
  · rw [hsleeps, List.length_cons, attempts_succ, Schedule.trace, hnext]
    rw [List.length_append, List.length_singleton] at htrace
    rw [htrace]
    rfl
  · rw [List.append_assoc] at hends
    exact hends

/-- **Every run with a limit is accounted for**, and it ends if the fuel is enough for the limit. -/
theorem accounted_rounds (h : Host W A E) (supervisorId : ℕ) {limit : ℕ} (hlimit : limit ≤ u64Max)
    {first s : Schedule} {fuel : ℕ} {vars : Restarts E} {es : List E} {w : W}
    (hvars : vars.After es first s) (hes : es.length ≤ limit) (hfuel : limit < fuel + es.length)
    (hnever : (supervisedRounds h supervisorId (.restartWithLimit limit first) fuel vars
      w).NeverInterrupted) :
    Accounted h limit es s w
      (supervisedRounds h supervisorId (.restartWithLimit limit first) fuel vars w) := by
  induction fuel generalizing vars es s w with
  | zero => omega
  | succ fuel ih =>
      have hcancelled := cancelled_of_never hnever
      obtain ⟨out, w', hmake⟩ : ∃ out w', h.make w = (out, w') := ⟨_, _, rfl⟩
      -- the loop is through, with `r`
      have hreturned : ∀ {r}, (SupervisorPolicy.restartWithLimit limit first).settle vars out =
          (.returned r, vars) → Ends limit es (s.next ⟨es.length⟩).1 out (some r) →
          Accounted h limit es s w
            (supervisedRounds h supervisorId (.restartWithLimit limit first) (fuel + 1) vars
              w) := by
        intro r hsettle hends
        rw [supervisedRounds_returned hcancelled hmake hsettle]
        refine Accounted.last hes rfl ?_
        rw [hmake]
        exact hends
      cases out with
      | ok a => exact hreturned rfl (.success a)
      | error e =>
          have hsettle := hvars.settle (A := A) limit e
          by_cases hused : limit ≤ es.length
          · rw [if_pos hused] at hsettle
            exact hreturned hsettle (.failure (.inl (by omega)) (hvars.aggregated e))
          · rw [if_neg hused] at hsettle
            cases hnext : s.next ⟨es.length⟩ with
            | mk answer s' =>
                rw [hnext] at hsettle hreturned
                cases answer with
                | none => exact hreturned hsettle (.failure (.inr rfl) (hvars.aggregated e))
                | some d =>
                    rw [supervisedRounds_asleep hcancelled hmake hsettle] at hnever ⊢
                    refine Accounted.after (by rw [hmake]) (by rw [hnext]) ?_
                    rw [hmake, hnext]
                    have hlength : (es ++ [e]).length = es.length + 1 := by
                      rw [List.length_append, List.length_singleton]
                    exact ih (hvars.next (by omega) e limit) (by omega) (by omega) hnever.of_after

/-! ## Without a limit -/

/-- The run, with its error as a cause. -/
def failing (run : LoopRun W A E) : LoopRun W A (Cause E) :=
  { run with result := run.result.map (Except.mapError .fail) }

section

variable {h : Host W A E} (hcounter : h.attemptCounter = none) {w w' : W}
  (hcancelled : h.cancelled w = false) (fuel attempt : ℕ) (s : Schedule)

include hcounter hcancelled

theorem attemptMake_eq {out : Except E A} (hmake : h.make w = (out, w')) :
    h.attemptMake w = (.make false, out, w') := by
  have hcount : h.count w = w := by rw [Host.count, hcounter]
  rw [Host.attemptMake, hcount, hmake, hcancelled]

theorem retryRounds_ok {a : A} (hmake : h.make w = (.ok a, w')) :
    h.retryRounds (fuel + 1) attempt s w = ⟨some (.ok a), [.make false], w'⟩ := by
  rw [Host.retryRounds, attemptMake_eq hcounter hcancelled hmake]

theorem retryRounds_error {e : E} (hmake : h.make w = (.error e, w')) :
    h.retryRounds (fuel + 1) attempt s w =
      match s.next ⟨attempt⟩ with
      | (some d, s') =>
          (h.retryRounds fuel (nextAttempt attempt) s' (h.sleep d w')).after [.make false, .sleep d]
      | (none, _) => ⟨some (.error e), [.make false], w'⟩ := by
  rewrite [Host.retryRounds, attemptMake_eq hcounter hcancelled hmake]
  rfl

end

theorem settle_restart {vars : Restarts E} {first s : Schedule}
    (hs : vars.scheduleRestart.getD first = s) (e : E) :
    (SupervisorPolicy.restart (A := A) first).settle vars (.error e) =
      match s.next ⟨vars.attempt⟩ with
      | (some delay, s') => (.asleep delay, { vars with scheduleRestart := some s' })
      | (none, _) => (.returned (.error (.fail e)), vars) := by
  subst hs
  rfl

/-- **Restarting is retrying**, up to the looks at the token. -/
theorem supervisedRounds_restart {h : Host W A E} (hcounter : h.attemptCounter = none)
    (supervisorId : ℕ) {first s : Schedule} {fuel : ℕ} {vars : Restarts E} {w : W}
    (hs : vars.scheduleRestart.getD first = s)
    (hnever : (supervisedRounds h supervisorId (.restart first) fuel vars w).NeverInterrupted) :
    (supervisedRounds h supervisorId (.restart first) fuel vars w).withoutChecks =
      failing (h.retryRounds fuel vars.attempt s w) := by
  induction fuel generalizing vars s w with
  | zero => rfl
  | succ fuel ih =>
      have hcancelled := cancelled_of_never hnever
      obtain ⟨out, w', hmake⟩ : ∃ out w', h.make w = (out, w') := ⟨_, _, rfl⟩
      cases out with
      | ok a =>
          rw [supervisedRounds_returned hcancelled hmake rfl,
            retryRounds_ok hcounter hcancelled _ _ _ hmake]
          rfl
      | error e =>
          have hsettle := settle_restart (A := A) hs e
          rw [retryRounds_error hcounter hcancelled _ _ _ hmake]
          cases hnext : s.next ⟨vars.attempt⟩ with
          | mk answer s' =>
              rw [hnext] at hsettle
              cases answer with
              | none =>
                  rw [supervisedRounds_returned hcancelled hmake hsettle]
                  rfl
              | some d =>
                  rw [supervisedRounds_asleep hcancelled hmake hsettle] at hnever ⊢
                  rw [LoopRun.withoutChecks_after, ih rfl hnever.of_after]
                  rfl

/-! ## Turn by turn -/

/-- A loop, and whether its token is cancelled. -/
structure Watched (A E : Type) where
  cancelled : Bool
  loop : Supervised A E

namespace Watched

inductive Label (A E : Type) where
  | cancel
  | turn (turn : Turn A E)

def start (supervisorId : ℕ) (policy : SupervisorPolicy A) : Watched A E :=
  ⟨false, .start supervisorId policy⟩

def step (σ : Watched A E) : Label A E → Option (Watched A E)
  | .cancel => some { σ with cancelled := true }
  | .turn turn => (σ.loop.step σ.cancelled turn).map fun loop => { σ with loop }

/-- **From the moment the token is cancelled** no child is started but the one that the loop is past
    its look at the token for. -/
theorem started_le_committed {ls : List (Label A E)} {σ σ' : Watched A E}
    (hcancelled : σ.cancelled = true) (hrun : run step σ ls = some σ') :
    σ'.loop.started ≤ σ.loop.committed := by
  have hlast := run_invariant
    (I := fun m : Watched A E => m.cancelled = true ∧ m.loop.committed ≤ σ.loop.committed)
    (fun m l m' hm hstep => ?_) ⟨hcancelled, Nat.le_refl _⟩ hrun
  · exact Nat.le_trans σ'.loop.started_le_committed hlast.2
  · cases l with
    | cancel =>
        obtain rfl := Option.some.inj hstep
        exact ⟨rfl, hm.2⟩
    | turn turn =>
        obtain ⟨ℓ, hturn, rfl⟩ := Option.map_eq_some_iff.mp hstep
        rw [hm.1] at hturn
        exact ⟨hm.1, Nat.le_trans (Supervised.committed_step hturn) hm.2⟩

end Watched

/-- The whole loop is a run of turns: it starts as many children and returns the same. -/
theorem exists_turns (h : Host W A E) (supervisorId : ℕ) (policy : SupervisorPolicy A) (fuel : ℕ)
    (vars : Restarts E) (n : ℕ) (w : W) :
    ∃ ls σ, run Watched.step ⟨false, ⟨supervisorId, policy, vars, .head, n⟩⟩ ls = some σ ∧
      σ.loop.started = n + (supervisedRounds h supervisorId policy fuel vars w).makes ∧
      σ.loop.control.result = (supervisedRounds h supervisorId policy fuel vars w).result := by
  induction fuel generalizing vars n w with
  | zero => exact ⟨[], _, rfl, rfl, rfl⟩
  | succ fuel ih =>
      cases hcancelled : h.cancelled w with
      | true =>
          rw [supervisedRounds, if_pos hcancelled]
          exact ⟨[.cancel, .turn .check], _, rfl, rfl, rfl⟩
      | false =>
          obtain ⟨out, w', hmake⟩ : ∃ out w', h.make w = (out, w') := ⟨_, _, rfl⟩
          have hround : run Watched.step ⟨false, ⟨supervisorId, policy, vars, .head, n⟩⟩
              [.turn .check, .turn .make, .turn (.outcome out)] =
              some ⟨false, ⟨supervisorId, policy, (policy.settle vars out).2,
                (policy.settle vars out).1, n + 1⟩⟩ := rfl
          obtain ⟨d, vars', hsettle⟩ | ⟨r, hsettle⟩ := Supervised.settle_cases policy vars out
          · rw [hsettle] at hround
            obtain ⟨ls, σ, hrun, hstarted, hresult⟩ :=
              ih (policy.count vars') (n + 1) (h.sleep d w')
            rw [supervisedRounds_asleep hcancelled hmake hsettle]
            refine ⟨_ ++ .turn .wake :: ls, σ, (run_append hround).trans hrun, ?_, hresult⟩
            rw [hstarted, LoopRun.makes, LoopRun.makes, LoopRun.after, List.countP_append,
              Nat.add_assoc]
            rfl
          · rw [hsettle] at hround
            rw [supervisedRounds_returned hcancelled hmake hsettle]
            exact ⟨_, _, hround, rfl, rfl⟩

/-! ## All of it -/

end IdEffect.Supervision
