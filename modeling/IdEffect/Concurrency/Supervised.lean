import IdEffect.Coordination.Deferred
import IdEffect.Scheduling.Schedule

set_option autoImplicit false

/-! # Supervised loops: `supervised` of `concurrency/supervisor.rs`

The loop looks at its token, makes and runs a child, and does with the outcome what the policy says:
it returns, or sleeps and starts over. The two schedules are copied when they are needed for the
first time. Once the token is cancelled, a loop starts at most the child it was about to start
(`Supervised.committed_step`). -/

namespace IdEffect.Supervision

open Scheduling

inductive SupervisorPolicy (A : Type) where
  | terminate
  | restart (schedule : Schedule)
  | restartWithLimit (limit : ℕ) (schedule : Schedule)
  | escalate
  | ignore (recover : A)

/-- The variables of the loop. -/
structure Restarts (E : Type) where
  scheduleRestart : Option Schedule
  scheduleLimited : Option Schedule
  aggregated : Option (Cause E)
  restartsUsed : ℕ
  attempt : ℕ

/-- Where the loop stands: at its head, past the look at the token, waiting for a child, asleep, or
    through. -/
inductive Control (A E : Type) where
  | head
  | make
  | child
  | asleep (delay : Duration)
  | returned (out : Except (Cause E) A)

/-- A loop, and how many children it has started. -/
structure Supervised (A E : Type) where
  supervisorId : ℕ
  policy : SupervisorPolicy A
  vars : Restarts E
  control : Control A E
  started : ℕ

/-- The loop's next step; a child may come to anything. -/
inductive Turn (A E : Type) where
  | check
  | make
  | outcome (out : Except E A)
  | wake

variable {A E : Type}

/-- The causes so far, and another one. -/
def aggregate (aggregated : Option (Cause E)) (cause : Cause E) : Cause E :=
  match aggregated with
  | none => cause
  | some prev => .andThen prev cause

/-- What becomes of the outcome of a child. -/
def SupervisorPolicy.settle (policy : SupervisorPolicy A) (vars : Restarts E) :
    Except E A → Control A E × Restarts E
  | .ok a => (.returned (.ok a), vars)
  | .error e =>
      match policy with
      | .terminate | .escalate => (.returned (.error (.fail e)), vars)
      | .ignore recover => (.returned (.ok recover), vars)
      | .restart schedule =>
          match (vars.scheduleRestart.getD schedule).next ⟨vars.attempt⟩ with
          | (some delay, sched) => (.asleep delay, { vars with scheduleRestart := some sched })
          | (none, _) => (.returned (.error (.fail e)), vars)
      | .restartWithLimit limit schedule =>
          let all := aggregate vars.aggregated (.fail e)
          if limit ≤ vars.restartsUsed then (.returned (.error all), vars)
          else
            match (vars.scheduleLimited.getD schedule).next ⟨vars.attempt⟩ with
            | (some delay, sched) =>
                (.asleep delay, { vars with aggregated := some all, scheduleLimited := some sched })
            | (none, _) => (.returned (.error all), vars)

/-- The counters go up after the sleep. -/
def SupervisorPolicy.count (policy : SupervisorPolicy A) (vars : Restarts E) : Restarts E :=
  match policy with
  | .restartWithLimit _ _ =>
      { vars with
        restartsUsed := nextAttempt vars.restartsUsed
        attempt := nextAttempt vars.attempt }
  | .terminate | .restart _ | .escalate | .ignore _ =>
      { vars with attempt := nextAttempt vars.attempt }

namespace Supervised

def start (supervisorId : ℕ) (policy : SupervisorPolicy A) : Supervised A E :=
  ⟨supervisorId, policy, ⟨none, none, none, 0, 0⟩, .head, 0⟩

/-- The loop goes on; `cancelled` is what its token says. -/
def step (cancelled : Bool) (ℓ : Supervised A E) : Turn A E → Option (Supervised A E)
  | .check =>
      match ℓ.control with
      | .head =>
          if cancelled then
            some { ℓ with control := .returned (.error (.interrupt ℓ.supervisorId)) }
          else some { ℓ with control := .make }
      | _ => none
  | .make =>
      match ℓ.control with
      | .make => some { ℓ with control := .child, started := ℓ.started + 1 }
      | _ => none
  | .outcome out =>
      match ℓ.control with
      | .child =>
          some { ℓ with
            control := (ℓ.policy.settle ℓ.vars out).1
            vars := (ℓ.policy.settle ℓ.vars out).2 }
      | _ => none
  | .wake =>
      match ℓ.control with
      | .asleep _ => some { ℓ with control := .head, vars := ℓ.policy.count ℓ.vars }
      | _ => none

/-- The children the loop has started, and the one it will start whatever its token says. -/
def committed (ℓ : Supervised A E) : ℕ :=
  match ℓ.control with
  | .make => ℓ.started + 1
  | _ => ℓ.started

variable {ℓ ℓ' : Supervised A E} {turn : Turn A E} {cancelled : Bool}

theorem started_le_committed (ℓ : Supervised A E) : ℓ.started ≤ ℓ.committed := by
  unfold committed
  split
  · exact Nat.le_succ _
  · exact Nat.le_refl _

/-- After a child the loop sleeps or is through. -/
theorem settle_cases (policy : SupervisorPolicy A) (vars : Restarts E) (out : Except E A) :
    (∃ d vars', policy.settle vars out = (.asleep d, vars')) ∨
      ∃ r, policy.settle vars out = (.returned r, vars) := by
  cases out with
  | ok a => exact .inr ⟨_, rfl⟩
  | error e =>
      cases policy with
      | terminate | escalate | ignore recover => exact .inr ⟨_, rfl⟩
      | restart schedule =>
          simp only [SupervisorPolicy.settle]
          split
          · exact .inl ⟨_, _, rfl⟩
          · exact .inr ⟨_, rfl⟩
      | restartWithLimit limit schedule =>
          simp only [SupervisorPolicy.settle]
          split
          · exact .inr ⟨_, rfl⟩
          · split
            · exact .inl ⟨_, _, rfl⟩
            · exact .inr ⟨_, rfl⟩

theorem settle_ne_make (policy : SupervisorPolicy A) (vars : Restarts E) (out : Except E A) :
    (policy.settle vars out).1 ≠ .make := by
  intro hmake
  obtain ⟨d, vars', h⟩ | ⟨r, h⟩ := settle_cases policy vars out
  · rw [h] at hmake
    cases hmake
  · rw [h] at hmake
    cases hmake

theorem committed_of_ne_make (h : ℓ.control ≠ .make) : ℓ.committed = ℓ.started := by
  unfold committed
  split
  · next hmake => exact absurd hmake h
  · rfl

/-- **A cancelled token stops the loop**: what it has started and is about to start does not become
    more. -/
theorem committed_step (h : ℓ.step true turn = some ℓ') : ℓ'.committed ≤ ℓ.committed := by
  cases turn with
  | check =>
      simp only [step] at h
      split at h
      · next hhead =>
          obtain rfl := Option.some.inj h
          exact started_le_committed ℓ
      · cases h
  | make =>
      simp only [step] at h
      split at h
      · next hmake =>
          obtain rfl := Option.some.inj h
          rw [committed, committed, hmake]
      · cases h
  | outcome out =>
      simp only [step] at h
      split at h
      · next hchild =>
          obtain rfl := Option.some.inj h
          rw [committed_of_ne_make (settle_ne_make ℓ.policy ℓ.vars out)]
          exact started_le_committed ℓ
      · cases h
  | wake =>
      simp only [step] at h
      split at h
      · next hasleep =>
          obtain rfl := Option.some.inj h
          exact started_le_committed ℓ
      · cases h

end Supervised

end IdEffect.Supervision
