import IdEffect.Lib.Gate

set_option autoImplicit false

/-! # Waiting for a token or a latch

`wait_cancelled` and `Latch::wait` are the same loop over a flag, and `cancel` and `Latch::open` the
same swap followed by `notify_waiters`. They differ in when a waiter can be reached: a future of
`AsyncNotify` registers its waker when it is polled for the first time, one of tokio's `Notify`
counts from its creation on. Neither loop loads the flag again between that and going to sleep, so a
waiter that was late by one step sleeps for good (`never_sleeps_iff`). -/

namespace IdEffect.Concurrency

open Gate Transition

/-- The registered wakers, each known by the waiter it wakes. -/
structure AsyncNotify where
  waiters : List ℕ
  deriving DecidableEq, Repr

namespace AsyncNotify

/-- The future of `notified`. -/
structure Notified where
  armed : Bool
  deriving DecidableEq, Repr

def new : AsyncNotify := ⟨[]⟩

/-- Every waker is drained and woken. -/
def notifyWaiters (_ : AsyncNotify) : AsyncNotify := ⟨[]⟩

def notified : Notified := ⟨false⟩

/-- The second poll is ready in any case. -/
def poll (n : AsyncNotify) (t : ℕ) (f : Notified) : Poll × Notified × AsyncNotify :=
  if f.armed then (.ready, ⟨false⟩, n) else (.pending, ⟨true⟩, ⟨n.waiters ++ [t]⟩)

/-- The waker is registered, and has not been drained. -/
def parked (n : AsyncNotify) (t : ℕ) (f : Notified) : Bool := f.armed && n.waiters.contains t

/-- The first poll puts the waker on the list. -/
def registers : Option Notified → Bool
  | none => false
  | some f => !f.armed

def notifier : Notifier AsyncNotify Notified where
  init := .new
  notified n _ := (notified, n)
  poll := poll
  notifyWaiters := notifyWaiters
  parked := parked
  registers := registers
  parked_notified := fun _ _ => rfl
  parked_poll := by
    intro n t f hpending
    cases harmed : f.armed with
    | true =>
        rw [poll, harmed] at hpending
        cases hpending
    | false => simp [poll, parked, registers, harmed]
  registers_ready := by
    intro n t f hready
    cases harmed : f.armed with
    | true => rw [registers, harmed]; rfl
    | false =>
        rw [poll, harmed] at hready
        cases hready
  others_notified := fun _ _ _ _ _ => rfl
  others_poll := by
    intro n t f u g hne
    cases harmed : f.armed with
    | true => simp [poll, harmed]
    | false => simp [poll, parked, harmed, hne]
  parked_notifyWaiters := fun _ _ f => Bool.and_false f.armed

end AsyncNotify

/-- Tokio's `Notify`, as far as it is used here: the futures that were created and not reached by
    `notify_waiters` since, each known by the waiter it belongs to. -/
structure Notify where
  waiting : List ℕ
  deriving DecidableEq, Repr

namespace Notify

def new : Notify := ⟨[]⟩

def notifyWaiters (_ : Notify) : Notify := ⟨[]⟩

def notified (n : Notify) (t : ℕ) : Notify := ⟨n.waiting ++ [t]⟩

def parked (n : Notify) (t : ℕ) : Bool := n.waiting.contains t

def poll (n : Notify) (t : ℕ) : Poll := if n.parked t then .pending else .ready

def notifier : Notifier Notify Unit where
  init := .new
  notified n t := ((), n.notified t)
  poll n t f := (n.poll t, f, n)
  notifyWaiters := notifyWaiters
  parked n t _ := n.parked t
  registers f := f.isNone
  parked_notified := fun n t => by simp [parked, notified]
  parked_poll := fun _ _ _ _ => rfl
  registers_ready := fun _ _ _ _ => rfl
  others_notified := fun n t u g hne => by simp [parked, notified, hne]
  others_poll := fun _ _ _ _ _ _ => rfl
  parked_notifyWaiters := fun _ _ _ => rfl

end Notify

namespace CancellationToken

/-- A token without children. -/
def new : State AsyncNotify AsyncNotify.Notified := init AsyncNotify.notifier

/-- A call of `cancel`, up to its `notify_waiters`, or of `wait_cancelled`, or a step of one. -/
abbrev step := Gate.step AsyncNotify.notifier

variable (s : State AsyncNotify AsyncNotify.Notified)

/-- The token is cancelled, whoever did it has notified the waiters, and somebody whose waker is
    registered has not been woken. -/
def Sleeps : Prop :=
  (s.flag = true ∧ Setting.notifying ∉ s.settings)
    ∧ ∃ t f, s.waits[t]? = some (.waiting f) ∧ f.armed = true ∧ t ∈ s.notify.waiters

/-- A waker is about to be registered when the waiters have been notified. -/
def RegistersLate : Gate.Label → Prop
  | .stepWait t =>
      (s.flag = true ∧ Setting.notifying ∉ s.settings) ∧ s.waits[t]? = some (.waiting ⟨false⟩)
  | .set | .wait | .stepSet _ => False

instance (l : Gate.Label) : Decidable (RegistersLate s l) :=
  match l with
  | .stepWait _ => inferInstanceAs (Decidable (_ ∧ _))
  | .set | .wait | .stepSet _ => inferInstanceAs (Decidable False)

theorem lost_iff : Lost AsyncNotify.notifier s ↔ Sleeps s := by
  simp only [Lost, Settled, Sleeps, AsyncNotify.notifier, AsyncNotify.parked, Bool.and_eq_true,
    List.contains_iff_mem]

theorem prompt_iff (l : Gate.Label) : Prompt AsyncNotify.notifier s l ↔ ¬ RegistersLate s l := by
  cases l with
  | stepWait t =>
      refine prompt_stepWait (registering_stepWait.trans ?_)
      simp only [AsyncNotify.notifier, AsyncNotify.registers, Bool.false_eq_true, and_false,
        false_or]
      constructor
      · rintro ⟨⟨armed⟩, hwait, harmed⟩
        obtain rfl : armed = false := by simpa using harmed
        exact hwait
      · intro hwait
        exact ⟨⟨false⟩, hwait, rfl⟩
  | set | wait | stepSet _ => exact iff_of_true (prompt_of_ne (by simp)) id

end CancellationToken

namespace Latch

def make : State Notify Unit := init Notify.notifier

/-- A call of `open` or `wait`, or a step of one. -/
abbrev step := Gate.step Notify.notifier

variable (s : State Notify Unit)

/-- The latch is open, whoever opened it has notified the waiters, and somebody whose future was
    created has not been reached. -/
def Sleeps : Prop :=
  (s.flag = true ∧ Setting.notifying ∉ s.settings)
    ∧ ∃ t, s.waits[t]? = some (.waiting ()) ∧ t ∈ s.notify.waiting

/-- A future is about to be created when the waiters have been notified. -/
def RegistersLate : Gate.Label → Prop
  | .stepWait t =>
      (s.flag = true ∧ Setting.notifying ∉ s.settings) ∧ s.waits[t]? = some .creating
  | .set | .wait | .stepSet _ => False

instance (l : Gate.Label) : Decidable (RegistersLate s l) :=
  match l with
  | .stepWait _ => inferInstanceAs (Decidable (_ ∧ _))
  | .set | .wait | .stepSet _ => inferInstanceAs (Decidable False)

theorem lost_iff : Lost Notify.notifier s ↔ Sleeps s := by
  simp only [Lost, Settled, Sleeps, Notify.notifier, Notify.parked, List.contains_iff_mem]
  refine and_congr_right fun _ => exists_congr fun t => ⟨fun ⟨_, h⟩ => h, fun h => ⟨(), h⟩⟩

theorem prompt_iff (l : Gate.Label) : Prompt Notify.notifier s l ↔ ¬ RegistersLate s l := by
  cases l with
  | stepWait t =>
      refine prompt_stepWait (registering_stepWait.trans ?_)
      simp [Notify.notifier]
  | set | wait | stepSet _ => exact iff_of_true (prompt_of_ne (by simp)) id

end Latch

/-- **A wakeup is lost exactly when a waiter that has found the flag down registers only after the
    signal has been given**: with its first poll for a token, with the creation of its future for a
    latch. -/
theorem never_sleeps_iff {ls ls' : List Gate.Label} {s : State AsyncNotify AsyncNotify.Notified}
    {s' : State Notify Unit}
    (hcancel : run CancellationToken.step CancellationToken.new ls = some s)
    (hopen : run Latch.step Latch.make ls' = some s') :
    (Throughout CancellationToken.step (fun s => ¬ CancellationToken.Sleeps s)
          CancellationToken.new ls
        ↔ Along CancellationToken.step (fun s l => ¬ CancellationToken.RegistersLate s l)
          CancellationToken.new ls)
      ∧ (Throughout Latch.step (fun s => ¬ Latch.Sleeps s) Latch.make ls'
        ↔ Along Latch.step (fun s l => ¬ Latch.RegistersLate s l) Latch.make ls') := by
  simp only [← CancellationToken.lost_iff, ← CancellationToken.prompt_iff, ← Latch.lost_iff,
    ← Latch.prompt_iff]
  exact ⟨never_lost_iff hcancel, never_lost_iff hopen⟩

/-- Two waiters register in time, a third one finds the flag up, and everybody returns. -/
theorem never_sleeps_iff_three :
    Throughout CancellationToken.step (fun s => ¬ CancellationToken.Sleeps s) CancellationToken.new
        [.wait, .wait, .stepWait 0, .stepWait 0, .stepWait 0, .stepWait 1, .set, .stepWait 1,
          .stepSet 0, .stepWait 1, .set, .stepSet 1, .stepSet 0, .wait, .stepWait 2, .stepWait 0,
          .stepWait 1, .stepWait 0, .stepWait 1]
      ∧ Throughout Latch.step (fun s => ¬ Latch.Sleeps s) Latch.make
        [.wait, .wait, .stepWait 0, .stepWait 0, .stepWait 1, .set, .stepSet 0, .stepWait 1,
          .stepWait 1, .stepSet 0, .stepWait 1, .stepWait 0, .stepWait 1, .stepWait 0] :=
  ⟨(@never_sleeps_iff _ [] _ _ rfl rfl).1.2 (by decide),
    (@never_sleeps_iff [] _ _ _ rfl rfl).2.2 (by decide)⟩

/-- The flag goes up and the signal is given between the load and the registration. -/
theorem sleeps_reachable :
    (¬ ∀ (ls : List Gate.Label) (s : State AsyncNotify AsyncNotify.Notified),
        run CancellationToken.step CancellationToken.new ls = some s →
          ¬ CancellationToken.Sleeps s)
      ∧ ¬ ∀ (ls : List Gate.Label) (s : State Notify Unit),
        run Latch.step Latch.make ls = some s → ¬ Latch.Sleeps s := by
  refine ⟨fun h => ?_, fun h => ?_⟩
  · refine h [.wait, .stepWait 0, .set, .stepSet 0, .stepSet 0, .stepWait 0, .stepWait 0] _ rfl ?_
    exact ⟨by decide, 0, ⟨true⟩, by decide⟩
  · refine h [.wait, .stepWait 0, .set, .stepSet 0, .stepSet 0, .stepWait 0] _ rfl ?_
    exact ⟨by decide, 0, by decide⟩

end IdEffect.Concurrency
