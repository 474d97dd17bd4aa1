import Mathlib.Logic.Function.Basic
import IdEffect.Lib.Transition
import IdEffect.Lib.Signal
import IdEffect.Coordination.Queue
import IdEffect.Coordination.PubSub

set_option autoImplicit false

/-! # Waiting on a queue or a hub

A receiver of a sliding queue that finds the deque empty lets go of the lock and then creates its
`Notified` future; a caller of `await_shutdown` reads the shutdown flag and then subscribes to it.
Neither hears a signal that was given in between. The system below takes the lock-protected sections
and each call of `Notify` and `watch` as its steps. `notify_waiters` and `send_replace` count their
calls; a waiter remembers the count at its registration and sleeps until it has changed.

Somebody can sleep through a signal (`signal_before_registration_lost`). As long as every signal is
given at a moment when nobody it is meant for stands between the check and the registration, nobody
ever does (`awake_of_prompt`), and a signal given too early is always lost on whoever registers next
(`early_signal_lost`). -/

namespace IdEffect.Wakeup

open Transition Signal

variable {Tid A : Type} [DecidableEq Tid]

/-! ## The shared objects -/

/-- What has a `shutdown` and an `await_shutdown`: both kinds of queue, and the hub. -/
inductive Shared (A : Type) where
  | queue (q : Queue A)
  | hub (p : PubSubInner A)
deriving DecidableEq

namespace Shared

def isShutdown : Shared A → Bool
  | .queue q => q.isShutdown
  | .hub p => p.shutdown

/-- A receiver of the sliding queue would not have to wait. Receivers of the other queues wait
    inside the channel, not here. -/
def ready : Shared A → Bool
  | .queue (.fromSliding s) => !s.deque.isEmpty || !s.isOpen
  | _ => false

end Shared

/-! ## Calls and steps -/

/-- Where a call stands: the name of a state says what the call has just done or is about to do. -/
inductive Call (A : Type) where
  | idle
  /-- An `offer_all` with these elements to go (an `offer` has one). -/
  | offering (rest : List A)
  /-- The lock is released, `notify_waiters` comes next. -/
  | pushed (rest : List A)
  | receiving
  /-- Nothing there, the lock is released, `notified()` comes next. -/
  | foundEmpty
  | parked (seen : ℕ)
  | closing
  /-- The lock is released, `send_replace` comes next. -/
  | closed
  /-- `notify_waiters` comes next. -/
  | announced
  | awaiting
  /-- The flag was down, `subscribe` comes next. -/
  | borrowed
  | subscribed (seen : ℕ)
  | finished
deriving DecidableEq

namespace Call

/-- The call still has a `notify_waiters` to make (if it is not on a hub, where nobody waits for
    one). -/
def notifies : Call A → Bool
  | .pushed _ | .closed | .announced => true
  | _ => false

/-- The call as a waiter for `not_empty`. -/
def receiver : Call A → Waiter
  | .foundEmpty => .unregistered
  | .parked seen => .registered seen
  | _ => .away

/-- The call as a waiter for the shutdown flag. -/
def awaiter : Call A → Waiter
  | .borrowed => .unregistered
  | .subscribed seen => .registered seen
  | _ => .away

end Call

structure Sys (Tid A : Type) where
  shared : Shared A
  notifyCount : ℕ
  watchVersion : ℕ
  calls : Tid → Call A

inductive Label (Tid A : Type) where
  | offerAll (t : Tid) (vs : List A)
  | recv (t : Tid)
  | tryRecv (t : Tid)
  | shutdown (t : Tid)
  | awaitShutdown (t : Tid)
  | step (t : Tid)
deriving DecidableEq

namespace Sys

def init (x : Shared A) : Sys Tid A := ⟨x, 0, 0, fun _ => .idle⟩

def setCall (s : Sys Tid A) (t : Tid) (c : Call A) : Sys Tid A :=
  { s with calls := Function.update s.calls t c }

def setShared (s : Sys Tid A) (x : Shared A) : Sys Tid A := { s with shared := x }

/-- `not_empty.notify_waiters()`. -/
def notifyWaiters (s : Sys Tid A) : Sys Tid A := { s with notifyCount := s.notifyCount + 1 }

/-- `shutdown.send_replace(true)`, which leaves `x` behind. -/
def sendReplace (s : Sys Tid A) (x : Shared A) : Sys Tid A :=
  { s with shared := x, watchVersion := s.watchVersion + 1 }

/-- A new call starts in state `c`. -/
def start (s : Sys Tid A) (t : Tid) (c : Call A) : Option (Sys Tid A) :=
  match s.calls t with
  | .idle => some (s.setCall t c)
  | _ => none

/-- The section of `offer` that holds the lock. -/
def stepOffer (s : Sys Tid A) (t : Tid) (v : A) (rest : List A) : Option (Sys Tid A) :=
  match s.shared with
  | .queue (.fromFlume f) =>
      some ((s.setShared (.queue (.fromFlume (f.offer v).2))).setCall t (.offering rest))
  | .queue (.fromSliding q) =>
      match q.offerOrRetain v with
      | (.ok (), q') => some ((s.setShared (.queue (.fromSliding q'))).setCall t (.pushed rest))
      | (.error _, q') =>
          some ((s.setShared (.queue (.fromSliding q'))).setCall t (.offering rest))
  | .hub _ => none

/-- One look at the queue; a receiver of a flume queue waits inside the channel. -/
def stepRecv (s : Sys Tid A) (t : Tid) : Option (Sys Tid A) :=
  match s.shared with
  | .queue (.fromFlume f) =>
      match f.recv with
      | some (_, f') => some ((s.setShared (.queue (.fromFlume f'))).setCall t .finished)
      | none => none
  | .queue (.fromSliding q) =>
      match q.recv with
      | some (_, q') => some ((s.setShared (.queue (.fromSliding q'))).setCall t .finished)
      | none => some (s.setCall t .foundEmpty)
  | .hub _ => none

/-- The section of `shutdown` that holds the lock; the flume queue announces within it. -/
def stepClose (s : Sys Tid A) (t : Tid) : Sys Tid A :=
  match s.shared with
  | .queue (.fromFlume f) => (s.sendReplace (.queue (.fromFlume f.close))).setCall t .finished
  | .queue (.fromSliding q) =>
      (s.setShared (.queue (.fromSliding q.closeState))).setCall t .closed
  | .hub p => (s.setShared (.hub p.takeSender)).setCall t .closed

def stepAnnounce (s : Sys Tid A) (t : Tid) : Option (Sys Tid A) :=
  match s.shared with
  | .queue (.fromFlume _) => none
  | .queue (.fromSliding q) =>
      some ((s.sendReplace (.queue (.fromSliding q.announce))).setCall t .announced)
  | .hub p => some ((s.sendReplace (.hub p.announce)).setCall t .finished)

def step (s : Sys Tid A) : Label Tid A → Option (Sys Tid A)
  | .offerAll t vs => s.start t (.offering vs)
  | .recv t => s.start t .receiving
  | .shutdown t => s.start t .closing
  | .awaitShutdown t => s.start t .awaiting
  | .tryRecv t =>
      match s.calls t, s.shared with
      | .idle, .queue q => some ((s.setShared (.queue q.tryRecv.2)).setCall t .finished)
      | _, _ => none
  | .step t =>
      match s.calls t with
      | .idle | .finished => none
      | .offering [] => some (s.setCall t .finished)
      | .offering (v :: rest) => s.stepOffer t v rest
      | .pushed rest => some (s.notifyWaiters.setCall t (.offering rest))
      | .receiving => s.stepRecv t
      | .foundEmpty => some (s.setCall t (.parked s.notifyCount))
      | .parked seen => if s.notifyCount = seen then none else some (s.setCall t .receiving)
      | .closing => some (s.stepClose t)
      | .closed => s.stepAnnounce t
      | .announced => some (s.notifyWaiters.setCall t .finished)
      | .awaiting =>
          if s.shared.isShutdown then some (s.setCall t .finished)
          else some (s.setCall t .borrowed)
      | .borrowed => some (s.setCall t (.subscribed s.watchVersion))
      | .subscribed seen => if s.watchVersion = seen then none else some (s.setCall t .finished)

/-! ## The promise -/

/-- A receiver sleeps although it could go on, and nobody is going to wake it. -/
def ReceiverLost (s : Sys Tid A) (t : Tid) : Prop :=
  s.calls t = .parked s.notifyCount ∧ s.shared.ready = true ∧ ∀ u, (s.calls u).notifies = false

/-- A caller of `await_shutdown` sleeps although the flag is up. -/
def AwaiterLost (s : Sys Tid A) (t : Tid) : Prop :=
  s.calls t = .subscribed s.watchVersion ∧ s.shared.isShutdown = true

def Awake (s : Sys Tid A) : Prop := ∀ t, ¬ s.ReceiverLost t ∧ ¬ s.AwaiterLost t

/-- A `notify_waiters` on a queue with something to offer is not the last one due while a receiver
    has looked but not registered, and the flag goes up while nobody has looked but not
    subscribed. -/
def Prompt (s : Sys Tid A) : Label Tid A → Prop
  | .step t =>
      match s.calls t with
      | .pushed _ | .announced =>
          s.shared.ready = true → (∃ u, u ≠ t ∧ (s.calls u).notifies = true) ∨
            ∀ r, s.calls r ≠ .foundEmpty
      | .closing =>
          match s.shared with
          | .queue (.fromFlume _) => ∀ r, s.calls r ≠ .borrowed
          | _ => True
      | .closed => ∀ r, s.calls r ≠ .borrowed
      | _ => True
  | _ => True

end Sys

/-- A queue or a hub as its constructor leaves it. -/
inductive Fresh : Shared A → Prop
  | queue (mode : Mode) : Fresh (.queue mode.make)
  | hub (ring capacity : ℕ) (mode : PubSubMode) : Fresh (.hub (.new ring capacity mode))

/-- Nobody is ever lost. -/
def NoLostWakeup (Tid A : Type) [DecidableEq Tid] : Prop :=
  ∀ (x : Shared A), Fresh x → ∀ (ls : List (Label Tid A)) (s : Sys Tid A),
    run Sys.step (Sys.init x) ls = some s → s.Awake

/-- **Signals are lost.** An element is offered between the look of a receiver and its registration:
    the receiver sleeps on a queue that holds the element. And a shutdown between the look at the
    flag and the subscription is never heard of. -/
theorem signal_before_registration_lost :
    (∃ s : Sys ℕ ℕ, run Sys.step (Sys.init (.queue (Mode.sliding 1).make))
        [.recv 0, .step 0, .offerAll 1 [7], .step 1, .step 1, .step 1, .step 0] = some s ∧
      s.calls 0 = .parked s.notifyCount ∧ s.shared.ready = true ∧ s.calls 1 = .finished) ∧
    (∃ s : Sys ℕ ℕ, run Sys.step (Sys.init (.queue (Mode.sliding 1).make))
        [.awaitShutdown 0, .step 0, .shutdown 1, .step 1, .step 1, .step 1, .step 0] = some s ∧
      s.AwaiterLost 0) ∧
    (∃ s : Sys ℕ ℕ, run Sys.step (Sys.init (.queue Mode.unbounded.make))
        [.awaitShutdown 0, .step 0, .shutdown 1, .step 1, .step 0] = some s ∧ s.AwaiterLost 0) ∧
    (∃ s : Sys ℕ ℕ, run Sys.step (Sys.init (.hub (.new 4 4 .bounded)))
        [.awaitShutdown 0, .step 0, .shutdown 1, .step 1, .step 1, .step 0] = some s ∧
      s.AwaiterLost 0) ∧
    ¬ NoLostWakeup ℕ ℕ := by
  have hlost : ∃ s : Sys ℕ ℕ, run Sys.step (Sys.init (.hub (.new 4 4 .bounded)))
      [.awaitShutdown 0, .step 0, .shutdown 1, .step 1, .step 1, .step 0] = some s ∧
      s.AwaiterLost 0 := ⟨_, rfl, rfl, rfl⟩
  refine ⟨⟨_, rfl, rfl, rfl, rfl⟩, ⟨_, rfl, rfl, rfl⟩, ⟨_, rfl, rfl, rfl⟩, hlost, ?_⟩
  intro h
  obtain ⟨s, hrun, hs⟩ := hlost
  exact (h _ (.hub 4 4 .bounded) _ s hrun 0).2 hs

/-! ## One step -/

variable {s s' : Sys Tid A} {l : Label Tid A}

/-- What a step of the system can do, as seen by those who wait. -/
inductive Step (s : Sys Tid A) : Label Tid A → Sys Tid A → Prop
  /-- A call that owes no signal goes on and does not wait; what there is to wait for can only get
      less. -/
  | quiet {l : Label Tid A} {t : Tid} {c : Call A} {x : Shared A}
      (h : (s.calls t).notifies = false) (hr : c.receiver = .away) (ha : c.awaiter = .away)
      (hready : x.ready = true → s.shared.ready = true)
      (hshut : x.isShutdown = s.shared.isShutdown) : Step s l ((s.setShared x).setCall t c)
  /-- The queue changes, and the call is going to say so. -/
  | promise {l : Label Tid A} {t : Tid} {c : Call A} {x : Shared A} (hn : c.notifies = true)
      (hr : c.receiver = .away) (ha : c.awaiter = .away)
      (hshut : x.isShutdown = s.shared.isShutdown) : Step s l ((s.setShared x).setCall t c)
  | findEmpty {t : Tid} (h : s.calls t = .receiving) (hready : s.shared.ready = false) :
      Step s (.step t) (s.setCall t .foundEmpty)
  | park {t : Tid} (h : s.calls t = .foundEmpty) :
      Step s (.step t) (s.setCall t (.parked s.notifyCount))
  | borrow {t : Tid} (h : s.calls t = .awaiting) (hshut : s.shared.isShutdown = false) :
      Step s (.step t) (s.setCall t .borrowed)
  | subscribe {t : Tid} (h : s.calls t = .borrowed) :
      Step s (.step t) (s.setCall t (.subscribed s.watchVersion))
  | notify {t : Tid} {c : Call A} (h : (∃ rest, s.calls t = .pushed rest) ∨ s.calls t = .announced)
      (hn : c.notifies = false) (hr : c.receiver = .away) (ha : c.awaiter = .away) :
      Step s (.step t) (s.notifyWaiters.setCall t c)
  | announce {t : Tid} {c : Call A} {x : Shared A}
      (h : s.calls t = .closed ∨ s.calls t = .closing ∧ ∃ f, s.shared = .queue (.fromFlume f))
      (hn : x.ready = true → c.notifies = true) (hr : c.receiver = .away) (ha : c.awaiter = .away)
      (hready : x.ready = s.shared.ready) (hshut : x.isShutdown = true) :
      Step s (.step t) ((s.sendReplace x).setCall t c)

theorem Step.of_quiet {t : Tid} {c : Call A} (h : (s.calls t).notifies = false)
    (hr : c.receiver = .away) (ha : c.awaiter = .away) : Step s l (s.setCall t c) :=
  .quiet (x := s.shared) h hr ha id rfl

theorem Step.of_start {t : Tid} {c : Call A} (hr : c.receiver = .away) (ha : c.awaiter = .away)
    (h : s.start t c = some s') : Step s l s' := by
  unfold Sys.start at h
  split at h
  · next hc => exact Option.some.inj h ▸ .of_quiet (by simp [hc, Call.notifies]) hr ha
  · cases h

theorem Step.of_stepOffer {t : Tid} {v : A} {rest : List A}
    (hc : s.calls t = .offering (v :: rest)) (h : s.stepOffer t v rest = some s') :
    Step s (.step t) s' := by
  have hn : (s.calls t).notifies = false := by simp [hc, Call.notifies]
  unfold Sys.stepOffer at h
  split at h
  · next f hf =>
      refine Option.some.inj h ▸ .quiet hn rfl rfl (by simp [Shared.ready]) ?_
      simp only [hf, Shared.isShutdown, Queue.isShutdown, FlumeShared.offer, FlumeShared.trySend]
      split
      · cases f.cap with
        | none => rfl
        | some c => by_cases hcap : c ≤ f.buf.length <;> simp [hcap]
      · rfl
  · next q hq =>
      simp only [SlidingShared.offerOrRetain] at h
      cases ho : q.isOpen with
      | true =>
          simp only [ho, if_true, Option.some.injEq] at h
          exact h ▸ .promise rfl rfl rfl (by simp [hq, Shared.isShutdown, Queue.isShutdown])
      | false =>
          simp only [ho, Bool.false_eq_true, if_false, Option.some.injEq] at h
          exact h ▸ .quiet hn rfl rfl (by simp [hq]) (by simp [hq])
  · cases h

/-- A receiver that does not have to wait finds the queue ready. -/
theorem ready_of_recv {q q' : SlidingShared A} {res : Except QueueError A}
    (h : q.recv = some (res, q')) : (Shared.queue (.fromSliding q)).ready = true := by
  unfold SlidingShared.recv at h
  cases hd : q.deque with
  | cons v rest => simp [Shared.ready, hd]
  | nil => cases ho : q.isOpen <;> simp_all [Shared.ready]

theorem ready_of_recv_none {q : SlidingShared A} (h : q.recv = none) :
    (Shared.queue (.fromSliding q)).ready = false := by
  unfold SlidingShared.recv at h
  cases hd : q.deque with
  | cons v rest => simp [hd] at h
  | nil => cases ho : q.isOpen <;> simp_all [Shared.ready]

theorem recv_shutdown {q q' : Queue A} {res : Except QueueError A} (h : q.recv = some (res, q')) :
    q'.isShutdown = q.isShutdown := by
  cases res with
  | error e => rw [(Queue.recv_error h).1]
  | ok v =>
      obtain ⟨rest, -, rfl⟩ := Queue.recv_taken h
      exact Queue.isShutdown_withBuffered q rest

theorem Step.of_stepRecv {t : Tid} (hc : s.calls t = .receiving)
    (h : s.stepRecv t = some s') : Step s (.step t) s' := by
  have hn : (s.calls t).notifies = false := by simp [hc, Call.notifies]
  unfold Sys.stepRecv at h
  split at h
  · next f hf =>
      split at h
      · next res f' hr =>
          have hq : (Queue.fromFlume f).recv = some (res, .fromFlume f') := by simp [Queue.recv, hr]
          refine Option.some.inj h ▸ .quiet hn rfl rfl (by simp [Shared.ready]) ?_
          rw [hf]
          exact recv_shutdown hq
      · cases h
  · next q hq =>
      split at h
      · next res q' hr =>
          have hq' : (Queue.fromSliding q).recv = some (res, .fromSliding q') := by
            simp [Queue.recv, hr]
          refine Option.some.inj h ▸ .quiet hn rfl rfl (fun _ => ?_) ?_
          · rw [hq]
            exact ready_of_recv hr
          · rw [hq]
            exact recv_shutdown hq'
      · next hr => exact Option.some.inj h ▸ .findEmpty hc (by rw [hq]; exact ready_of_recv_none hr)
  · cases h

theorem Step.of_tryRecv {t : Tid} {q : Queue A} (hc : s.calls t = .idle)
    (hq : s.shared = .queue q) :
    Step s l ((s.setShared (.queue q.tryRecv.2)).setCall t .finished) := by
  have hn : (s.calls t).notifies = false := by simp [hc, Call.notifies]
  rw [Queue.tryRecv_eq]
  cases hr : q.recv with
  | none => exact .quiet hn rfl rfl (by simp [hq]) (by simp [hq])
  | some r =>
      have hready : s.shared.ready = true ∨ ∃ f, q = .fromFlume f := by
        cases q with
        | fromFlume f => exact Or.inr ⟨f, rfl⟩
        | fromSliding q =>
            obtain ⟨r', hr', -⟩ := Option.map_eq_some_iff.1 hr
            exact Or.inl (hq ▸ ready_of_recv hr')
      have hkeep : (Shared.queue r.2).ready = true → s.shared.ready = true := by
        rcases hready with h | ⟨f, rfl⟩
        · exact fun _ => h
        · obtain ⟨r', -, rfl⟩ := Option.map_eq_some_iff.1 hr
          simp [Shared.ready]
      have hshut : (Shared.queue r.2).isShutdown = s.shared.isShutdown := by
        rw [hq]
        exact recv_shutdown hr
      obtain ⟨v | v, q'⟩ := r
      · exact .quiet hn rfl rfl hkeep hshut
      · exact .quiet hn rfl rfl hkeep hshut

theorem Step.of_stepClose {t : Tid} (hc : s.calls t = .closing) :
    Step s (.step t) (s.stepClose t) := by
  unfold Sys.stepClose
  split
  · next f hf =>
      exact .announce (Or.inr ⟨hc, f, hf⟩) (by simp [Shared.ready]) rfl rfl
        (by simp [hf, Shared.ready]) rfl
  · next q hq => exact .promise rfl rfl rfl (by rw [hq]; rfl)
  · next p hp => exact .promise rfl rfl rfl (by rw [hp]; rfl)

theorem Step.of_stepAnnounce {t : Tid} (hc : s.calls t = .closed)
    (h : s.stepAnnounce t = some s') : Step s (.step t) s' := by
  unfold Sys.stepAnnounce at h
  split at h
  · cases h
  · next q hq =>
      exact Option.some.inj h ▸ .announce (Or.inl hc) (fun _ => rfl) rfl rfl (by rw [hq]; rfl) rfl
  · next p hp =>
      exact Option.some.inj h ▸ .announce (Or.inl hc) (by simp [Shared.ready]) rfl rfl
        (by rw [hp]; rfl) rfl

theorem Step.of_step (h : s.step l = some s') : Step s l s' := by
  cases l with
  | offerAll t vs => exact .of_start rfl rfl h
  | recv t => exact .of_start rfl rfl h
  | shutdown t => exact .of_start rfl rfl h
  | awaitShutdown t => exact .of_start rfl rfl h
  | tryRecv t =>
      simp only [Sys.step] at h
      split at h
      · next q hc hq => exact Option.some.inj h ▸ .of_tryRecv hc hq
      · cases h
  | step t =>
      simp only [Sys.step] at h
      cases hc : s.calls t with
      | idle => simp [hc] at h
      | finished => simp [hc] at h
      | offering rest =>
          cases rest with
          | nil =>
              simp only [hc, Option.some.injEq] at h
              exact h ▸ .of_quiet (by simp [hc, Call.notifies]) rfl rfl
          | cons v rest => exact .of_stepOffer hc (by simpa [hc] using h)
      | pushed rest =>
          simp only [hc, Option.some.injEq] at h
          exact h ▸ .notify (Or.inl ⟨rest, hc⟩) rfl rfl rfl
      | receiving => exact .of_stepRecv hc (by simpa [hc] using h)
      | foundEmpty =>
          simp only [hc, Option.some.injEq] at h
          exact h ▸ .park hc
      | parked seen =>
          simp only [hc] at h
          split at h
          · cases h
          · exact Option.some.inj h ▸ .of_quiet (by simp [hc, Call.notifies]) rfl rfl
      | closing =>
          simp only [hc, Option.some.injEq] at h
          exact h ▸ .of_stepClose hc
      | closed => exact .of_stepAnnounce hc (by simpa [hc] using h)
      | announced =>
          simp only [hc, Option.some.injEq] at h
          exact h ▸ .notify (Or.inr hc) rfl rfl rfl
      | awaiting =>
          simp only [hc] at h
          split at h
          · exact Option.some.inj h ▸ .of_quiet (by simp [hc, Call.notifies]) rfl rfl
          · next hs => exact Option.some.inj h ▸ .borrow hc (by simpa using hs)
      | borrowed =>
          simp only [hc, Option.some.injEq] at h
          exact h ▸ .subscribe hc
      | subscribed seen =>
          simp only [hc] at h
          split at h
          · cases h
          · exact Option.some.inj h ▸ .of_quiet (by simp [hc, Call.notifies]) rfl rfl

/-! ## Nobody is lost to a prompt signal -/

/-- Somebody has a `notify_waiters` to make. -/
def Due (s : Sys Tid A) : Prop := ∃ u, (s.calls u).notifies = true

/-- Every waiter is covered: for `not_empty` by the calls that still have to notify, for the flag by
    its being down. -/
structure Inv (s : Sys Tid A) : Prop where
  receivers : ∀ t, Covered s.notifyCount (s.shared.ready = true) (Due s) (s.calls t).receiver
  awaiters : ∀ t, Covered s.watchVersion (s.shared.isShutdown = true) False (s.calls t).awaiter

theorem setCall_calls (t u : Tid) (c : Call A) :
    (s.setCall t c).calls u = if u = t then c else s.calls u := by
  simp only [Sys.setCall, Function.update_apply]

/-- All waiters of a kind are covered after one call has changed its state. -/
theorem covered_setCall (f : Call A → Waiter) {epoch : ℕ} {due pending : Prop} {t : Tid}
    {c : Call A} (hc : Covered epoch due pending (f c))
    (h : ∀ u, u ≠ t → Covered epoch due pending (f (s.calls u))) :
    ∀ u, Covered epoch due pending (f ((s.setCall t c).calls u)) := by
  intro u
  rw [setCall_calls]
  by_cases hu : u = t
  · rw [if_pos hu]
    exact hc
  · rw [if_neg hu]
    exact h u hu

theorem due_setCall {t : Tid} {c : Call A} (h : c.notifies = true) : Due (s.setCall t c) :=
  ⟨t, by simpa [setCall_calls] using h⟩

theorem Due.setCall {t : Tid} {c : Call A} (hd : Due s) (h : (s.calls t).notifies = false) :
    Due (s.setCall t c) := by
  obtain ⟨u, hu⟩ := hd
  have hne : u ≠ t := by
    rintro rfl
    rw [h] at hu
    cases hu
  exact ⟨u, by simpa [setCall_calls, hne] using hu⟩

omit [DecidableEq Tid] in
theorem inv_init (x : Shared A) : Inv (Sys.init x : Sys Tid A) :=
  ⟨fun _ => trivial, fun _ => trivial⟩

/-- What is due to the receivers stays due when a call that owes them nothing moves on. -/
theorem Inv.receivers_setCall (hs : Inv s) {t : Tid} (hn : (s.calls t).notifies = false)
    (c : Call A) (u : Tid) :
    Covered s.notifyCount (s.shared.ready = true) (Due (s.setCall t c)) (s.calls u).receiver :=
  (hs.receivers u).mono fun himp hd => (himp hd).setCall hn

/-- **Every prompt step keeps the waiters covered.** -/
theorem Inv.step (hs : Inv s) (h : Step s l s') (hp : s.Prompt l) : Inv s' := by
  cases h with
  | @quiet l t c x hn hr ha hready hshut =>
      refine ⟨covered_setCall Call.receiver (by rw [hr]; trivial) fun u _ => ?_,
        covered_setCall Call.awaiter (by rw [ha]; trivial) fun u _ => ?_⟩
      · exact (hs.receivers u).mono fun himp hd => (himp (hready hd)).setCall hn
      · exact (hs.awaiters u).mono fun himp hd => himp (hshut ▸ hd)
  | promise hn hr ha hshut =>
      refine ⟨covered_setCall Call.receiver (by rw [hr]; trivial) fun u _ => ?_,
        covered_setCall Call.awaiter (by rw [ha]; trivial) fun u _ => ?_⟩
      · exact (hs.receivers u).mono fun _ _ => due_setCall hn
      · exact (hs.awaiters u).mono fun himp hd => himp (hshut ▸ hd)
  | @findEmpty t hc hready =>
      have hn : (s.calls t).notifies = false := by simp [hc, Call.notifies]
      refine ⟨covered_setCall Call.receiver ?_ fun u _ => hs.receivers_setCall hn _ u,
        covered_setCall Call.awaiter trivial fun u _ => hs.awaiters u⟩
      intro hd
      have hd : s.shared.ready = true := hd
      simp [hready] at hd
  | @park t hc =>
      have hn : (s.calls t).notifies = false := by simp [hc, Call.notifies]
      have ht : Covered s.notifyCount (s.shared.ready = true) (Due s) .unregistered := by
        simpa [hc, Call.receiver] using hs.receivers t
      refine ⟨covered_setCall Call.receiver ?_ fun u _ => hs.receivers_setCall hn _ u,
        covered_setCall Call.awaiter trivial fun u _ => hs.awaiters u⟩
      exact ht.register.mono fun himp hd => (himp hd).setCall hn
  | @borrow t hc hshut =>
      have hn : (s.calls t).notifies = false := by simp [hc, Call.notifies]
      refine ⟨covered_setCall Call.receiver trivial fun u _ => hs.receivers_setCall hn _ u,
        covered_setCall Call.awaiter ?_ fun u _ => hs.awaiters u⟩
      intro hd
      have hd : s.shared.isShutdown = true := hd
      simp [hshut] at hd
  | @subscribe t hc =>
      have hn : (s.calls t).notifies = false := by simp [hc, Call.notifies]
      have ht : Covered s.watchVersion (s.shared.isShutdown = true) False .unregistered := by
        simpa [hc, Call.awaiter] using hs.awaiters t
      exact ⟨covered_setCall Call.receiver trivial fun u _ => hs.receivers_setCall hn _ u,
        covered_setCall Call.awaiter ht.register fun u _ => hs.awaiters u⟩
  | @notify t c hc hn hr ha =>
      have hp : s.shared.ready = true → (∃ u, u ≠ t ∧ (s.calls u).notifies = true) ∨
          ∀ r, s.calls r ≠ .foundEmpty := by
        rcases hc with ⟨rest, hc⟩ | hc <;> simpa [Sys.Prompt, hc] using hp
      refine ⟨covered_setCall Call.receiver (by rw [hr]; trivial) fun u _ => ?_,
        covered_setCall Call.awaiter (by rw [ha]; trivial) fun u _ => hs.awaiters u⟩
      refine (hs.receivers u).fire fun hu hd => ?_
      rcases hp hd with ⟨v, hv, hvn⟩ | hnone
      · have hstill : ((s.notifyWaiters.setCall t c).calls v) = s.calls v := by
          rw [setCall_calls, if_neg hv]
          rfl
        exact ⟨v, hstill ▸ hvn⟩
      · -- a call that is not registered has found the queue empty
        have hfound : s.calls u = .foundEmpty := by
          cases hcu : s.calls u <;> simp_all [Call.receiver]
        exact absurd hfound (hnone u)
  | @announce t c x hc hn hr ha hready hshut =>
      have hp : ∀ r, s.calls r ≠ .borrowed := by
        rcases hc with hc | ⟨hc, f, hf⟩
        · simpa [Sys.Prompt, hc] using hp
        · simpa [Sys.Prompt, hc, hf] using hp
      refine ⟨covered_setCall Call.receiver (by rw [hr]; trivial) fun u _ => ?_,
        covered_setCall Call.awaiter (by rw [ha]; trivial) fun u _ => ?_⟩
      · exact (hs.receivers u).mono fun _ hd => due_setCall (hn hd)
      · refine (hs.awaiters u).fire fun hu _ => ?_
        have hborrowed : s.calls u = .borrowed := by
          cases hcu : s.calls u <;> simp_all [Call.awaiter]
        exact hp u hborrowed

omit [DecidableEq Tid] in
theorem Inv.awake (hs : Inv s) : s.Awake := by
  intro t
  constructor
  · rintro ⟨hc, hready, hnone⟩
    have ht := hs.receivers t
    rw [hc] at ht
    obtain ⟨u, hu⟩ := ht.pending_of_asleep hready
    rw [hnone u] at hu
    cases hu
  · rintro ⟨hc, hshut⟩
    have ht := hs.awaiters t
    rw [hc] at ht
    exact ht.pending_of_asleep hshut

/-- **No lost wakeup among prompt signals.** In a run of a queue or a hub whose signals are all
    given while nobody they are meant for stands between the look and the registration, every state
    reached is one where nobody sleeps through what they wait for. -/
theorem awake_of_prompt (x : Shared A) (ls : List (Label Tid A)) (s : Sys Tid A)
    (hrun : run Sys.step (Sys.init x) ls = some s)
    (hp : Along Sys.step Sys.Prompt (Sys.init x) ls) : s.Awake := by
  have hinv : Inv s := run_invariant_along (fun _ _ _ hs hp h => hs.step (.of_step h) hp)
    (inv_init x) hp hrun
  exact hinv.awake

/-- A receiver that registers before the element comes is woken and takes it. -/
theorem awake_of_prompt_parked : ∃ s : Sys Bool ℕ,
    run Sys.step (Sys.init (.queue (Mode.sliding 1).make)) [.recv false, .step false, .step false,
      .offerAll true [7], .step true, .step true, .step false, .step false] = some s ∧
    s.calls false = .finished ∧ s.Awake := by
  refine ⟨_, rfl, rfl, awake_of_prompt (.queue (Mode.sliding 1).make) [.recv false, .step false,
    .step false, .offerAll true [7], .step true, .step true, .step false, .step false] _ rfl ?_⟩
  refine along_cons rfl trivial (along_cons rfl trivial (along_cons rfl trivial
    (along_cons rfl trivial (along_cons rfl trivial (along_cons rfl ?_
      (along_cons rfl trivial (along_cons rfl trivial trivial)))))))
  exact fun _ => Or.inr (by decide)

theorem lost_of_foundEmpty {r : Tid} (hr : s.calls r = .foundEmpty) (hready : s.shared.ready = true)
    (hnone : ∀ u, (s.calls u).notifies = false) :
    ∃ s', s.step (.step r) = some s' ∧ ¬ s'.Awake := by
  refine ⟨s.setCall r (.parked s.notifyCount), by simp only [Sys.step, hr], fun hawake => ?_⟩
  refine (hawake r).1 ⟨by simp [Sys.setCall], hready, fun u => ?_⟩
  rw [setCall_calls]
  split
  · rfl
  · exact hnone u

theorem lost_of_borrowed {r : Tid} (hr : s.calls r = .borrowed)
    (hshut : s.shared.isShutdown = true) : ∃ s', s.step (.step r) = some s' ∧ ¬ s'.Awake := by
  refine ⟨s.setCall r (.subscribed s.watchVersion), by simp only [Sys.step, hr], fun hawake => ?_⟩
  exact (hawake r).2 ⟨by simp [Sys.setCall], hshut⟩

/-- **A signal given too early is lost** on whoever it found between the look and the registration:
    one more step of that call, and it sleeps through what it waits for. So the condition of
    `awake_of_prompt` asks for no more than it must. -/
theorem early_signal_lost (h : s.step l = some s') (hp : ¬ s.Prompt l) :
    ∃ r s'', s'.step (.step r) = some s'' ∧ ¬ s''.Awake := by
  -- a call other than the one that moved is still where it was
  have hstay : ∀ {m : Sys Tid A} {t u : Tid} {c d : Call A}, m.calls = s.calls → s.calls u = d →
      s.calls t ≠ d → (m.setCall t c).calls u = d := by
    intro m t u c d hm hu ht
    have hne : u ≠ t := fun he => ht (he ▸ hu)
    rw [setCall_calls, if_neg hne, hm, hu]
  have hnotify : ∀ {t : Tid} {c : Call A}, s.calls t ≠ .foundEmpty → c.notifies = false →
      ¬ (s.shared.ready = true → (∃ u, u ≠ t ∧ (s.calls u).notifies = true) ∨
        ∀ r, s.calls r ≠ .foundEmpty) →
      ∃ r s'', (s.notifyWaiters.setCall t c).step (.step r) = some s'' ∧ ¬ s''.Awake := by
    intro t c hc hn hp
    push Not at hp
    obtain ⟨hready, hnone, r, hr⟩ := hp
    refine ⟨r, lost_of_foundEmpty (hstay rfl hr hc) hready fun u => ?_⟩
    rw [setCall_calls]
    split
    · exact hn
    · next hu => exact eq_false_of_ne_true (hnone u hu)
  cases l with
  | step t =>
      simp only [Sys.step] at h
      cases hc : s.calls t with
      | pushed rest =>
          simp only [hc, Option.some.injEq] at h
          exact h ▸ hnotify (by simp [hc]) rfl (by simpa only [Sys.Prompt, hc] using hp)
      | announced =>
          simp only [hc, Option.some.injEq] at h
          exact h ▸ hnotify (by simp [hc]) rfl (by simpa only [Sys.Prompt, hc] using hp)
      | closing =>
          simp only [hc, Option.some.injEq, Sys.stepClose] at h
          cases hx : s.shared with
          | hub p => simp [Sys.Prompt, hc, hx] at hp
          | queue q =>
              cases q with
              | fromSliding q => simp [Sys.Prompt, hc, hx] at hp
              | fromFlume f =>
                  simp only [Sys.Prompt, hc, hx, not_forall, not_not] at hp
                  obtain ⟨r, hr⟩ := hp
                  simp only [hx] at h
                  exact ⟨r, h ▸ lost_of_borrowed (hstay rfl hr (by simp [hc])) rfl⟩
      | closed =>
          simp only [Sys.Prompt, hc, not_forall, not_not] at hp
          obtain ⟨r, hr⟩ := hp
          simp only [hc, Sys.stepAnnounce] at h
          split at h
          · cases h
          · exact ⟨r, Option.some.inj h ▸ lost_of_borrowed (hstay rfl hr (by simp [hc])) rfl⟩
          · exact ⟨r, Option.some.inj h ▸ lost_of_borrowed (hstay rfl hr (by simp [hc])) rfl⟩
      | _ => simp [Sys.Prompt, hc] at hp
  | _ => exact absurd trivial hp

end IdEffect.Wakeup
