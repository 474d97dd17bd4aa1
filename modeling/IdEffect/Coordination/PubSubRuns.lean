import Mathlib.Logic.Function.Basic
import IdEffect.Lib.Transition
import IdEffect.Coordination.Queue
import IdEffect.Coordination.PubSub

set_option autoImplicit false

/-! # Runs of a hub

Publishers hold the hub's lock from their look at the ring to their send; subscriptions are made
under the lock too. The forwarders of the subscribers take no lock: each receives from the channel
and offers what it got to the queue of its subscriber, in between anything else. A subscription ends
when its scope closes, which drops the receiver, or when somebody shuts its queue down.

On a bounded or a dropping hub the look at the ring is enough: receivers only ever move forward, so
that there is still room when the value is sent, whatever happened in between (`Inv.room`). Hence no
receiver lags, and every live subscriber gets exactly what was published after it came
(`subscribers_miss_nothing`). -/

namespace IdEffect.PubSubRuns

open Transition Broadcast

variable {Tid A : Type} [DecidableEq Tid]

/-! ## Calls, subscribers and steps -/

/-- A publishing call: waiting for the lock, holding it with room found for a value, or done.
    `publish_all` keeps what is still to publish and what could not be sent. -/
inductive Call (A : Type) where
  | idle
  | publish (v : A)
  | publishRoom (v : A)
  | publishDone (ok : Bool)
  | publishAll (rest left : List A)
  | publishAllRoom (v : A) (rest left : List A)
  | publishAllDone (left : List A)
deriving DecidableEq

/-- The call holds the lock. -/
def Call.holds : Call A → Bool
  | .publishRoom _ | .publishAllRoom _ _ _ => true
  | _ => false

/-- A subscriber's queue and its forwarder: `inHand` has been received but not offered yet, and
    `running` says that the forwarder has not seen the channel closed. The subscription is `live`
    until its scope or its queue is closed. `received` and `lags` keep the books: everything the
    queue took in, and the number of `Lagged` errors. -/
structure Subscriber (A : Type) where
  queue : Queue A
  inHand : Option A
  running : Bool
  live : Bool
  received : List A
  lags : ℕ
deriving DecidableEq

namespace Subscriber

def new : Subscriber A := ⟨.unbounded, none, true, true, [], 0⟩

/-- `Ok(v)`: the value is in hand, unless the receiver is being dropped and only counts down. -/
def receive (x : Subscriber A) (v : A) (dropped : Bool) : Subscriber A :=
  { x with inHand := if dropped then none else some v }

/-- `Err(Lagged(_))`: the loop goes on. -/
def lag (x : Subscriber A) : Subscriber A := { x with lags := x.lags + 1 }

/-- `Err(Closed)`: the loop ends and the queue is shut down. -/
def finish (x : Subscriber A) : Subscriber A :=
  { x with running := false, queue := x.queue.shutdown }

/-- What is in hand is offered to the queue. -/
def put (x : Subscriber A) (v : A) : Subscriber A :=
  { x with
    inHand := none
    queue := (x.queue.offer v).2
    received := if (x.queue.offer v).1 then x.received ++ [v] else x.received }

/-- The consumer takes something out of the queue. -/
def consume (x : Subscriber A) : Subscriber A := { x with queue := x.queue.tryRecv.2 }

/-- The subscription ends. -/
def close (x : Subscriber A) : Subscriber A :=
  { x with live := false, queue := x.queue.shutdown }

end Subscriber

/-- Subscriber number `r` reads at cursor number `r` of the channel. The books: `log` has every
    successful send with its caller, `inputs` what a call was asked to publish, and `fates` what
    became of it so far. -/
structure Sys (Tid A : Type) where
  hub : PubSubInner A
  lock : Option Tid
  calls : Tid → Call A
  subs : ℕ → Subscriber A
  log : List (Tid × A)
  inputs : Tid → List A
  fates : Tid → List (A × Bool)

inductive Label (Tid A : Type) where
  | publish (t : Tid) (v : A)
  | publishAll (t : Tid) (vs : List A)
  | step (t : Tid)
  | subscribe
  | recv (r : ℕ)
  | offer (r : ℕ)
  | take (r : ℕ)
  | closeScope (r : ℕ)
  | closeQueue (r : ℕ)
  | shutdown
deriving DecidableEq

namespace Sys

def init (p : PubSubInner A) : Sys Tid A :=
  ⟨p, none, fun _ => .idle, fun _ => .new, [], fun _ => [], fun _ => []⟩

def setCall (s : Sys Tid A) (t : Tid) (c : Call A) : Sys Tid A :=
  { s with calls := Function.update s.calls t c }

def setSub (s : Sys Tid A) (r : ℕ) (x : Subscriber A) : Sys Tid A :=
  { s with subs := Function.update s.subs r x }

def setChan (s : Sys Tid A) (ch : Channel A) : Sys Tid A :=
  { s with hub := { s.hub with chan := ch } }

/-- The call `t` starts with the inputs `vs`. -/
def start (s : Sys Tid A) (t : Tid) (vs : List A) (c : Call A) : Option (Sys Tid A) :=
  match s.calls t with
  | .idle => some ({ s with inputs := Function.update s.inputs t vs }.setCall t c)
  | _ => none

/-- Note what became of an input of `t`. -/
def note (s : Sys Tid A) (t : Tid) (v : A) (sent : Bool) : Sys Tid A :=
  { s with fates := Function.update s.fates t (s.fates t ++ [(v, sent)]) }

/-- The lock is taken and the ring looked at: the call goes on in state `room`, holding the lock,
    or, if the hub is shut down or full, in state `refused` without it. -/
def enter (s : Sys Tid A) (t : Tid) (v : A) (room refused : Call A) : Option (Sys Tid A) :=
  match s.lock with
  | some _ => none
  | none =>
      if s.hub.tx && s.hub.canSend then some ({ s with lock := some t }.setCall t room)
      else some ((s.note t v false).setCall t refused)

/-- The value is sent and the lock released. -/
def send (s : Sys Tid A) (t : Tid) (v : A) (ok err : Call A) : Sys Tid A :=
  match s.hub.chan.send v with
  | some ch =>
      ({ s.setChan ch with lock := none, log := s.log ++ [(t, v)] }.note t v true).setCall t ok
  | none => ({ s with lock := none }.note t v false).setCall t err

def stepCall (s : Sys Tid A) (t : Tid) : Option (Sys Tid A) :=
  match s.calls t with
  | .publish v => s.enter t v (.publishRoom v) (.publishDone false)
  | .publishRoom v => some (s.send t v (.publishDone true) (.publishDone false))
  | .publishAll [] left => some (s.setCall t (.publishAllDone left))
  | .publishAll (v :: rest) left =>
      s.enter t v (.publishAllRoom v rest left) (.publishAll rest (left ++ [v]))
  | .publishAllRoom v rest left =>
      some (s.send t v (.publishAll rest left) (.publishAll rest (left ++ [v])))
  | _ => none

/-- The forwarder of subscriber `r` receives; so does a receiver that is being dropped. -/
def stepRecv (s : Sys Tid A) (r : ℕ) (c : Cursor) : Option (Sys Tid A) :=
  match (s.subs r).inHand, (s.subs r).running with
  | none, true =>
      match s.hub.chan.recv r c with
      | (.value v, ch) => some ((s.setChan ch).setSub r ((s.subs r).receive v c.stop.isSome))
      | (.lagged _, ch) => some ((s.setChan ch).setSub r (s.subs r).lag)
      | (.empty, _) => if s.hub.tx then none else some (s.setSub r (s.subs r).finish)
  | _, _ => none

/-- The forwarder of subscriber `r` puts what it has in hand into the queue. -/
def stepOffer (s : Sys Tid A) (r : ℕ) : Option (Sys Tid A) :=
  match (s.subs r).inHand with
  | none => none
  | some v => some (s.setSub r ((s.subs r).put v))

/-- The finalizer of a subscription: the forwarder is aborted where it waits for the channel, and
    the queue is shut down. -/
def stepCloseScope (s : Sys Tid A) (r : ℕ) (c : Cursor) : Option (Sys Tid A) :=
  match (s.subs r).inHand, (s.subs r).running, c.stop with
  | none, true, none => some ((s.setChan (s.hub.chan.drop r c)).setSub r (s.subs r).close)
  | _, _, _ => none

def step (s : Sys Tid A) : Label Tid A → Option (Sys Tid A)
  | .publish t v => s.start t [v] (.publish v)
  | .publishAll t vs => s.start t vs (.publishAll vs [])
  | .step t => s.stepCall t
  | .subscribe =>
      match s.lock with
      | some _ => none
      | none =>
          if s.hub.tx then
            some ((s.setChan s.hub.chan.subscribe).setSub s.hub.chan.cursors.length .new)
          else some s
  | .recv r =>
      match s.hub.chan.cursors[r]? with
      | some c => s.stepRecv r c
      | none => none
  | .offer r => s.stepOffer r
  | .take r => some (s.setSub r (s.subs r).consume)
  | .closeScope r =>
      match s.hub.chan.cursors[r]? with
      | some c => s.stepCloseScope r c
      | none => none
  | .closeQueue r => some (s.setSub r (s.subs r).close)
  | .shutdown =>
      match s.lock with
      | some _ => none
      | none => some { s with hub := s.hub.takeSender.announce }

/-! ## The promise -/

/-- The values sent by the call `t`. -/
def sentBy (s : Sys Tid A) (t : Tid) : List A :=
  (s.log.filter (fun x => x.1 = t)).map Prod.snd

/-- A live subscriber's queue has received exactly the values published since it came, up to those
    still on their way to it, and its receiver has never lagged. -/
structure Delivered (s : Sys Tid A) : Prop where
  order : ∀ r c, s.hub.chan.cursors[r]? = some c → (s.subs r).live = true →
    (s.subs r).received ++ (s.subs r).inHand.toList ++ s.hub.chan.sent.drop c.pos
      = s.hub.chan.sent.drop c.start
  noLag : ∀ r c, s.hub.chan.cursors[r]? = some c → (s.subs r).live = true → (s.subs r).lags = 0
  published : s.hub.chan.sent = s.log.map Prod.snd

/-- The results tell what was sent: `fates t` goes through the inputs of the call in order, the ones
    marked are those it sent, and the others are what `publish_all` returns. -/
structure Accounted (s : Sys Tid A) : Prop where
  sends : ∀ t, s.sentBy t = ((s.fates t).filter (fun x => x.2)).map Prod.fst
  publish : ∀ t ok, s.calls t = .publishDone ok → ∃ v, s.inputs t = [v] ∧ s.fates t = [(v, ok)]
  publishAll : ∀ t left, s.calls t = .publishAllDone left →
    s.inputs t = (s.fates t).map Prod.fst ∧
      left = ((s.fates t).filter (fun x => !x.2)).map Prod.fst

end Sys

/-! ## One step -/

variable {s s' : Sys Tid A} {l : Label Tid A}

/-- The states of a call on its way through one value: waiting for the lock, holding it, and after
    the value was sent or not. -/
inductive Publishing : Call A → A → Call A → Call A → Call A → Prop
  | publish (v : A) :
      Publishing (.publish v) v (.publishRoom v) (.publishDone true) (.publishDone false)
  | publishAll (v : A) (rest left : List A) :
      Publishing (.publishAll (v :: rest) left) v (.publishAllRoom v rest left)
        (.publishAll rest left) (.publishAll rest (left ++ [v]))

/-- What a step of the system can do. -/
inductive Step (s : Sys Tid A) : Sys Tid A → Prop
  | start {t : Tid} {vs : List A} {c : Call A} (h : s.calls t = .idle)
      (hc : c = .publishAll vs [] ∨ ∃ v, vs = [v] ∧ c = .publish v) :
      Step s ({ s with inputs := Function.update s.inputs t vs }.setCall t c)
  | enter {t : Tid} {v : A} {waiting room ok refused : Call A} (hc : s.calls t = waiting)
      (hp : Publishing waiting v room ok refused) (hl : s.lock = none)
      (hcan : s.hub.canSend = true) : Step s ({ s with lock := some t }.setCall t room)
  | refuse {t : Tid} {v : A} {waiting room ok refused : Call A} (hc : s.calls t = waiting)
      (hp : Publishing waiting v room ok refused) :
      Step s ((s.note t v false).setCall t refused)
  | send {t : Tid} {v : A} {waiting room ok refused : Call A} (hc : s.calls t = room)
      (hp : Publishing waiting v room ok refused) :
      Step s (({ s.setChan { s.hub.chan with sent := s.hub.chan.sent ++ [v] } with
        lock := none, log := s.log ++ [(t, v)] }.note t v true).setCall t ok)
  | noReceiver {t : Tid} {v : A} {waiting room ok refused : Call A} (hc : s.calls t = room)
      (hp : Publishing waiting v room ok refused) :
      Step s (({ s with lock := none }.note t v false).setCall t refused)
  | finish {t : Tid} {left : List A} (h : s.calls t = .publishAll [] left) :
      Step s (s.setCall t (.publishAllDone left))
  | subscribe (hl : s.lock = none) :
      Step s ((s.setChan s.hub.chan.subscribe).setSub s.hub.chan.cursors.length .new)
  | subscribeClosed : Step s s
  | recv {r : ℕ} {c : Cursor} {v : A} (hc : s.hub.chan.cursors[r]? = some c)
      (hv : s.hub.chan.sent[c.pos]? = some v) (hhand : (s.subs r).inHand = none)
      (hrun : (s.subs r).running = true) :
      Step s ((s.setChan (s.hub.chan.setCursor r { c with pos := c.pos + 1 })).setSub r
        ((s.subs r).receive v c.stop.isSome))
  | lag {r : ℕ} {c : Cursor} (hc : s.hub.chan.cursors[r]? = some c)
      (hlag : c.pos + s.hub.chan.ring < s.hub.chan.sent.length) :
      Step s ((s.setChan (s.hub.chan.setCursor r
        { c with pos := s.hub.chan.sent.length - s.hub.chan.ring })).setSub r (s.subs r).lag)
  | closed {r : ℕ} (hhand : (s.subs r).inHand = none) :
      Step s (s.setSub r (s.subs r).finish)
  | offer {r : ℕ} {v : A} (hv : (s.subs r).inHand = some v) :
      Step s (s.setSub r ((s.subs r).put v))
  | take {r : ℕ} : Step s (s.setSub r (s.subs r).consume)
  | closeScope {r : ℕ} {c : Cursor} (hc : s.hub.chan.cursors[r]? = some c) :
      Step s ((s.setChan (s.hub.chan.drop r c)).setSub r (s.subs r).close)
  | closeQueue {r : ℕ} : Step s (s.setSub r (s.subs r).close)
  | shutdown (hl : s.lock = none) : Step s { s with hub := s.hub.takeSender.announce }

theorem Step.of_start {t : Tid} {vs : List A} {c : Call A}
    (hc : c = .publishAll vs [] ∨ ∃ v, vs = [v] ∧ c = .publish v)
    (h : s.start t vs c = some s') : Step s s' := by
  unfold Sys.start at h
  split at h
  · next hidle => exact Option.some.inj h ▸ .start hidle hc
  · cases h

theorem Step.of_enter {t : Tid} {v : A} {waiting room ok refused : Call A}
    (hc : s.calls t = waiting) (hp : Publishing waiting v room ok refused)
    (h : s.enter t v room refused = some s') : Step s s' := by
  unfold Sys.enter at h
  split at h
  · cases h
  · next hl =>
      split at h
      · next hcan =>
          rw [Bool.and_eq_true] at hcan
          exact Option.some.inj h ▸ .enter hc hp hl hcan.2
      · exact Option.some.inj h ▸ .refuse hc hp

theorem Step.of_send {t : Tid} {v : A} {waiting room ok refused : Call A}
    (hc : s.calls t = room) (hp : Publishing waiting v room ok refused) :
    Step s (s.send t v ok refused) := by
  unfold Sys.send
  split
  · next ch hch =>
      rw [Channel.send_eq_some hch]
      exact .send hc hp
  · exact .noReceiver hc hp

theorem Step.of_stepCall {t : Tid} (h : s.stepCall t = some s') : Step s s' := by
  unfold Sys.stepCall at h
  split at h
  · next v hc => exact .of_enter hc (.publish v) h
  · next v hc => exact Option.some.inj h ▸ .of_send hc (.publish v)
  · next left hc => exact Option.some.inj h ▸ .finish hc
  · next v rest left hc => exact .of_enter hc (.publishAll v rest left) h
  · next v rest left hc => exact Option.some.inj h ▸ .of_send hc (.publishAll v rest left)
  · cases h

theorem Step.of_stepRecv {r : ℕ} {c : Cursor} (hc : s.hub.chan.cursors[r]? = some c)
    (h : s.stepRecv r c = some s') : Step s s' := by
  simp only [Sys.stepRecv] at h
  cases hhand : (s.subs r).inHand with
  | some v => simp [hhand] at h
  | none =>
      cases hrun : (s.subs r).running with
      | false => simp [hhand, hrun] at h
      | true =>
          simp only [hhand, hrun] at h
          rcases s.hub.chan.recv_cases r c with ⟨hlag, he⟩ | ⟨v, hv, he⟩ | ⟨-, he⟩
          · simp only [he, Option.some.injEq] at h
            exact h ▸ .lag hc hlag
          · simp only [he, Option.some.injEq] at h
            exact h ▸ .recv hc hv hhand hrun
          · simp only [he] at h
            split at h
            · cases h
            · exact Option.some.inj h ▸ .closed hhand

theorem Step.of_step (h : s.step l = some s') : Step s s' := by
  cases l with
  | publish t v => exact .of_start (Or.inr ⟨v, rfl, rfl⟩) h
  | publishAll t vs => exact .of_start (Or.inl rfl) h
  | step t => exact .of_stepCall h
  | subscribe =>
      simp only [Sys.step] at h
      split at h
      · cases h
      · next hl =>
          split at h
          · exact Option.some.inj h ▸ .subscribe hl
          · exact Option.some.inj h ▸ .subscribeClosed
  | recv r =>
      simp only [Sys.step] at h
      split at h
      · next c hc => exact .of_stepRecv hc h
      · cases h
  | offer r =>
      simp only [Sys.step, Sys.stepOffer] at h
      split at h
      · cases h
      · next v hv => exact Option.some.inj h ▸ .offer hv
  | take r => exact Option.some.inj h ▸ .take
  | closeScope r =>
      simp only [Sys.step, Sys.stepCloseScope] at h
      split at h
      · next c hc =>
          split at h
          · exact Option.some.inj h ▸ .closeScope hc
          · cases h
      · cases h
  | closeQueue r => exact Option.some.inj h ▸ .closeQueue
  | shutdown =>
      simp only [Sys.step] at h
      split at h
      · cases h
      · next hl => exact Option.some.inj h ▸ .shutdown hl

theorem setCall_calls (t u : Tid) (c : Call A) :
    (s.setCall t c).calls u = if u = t then c else s.calls u := by
  simp only [Sys.setCall, Function.update_apply]

omit [DecidableEq Tid] in
theorem setSub_subs (r q : ℕ) (x : Subscriber A) :
    (s.setSub r x).subs q = if q = r then x else s.subs q := by
  simp only [Sys.setSub, Function.update_apply]

/-! ## There is room for every value sent -/

/-- No live receiver is further behind than the capacity, and while somebody holds the lock with
    room found, every one of them is behind by less. -/
structure Room (s : Sys Tid A) : Prop where
  cap_le : s.hub.capacity ≤ s.hub.chan.ring
  mode : s.hub.mode = .bounded ∨ s.hub.mode = .dropping
  cursors : ∀ (r : ℕ) (c : Cursor), s.hub.chan.cursors[r]? = some c →
    c.start ≤ c.pos ∧ c.pos ≤ s.hub.chan.sent.length
  behind : ∀ (r : ℕ) (c : Cursor), s.hub.chan.cursors[r]? = some c → c.stop = none →
    s.hub.chan.sent.length ≤ c.pos + s.hub.capacity
  holder : ∀ t, (s.calls t).holds = true → s.lock = some t ∧
    ∀ (r : ℕ) (c : Cursor), s.hub.chan.cursors[r]? = some c → c.stop = none →
      s.hub.chan.sent.length < c.pos + s.hub.capacity

omit [DecidableEq Tid] in
/-- The subscribers' side and the books do not matter. -/
theorem Room.congr (h : Room s) (hhub : s'.hub = s.hub) (hlock : s'.lock = s.lock)
    (hcalls : s'.calls = s.calls) : Room s' := by
  constructor
  · rw [hhub]
    exact h.cap_le
  · rw [hhub]
    exact h.mode
  · rw [hhub]
    exact h.cursors
  · rw [hhub]
    exact h.behind
  · rw [hhub, hlock, hcalls]
    exact h.holder

theorem Room.setCall (h : Room s) {t : Tid} {c : Call A} (hc : c.holds = false) :
    Room (s.setCall t c) where
  cap_le := h.cap_le
  mode := h.mode
  cursors := h.cursors
  behind := h.behind
  holder := by
    intro u hu
    rw [setCall_calls] at hu
    split at hu
    · rw [hc] at hu
      cases hu
    · exact h.holder u hu

/-- The lock is released by the call that held it, which no longer does. -/
theorem Room.release (h : Room s) {t : Tid} {c : Call A} (ht : (s.calls t).holds = true)
    (hc : c.holds = false) : Room ({ s with lock := none }.setCall t c) where
  cap_le := h.cap_le
  mode := h.mode
  cursors := h.cursors
  behind := h.behind
  holder := by
    intro u hu
    rw [setCall_calls] at hu
    split at hu
    · rw [hc] at hu
      cases hu
    · next hne =>
        have hlock := (h.holder t ht).1.symm.trans (h.holder u hu).1
        exact absurd (Option.some.inj hlock).symm hne

omit [DecidableEq Tid] in
/-- A receiver moves forward or goes away. -/
theorem Room.setCursor (h : Room s) {r : ℕ} {c d : Cursor} (hc : s.hub.chan.cursors[r]? = some c)
    (hstart : d.start = c.start) (hle : c.pos ≤ d.pos) (hd : d.pos ≤ s.hub.chan.sent.length)
    (hstop : d.stop = none → c.stop = none) : Room (s.setChan (s.hub.chan.setCursor r d)) where
  cap_le := h.cap_le
  mode := h.mode
  cursors := by
    intro q e he
    rcases Channel.mem_setCursor he with ⟨-, rfl⟩ | ⟨-, he⟩
    · have := h.cursors r c hc
      exact ⟨by omega, hd⟩
    · exact h.cursors q e he
  behind := by
    intro q e he hlive
    show s.hub.chan.sent.length ≤ e.pos + s.hub.capacity
    rcases Channel.mem_setCursor he with ⟨-, rfl⟩ | ⟨-, he⟩
    · have := h.behind r c hc (hstop hlive)
      omega
    · exact h.behind q e he hlive
  holder := by
    intro t ht
    refine ⟨(h.holder t ht).1, fun q e he hlive => ?_⟩
    show s.hub.chan.sent.length < e.pos + s.hub.capacity
    rcases Channel.mem_setCursor he with ⟨-, rfl⟩ | ⟨-, he⟩
    · have := (h.holder t ht).2 r c hc (hstop hlive)
      omega
    · exact (h.holder t ht).2 q e he hlive

omit [DecidableEq Tid] in
/-- **The look at the ring is enough.** If `len` is below the capacity, every live receiver has room
    for one more value. -/
theorem Room.of_canSend (h : Room s) (hcan : s.hub.canSend = true) :
    ∀ (r : ℕ) (c : Cursor), s.hub.chan.cursors[r]? = some c → c.stop = none →
      s.hub.chan.sent.length < c.pos + s.hub.capacity := by
  intro r c hc hlive
  have hlen : s.hub.chan.len < s.hub.capacity := by
    rcases h.mode with hm | hm <;> simpa [PubSubInner.canSend, hm] using hcan
  have hbehind := h.behind r c hc hlive
  have hcap := h.cap_le
  have := Channel.le_len hc hlive (h.cursors r c hc).1 (by omega)
  omega

theorem Publishing.holds {w room ok refused : Call A} {v : A} (h : Publishing w v room ok refused) :
    room.holds = true ∧ ok.holds = false ∧ refused.holds = false := by
  cases h <;> exact ⟨rfl, rfl, rfl⟩

theorem Room.step (hs : Room s) (h : Step s s') : Room s' := by
  cases h with
  | @start t vs c h hc =>
      have hfree : Call.holds c = false := by rcases hc with rfl | ⟨v, -, rfl⟩ <;> rfl
      exact (hs.setCall hfree).congr rfl rfl rfl
  | @enter t v waiting room ok refused hc hp hl hcan =>
      refine ⟨hs.cap_le, hs.mode, hs.cursors, hs.behind, fun u hu => ?_⟩
      rw [setCall_calls] at hu
      split at hu
      · next hut => exact ⟨by rw [hut]; rfl, hs.of_canSend hcan⟩
      · have hlock := (hs.holder u hu).1
        rw [hl] at hlock
        cases hlock
  | refuse hc hp =>
      exact (hs.setCall hp.holds.2.2).congr rfl rfl rfl
  | @send t v waiting room ok refused hc hp =>
      have ht : (s.calls t).holds = true := hc ▸ hp.holds.1
      have hroom := (hs.holder t ht).2
      have hrel := hs.release ht hp.holds.2.1
      refine ⟨hs.cap_le, hs.mode, fun r c hc => ?_, fun r c hc hlive => ?_, fun u hu => ?_⟩
      · have := hs.cursors r c hc
        show c.start ≤ c.pos ∧ c.pos ≤ (s.hub.chan.sent ++ [v]).length
        rw [List.length_append, List.length_singleton]
        omega
      · have := hroom r c hc hlive
        show (s.hub.chan.sent ++ [v]).length ≤ c.pos + s.hub.capacity
        rw [List.length_append, List.length_singleton]
        omega
      · -- nobody holds the lock any more
        have hlock := (hrel.holder u hu).1
        cases hlock
  | @noReceiver t v waiting room ok refused hc hp =>
      have hrel := hs.release (hc ▸ hp.holds.1) hp.holds.2.2
      exact hrel.congr rfl rfl rfl
  | finish h => exact hs.setCall rfl
  | subscribe hl =>
      refine ⟨hs.cap_le, hs.mode, fun r c hc => ?_, fun r c hc hlive => ?_, fun t ht => ?_⟩
      · rcases Channel.mem_subscribe hc with hc | ⟨-, rfl⟩
        · exact hs.cursors r c hc
        · exact ⟨Nat.le_refl _, Nat.le_refl _⟩
      · rcases Channel.mem_subscribe hc with hc | ⟨-, rfl⟩
        · exact hs.behind r c hc hlive
        · exact Nat.le_add_right _ _
      · have hlock := (hs.holder t ht).1
        rw [hl] at hlock
        cases hlock
  | subscribeClosed => exact hs
  | @recv r c v hc hv hhand hrun =>
      have hlt : c.pos < s.hub.chan.sent.length := (List.getElem?_eq_some_iff.1 hv).1
      have h := hs.setCursor hc (d := { c with pos := c.pos + 1 }) rfl (Nat.le_succ _) hlt id
      exact h.congr rfl rfl rfl
  | @lag r c hc hlag =>
      have h := hs.setCursor hc
        (d := { c with pos := s.hub.chan.sent.length - s.hub.chan.ring }) rfl
        (by show c.pos ≤ s.hub.chan.sent.length - s.hub.chan.ring; omega) (Nat.sub_le _ _) id
      exact h.congr rfl rfl rfl
  | closed hhand => exact hs.congr rfl rfl rfl
  | offer hv => exact hs.congr rfl rfl rfl
  | take => exact hs.congr rfl rfl rfl
  | @closeScope r c hc =>
      have h := hs.setCursor hc (d := { c with stop := some s.hub.chan.sent.length }) rfl
        (Nat.le_refl _) (hs.cursors r c hc).2 (by simp)
      exact h.congr rfl rfl rfl
  | closeQueue => exact hs.congr rfl rfl rfl
  | shutdown hl => exact ⟨hs.cap_le, hs.mode, hs.cursors, hs.behind, hs.holder⟩

/-! ## Every live subscriber gets everything -/

/-- The queue takes whatever it is offered. -/
def Accepts (q : Queue A) : Prop := ∃ f, q = .fromFlume f ∧ f.cap = none ∧ f.tx = true

theorem Accepts.offer {q : Queue A} (h : Accepts q) (v : A) :
    (q.offer v).1 = true ∧ Accepts (q.offer v).2 := by
  obtain ⟨f, rfl, hcap, htx⟩ := h
  have hoffer : f.offer v = (true, { f with buf := f.buf ++ [v] }) := by
    simp only [FlumeShared.offer, FlumeShared.trySend, hcap, htx, if_true]
  exact ⟨by simp only [Queue.offer, hoffer], ⟨_, rfl, by rw [hoffer]; exact hcap, by
    rw [hoffer]; exact htx⟩⟩

theorem Accepts.tryRecv {q : Queue A} (h : Accepts q) : Accepts q.tryRecv.2 := by
  obtain ⟨f, rfl, hcap, htx⟩ := h
  refine ⟨f.tryRecv.2, rfl, ?_, ?_⟩
  · unfold FlumeShared.tryRecv
    split
    · exact hcap
    · split <;> exact hcap
  · unfold FlumeShared.tryRecv
    split
    · exact htx
    · split <;> exact htx

theorem Accepts.recv {q q' : Queue A} {v : A} (h : Accepts q) (hq : q.recv = some (.ok v, q')) :
    Accepts q' := by
  have htry := h.tryRecv
  rw [Queue.tryRecv_eq, hq] at htry
  exact htry

/-- The books of one subscriber. -/
structure SubOk (sent : List A) (c : Cursor) (x : Subscriber A) : Prop where
  attached : c.stop = none
  noLag : x.lags = 0
  order : x.received ++ x.inHand.toList ++ sent.drop c.pos = sent.drop c.start
  queue : x.running = true → Accepts x.queue
  hand : x.running = false → x.inHand = none

theorem subOk_new (sent : List A) :
    SubOk sent ⟨sent.length, sent.length, none⟩ (Subscriber.new : Subscriber A) :=
  ⟨rfl, rfl, rfl, fun _ => ⟨_, rfl, rfl, rfl⟩, fun _ => rfl⟩

theorem SubOk.send {sent : List A} {c : Cursor} {x : Subscriber A} (h : SubOk sent c x) (v : A)
    (hstart : c.start ≤ c.pos) (hpos : c.pos ≤ sent.length) : SubOk (sent ++ [v]) c x where
  attached := h.attached
  noLag := h.noLag
  order := by
    rw [List.drop_append_of_le_length hpos, List.drop_append_of_le_length (hstart.trans hpos),
      ← List.append_assoc, h.order]
  queue := h.queue
  hand := h.hand

theorem SubOk.receive {sent : List A} {c : Cursor} {x : Subscriber A} {v : A} (h : SubOk sent c x)
    (hv : sent[c.pos]? = some v) (hhand : x.inHand = none) (hrun : x.running = true) :
    SubOk sent { c with pos := c.pos + 1 } (x.receive v c.stop.isSome) where
  attached := h.attached
  noLag := h.noLag
  order := by
    obtain ⟨hlt, hget⟩ := List.getElem?_eq_some_iff.1 hv
    have hdrop : sent.drop c.pos = v :: sent.drop (c.pos + 1) := by
      rw [List.drop_eq_getElem_cons hlt, hget]
    have horder := h.order
    rw [hhand, hdrop] at horder
    simpa [Subscriber.receive, h.attached] using horder
  queue := h.queue
  hand := fun hstop => by
    have : x.running = false := hstop
    simp [hrun] at this

theorem SubOk.put {sent : List A} {c : Cursor} {x : Subscriber A} {v : A} (h : SubOk sent c x)
    (hv : x.inHand = some v) : SubOk sent c (x.put v) := by
  have hrun : x.running = true := by
    by_contra hne
    have := h.hand (eq_false_of_ne_true hne)
    simp [hv] at this
  obtain ⟨hstored, hacc⟩ := (h.queue hrun).offer v
  refine ⟨h.attached, h.noLag, ?_, fun _ => hacc, fun _ => rfl⟩
  have horder := h.order
  rw [hv] at horder
  simpa [Subscriber.put, hstored] using horder

/-- Every live subscriber's books are right. -/
def Subs (s : Sys Tid A) : Prop :=
  ∀ (r : ℕ) (c : Cursor), s.hub.chan.cursors[r]? = some c → (s.subs r).live = true →
    SubOk s.hub.chan.sent c (s.subs r)

omit [DecidableEq Tid] in
/-- One subscriber and its cursor change, and both stay right if the subscription stays live. -/
theorem Subs.update (h : Subs s) {r : ℕ} {d : Cursor} {x : Subscriber A}
    (hx : x.live = true → SubOk s.hub.chan.sent d x) :
    Subs ((s.setChan (s.hub.chan.setCursor r d)).setSub r x) := by
  intro q e he hlive
  rw [setSub_subs] at hlive ⊢
  rcases Channel.mem_setCursor he with ⟨rfl, rfl⟩ | ⟨hq, he⟩
  · rw [if_pos rfl] at hlive ⊢
    exact hx hlive
  · rw [if_neg hq] at hlive ⊢
    exact h q e he hlive

omit [DecidableEq Tid] in
/-- One subscriber changes, but not its cursor. -/
theorem Subs.setSub (h : Subs s) {r : ℕ} {x : Subscriber A}
    (hx : ∀ c, s.hub.chan.cursors[r]? = some c → x.live = true → SubOk s.hub.chan.sent c x) :
    Subs (s.setSub r x) := by
  intro q e he hlive
  rw [setSub_subs] at hlive ⊢
  by_cases hq : q = r
  · subst hq
    rw [if_pos rfl] at hlive ⊢
    exact hx e he hlive
  · rw [if_neg hq] at hlive ⊢
    exact h q e he hlive

theorem Subs.step (hs : Subs s) (hroom : Room s) (h : Step s s') : Subs s' := by
  cases h with
  | start h hc => exact hs
  | enter hc hp hl hcan => exact hs
  | refuse hc hp => exact hs
  | @send t v waiting room ok refused hc hp =>
      intro r c hc hlive
      exact (hs r c hc hlive).send v (hroom.cursors r c hc).1 (hroom.cursors r c hc).2
  | noReceiver hc hp => exact hs
  | finish h => exact hs
  | subscribe hl =>
      intro r c hc hlive
      rw [setSub_subs] at hlive ⊢
      rcases Channel.mem_subscribe hc with hc | ⟨rfl, rfl⟩
      · have hlt : r < s.hub.chan.cursors.length := (List.getElem?_eq_some_iff.1 hc).1
        rw [if_neg (by omega)] at hlive ⊢
        exact hs r c hc hlive
      · rw [if_pos rfl]
        exact subOk_new _
  | subscribeClosed => exact hs
  | @recv r c v hc hv hhand hrun =>
      exact hs.update fun hlive => (hs r c hc hlive).receive hv hhand hrun
  | @lag r c hc hlag =>
      refine hs.update fun hlive => ?_
      -- a live receiver is never behind by more than the ring
      have hbehind := hroom.behind r c hc (hs r c hc hlive).attached
      have hcap := hroom.cap_le
      omega
  | @closed r hhand =>
      refine hs.setSub fun c hc hlive => ?_
      have h := hs r c hc hlive
      exact ⟨h.attached, h.noLag, h.order, (fun hrun => by cases hrun), fun _ => hhand⟩
  | @offer r v hv => exact hs.setSub fun c hc hlive => (hs r c hc hlive).put hv
  | @take r =>
      refine hs.setSub fun c hc hlive => ?_
      have h := hs r c hc hlive
      exact ⟨h.attached, h.noLag, h.order, fun hrun => (h.queue hrun).tryRecv, h.hand⟩
  | closeScope hc => exact hs.update fun hlive => by cases hlive
  | closeQueue => exact hs.setSub fun c hc hlive => by cases hlive
  | shutdown hl => exact hs

/-! ## The results tell what was sent -/

/-- Those of the inputs treated so far that were sent, and those that were not. -/
def sentOf (fates : List (A × Bool)) : List A := (fates.filter (fun x => x.2)).map Prod.fst

def unsentOf (fates : List (A × Bool)) : List A := (fates.filter (fun x => !x.2)).map Prod.fst

/-- How the state of a call fits what became of its inputs. -/
def CallOk (input : List A) (fates : List (A × Bool)) : Call A → Prop
  | .idle => fates = []
  | .publish v | .publishRoom v => input = [v] ∧ fates = []
  | .publishDone ok => ∃ v, input = [v] ∧ fates = [(v, ok)]
  | .publishAll rest left => input = fates.map Prod.fst ++ rest ∧ left = unsentOf fates
  | .publishAllRoom v rest left => input = fates.map Prod.fst ++ v :: rest ∧ left = unsentOf fates
  | .publishAllDone left => input = fates.map Prod.fst ∧ left = unsentOf fates

theorem CallOk.enter {input : List A} {fates : List (A × Bool)} {w room ok refused : Call A} {v : A}
    (hp : Publishing w v room ok refused) (h : CallOk input fates w) : CallOk input fates room := by
  cases hp <;> exact h

theorem CallOk.note {input : List A} {fates : List (A × Bool)} {w room ok refused : Call A} {v : A}
    (hp : Publishing w v room ok refused) (h : CallOk input fates room) :
    CallOk input (fates ++ [(v, true)]) ok ∧ CallOk input (fates ++ [(v, false)]) refused := by
  cases hp with
  | publish v =>
      obtain ⟨rfl, rfl⟩ := h
      exact ⟨⟨v, rfl, rfl⟩, ⟨v, rfl, rfl⟩⟩
  | publishAll v rest left =>
      obtain ⟨rfl, rfl⟩ := h
      simp [CallOk, unsentOf]

/-- The log is the channel's, and each call's part of it, like its state, fits what became of its
    inputs. -/
structure Books (s : Sys Tid A) : Prop where
  published : s.hub.chan.sent = s.log.map Prod.snd
  sends : ∀ t, s.sentBy t = sentOf (s.fates t)
  calls : ∀ t, CallOk (s.inputs t) (s.fates t) (s.calls t)

/-- A call moves on without an input being treated. -/
theorem Books.setCall (h : Books s) {t : Tid} {c : Call A}
    (hc : CallOk (s.inputs t) (s.fates t) c) : Books (s.setCall t c) where
  published := h.published
  sends := h.sends
  calls := by
    intro u
    rw [setCall_calls]
    split
    · next hu => exact hu ▸ hc
    · exact h.calls u

/-- An input is treated without being sent. -/
theorem Books.refuse (h : Books s) {t : Tid} {v : A} {c : Call A}
    (hc : CallOk (s.inputs t) (s.fates t ++ [(v, false)]) c) :
    Books ((s.note t v false).setCall t c) where
  published := h.published
  sends := by
    intro u
    show s.sentBy u = sentOf (Function.update s.fates t (s.fates t ++ [(v, false)]) u)
    rw [Function.update_apply]
    split
    · next hu =>
        subst hu
        simpa [sentOf] using h.sends u
    · exact h.sends u
  calls := by
    intro u
    rw [setCall_calls]
    show CallOk (s.inputs u) (Function.update s.fates t (s.fates t ++ [(v, false)]) u) _
    rw [Function.update_apply]
    split
    · next hu => exact hu ▸ hc
    · exact h.calls u

/-- An input is sent. -/
theorem Books.send (h : Books s) {t : Tid} {v : A} {c : Call A}
    (hc : CallOk (s.inputs t) (s.fates t ++ [(v, true)]) c) :
    Books (({ s.setChan { s.hub.chan with sent := s.hub.chan.sent ++ [v] } with
      lock := none, log := s.log ++ [(t, v)] }.note t v true).setCall t c) where
  published := by
    show s.hub.chan.sent ++ [v] = (s.log ++ [(t, v)]).map Prod.snd
    rw [List.map_append, h.published]
    rfl
  sends := by
    intro u
    show ((s.log ++ [(t, v)]).filter fun x => x.1 = u).map Prod.snd
      = sentOf (Function.update s.fates t (s.fates t ++ [(v, true)]) u)
    have hu := h.sends u
    rw [Sys.sentBy] at hu
    rw [Function.update_apply, List.filter_append, List.map_append, hu]
    split
    · next hut =>
        subst hut
        simp [sentOf]
    · next hut => simp [Ne.symm hut]
  calls := by
    intro u
    rw [setCall_calls]
    show CallOk (s.inputs u) (Function.update s.fates t (s.fates t ++ [(v, true)]) u) _
    rw [Function.update_apply]
    split
    · next hu => exact hu ▸ hc
    · exact h.calls u

theorem Books.step (hs : Books s) (h : Step s s') : Books s' := by
  cases h with
  | @start t vs c h hc =>
      refine ⟨hs.published, hs.sends, fun u => ?_⟩
      rw [setCall_calls]
      show CallOk (Function.update s.inputs t vs u) (s.fates u) _
      rw [Function.update_apply]
      split
      · next hu =>
          have hnone : s.fates u = [] := by simpa [hu, h, CallOk] using hs.calls u
          rcases hc with rfl | ⟨v, rfl, rfl⟩
          · simp [CallOk, hnone, unsentOf]
          · exact ⟨rfl, hnone⟩
      · exact hs.calls u
  | @enter t v waiting room ok refused hc hp hl hcan =>
      have h := hs.setCall (CallOk.enter hp (hc ▸ hs.calls t))
      exact ⟨h.published, h.sends, h.calls⟩
  | @refuse t v waiting room ok refused hc hp =>
      exact hs.refuse (CallOk.note hp (CallOk.enter hp (hc ▸ hs.calls t))).2
  | @send t v waiting room ok refused hc hp =>
      exact hs.send (CallOk.note hp (hc ▸ hs.calls t)).1
  | @noReceiver t v waiting room ok refused hc hp =>
      have h := hs.refuse (CallOk.note hp (hc ▸ hs.calls t)).2
      exact ⟨h.published, h.sends, h.calls⟩
  | @finish t left h =>
      refine hs.setCall ?_
      have hok := hs.calls t
      rw [h] at hok
      exact ⟨by simpa using hok.1, hok.2⟩
  | _ => exact ⟨hs.published, hs.sends, hs.calls⟩

/-! ## Whole runs -/

/-- The hubs of the two modes that refuse a value when they are full. -/
inductive Backpressured (ring capacity : ℕ) : PubSubInner A → Prop
  | bounded : Backpressured ring capacity (.bounded ring capacity)
  | dropping : Backpressured ring capacity (.dropping ring capacity)

theorem Backpressured.fresh {ring capacity : ℕ} {p : PubSubInner A}
    (hp : Backpressured ring capacity p) :
    p.chan = .new ring ∧ p.capacity = max capacity 1 ∧
      (p.mode = .bounded ∨ p.mode = .dropping) := by
  cases hp with
  | bounded => exact ⟨rfl, rfl, Or.inl rfl⟩
  | dropping => exact ⟨rfl, rfl, Or.inr rfl⟩

omit [DecidableEq Tid] in
theorem room_init {ring capacity : ℕ} {p : PubSubInner A} (hp : Backpressured ring capacity p)
    (hring : max capacity 1 ≤ ring) : Room (Sys.init p : Sys Tid A) := by
  obtain ⟨hchan, hcap, hmode⟩ := hp.fresh
  have hnone : ∀ (r : ℕ) (c : Cursor), ¬ p.chan.cursors[r]? = some c := by
    intro r c
    rw [hchan, Channel.new]
    simp
  refine ⟨?_, hmode, fun r c hc => absurd hc (hnone r c), fun r c hc => absurd hc (hnone r c),
    fun _ h => by cases h⟩
  show p.capacity ≤ p.chan.ring
  rw [hchan, hcap]
  exact hring

omit [DecidableEq Tid] in
theorem subs_init {ring capacity : ℕ} {p : PubSubInner A} (hp : Backpressured ring capacity p) :
    Subs (Sys.init p : Sys Tid A) := by
  intro r c hc
  have hnone : p.chan.cursors[r]? = none := by simp [hp.fresh.1, Channel.new]
  rw [show (Sys.init p : Sys Tid A).hub.chan = p.chan from rfl, hnone] at hc
  cases hc

theorem books_init {ring capacity : ℕ} {p : PubSubInner A} (hp : Backpressured ring capacity p) :
    Books (Sys.init p : Sys Tid A) := by
  refine ⟨?_, fun _ => rfl, fun _ => rfl⟩
  show p.chan.sent = []
  rw [hp.fresh.1]
  rfl

/-- **A bounded or dropping hub makes nobody miss a message.** In every run of such a hub, over a
    channel whose ring is at least as large as the capacity, each live subscriber's queue has
    received, in order and once, the values published since its subscription, but for those still on
    their way; no receiver has lagged; and what `publish` and `publish_all` return is the truth
    about what was sent. -/
theorem subscribers_miss_nothing (ring capacity : ℕ) (hring : max capacity 1 ≤ ring)
    (p : PubSubInner A) (hp : Backpressured ring capacity p) (ls : List (Label Tid A))
    (s : Sys Tid A) (hrun : run Sys.step (Sys.init p) ls = some s) :
    s.Delivered ∧ s.Accounted := by
  have hinv : Room s ∧ Subs s ∧ Books s := by
    refine run_invariant (I := fun s => Room s ∧ Subs s ∧ Books s) ?_
      ⟨room_init hp hring, subs_init hp, books_init hp⟩ hrun
    rintro s l s' ⟨hroom, hsubs, hbooks⟩ h
    have h := Step.of_step h
    exact ⟨hroom.step h, hsubs.step hroom h, hbooks.step h⟩
  obtain ⟨-, hsubs, hbooks⟩ := hinv
  refine ⟨⟨fun r c hc hlive => (hsubs r c hc hlive).order,
    fun r c hc hlive => (hsubs r c hc hlive).noLag, hbooks.published⟩, hbooks.sends, ?_, ?_⟩
  · intro t ok h
    have hok := hbooks.calls t
    rw [h] at hok
    exact hok
  · intro t left h
    have hok := hbooks.calls t
    rw [h] at hok
    exact hok

/-- A hub of capacity 1: the second value finds no room until the first is received. A subscriber
    that comes in between gets only what is published after it. -/
theorem subscribers_miss_nothing_two : ∃ s : Sys ℕ ℕ,
    run Sys.step (Sys.init (.bounded 1 1)) [.subscribe, .publishAll 0 [7, 8], .step 0, .step 0,
      .step 0, .step 0, .recv 0, .subscribe, .publish 1 9, .step 1, .step 1, .offer 0, .recv 0,
      .recv 1] = some s ∧
    s.calls 0 = .publishAllDone [8] ∧ s.calls 1 = .publishDone true ∧
    (s.subs 0).received = [7] ∧ (s.subs 0).inHand = some 9 ∧ (s.subs 1).inHand = some 9 ∧
    s.Delivered ∧ s.Accounted :=
  ⟨_, rfl, rfl, rfl, rfl, rfl, rfl,
    subscribers_miss_nothing 1 1 (by decide) (.bounded 1 1) .bounded
      [.subscribe, .publishAll 0 [7, 8], .step 0, .step 0, .step 0, .step 0, .recv 0, .subscribe,
        .publish 1 9, .step 1, .step 1, .offer 0, .recv 0, .recv 1] _ rfl⟩

end IdEffect.PubSubRuns
