import Mathlib.Logic.Function.Basic
import IdEffect.Lib.Transition
import IdEffect.Lib.Signal
import IdEffect.Coordination.Queue
import IdEffect.Streaming.Stream

set_option autoImplicit false

/-! # Channel-backed streams: `stream_from_channel_with_policy`

Any number of producers (`send_chunk`, `fail` and `end_stream` on clones of one sender) offer
messages to a queue, and the consumer's pulls take them out. Chunks and the messages that end the
stream go through the same queue, whose kind depends on the policy. The steps are the lock-protected
sections of the queue; the `notify_waiters` of a sliding queue and the registration of the consumer
for it are steps of their own, as in `Coordination.Wakeup`.

The queue does what `backpressureDecision` says (`offer_eq_decision`), although the code never calls
it. -/

namespace IdEffect.Channels

open Transition Signal Streaming

variable {Tid A E : Type} [DecidableEq Tid]

/-! ## Policies -/

inductive BackpressurePolicy where
  | boundedBlock
  | dropNewest
  | dropOldest
  | fail
deriving DecidableEq

inductive BackpressureDecision where
  | enqueue
  | block
  | dropNewest
  | dropOldest
  | fail
deriving DecidableEq

def backpressureDecision (policy : BackpressurePolicy) (queueLen capacity : ℕ) :
    BackpressureDecision :=
  if queueLen < max capacity 1 then .enqueue
  else
    match policy with
    | .boundedBlock => .block
    | .dropNewest => .dropNewest
    | .dropOldest => .dropOldest
    | .fail => .fail

theorem decision_room {policy : BackpressurePolicy} {queueLen capacity : ℕ}
    (h : queueLen < max capacity 1) : backpressureDecision policy queueLen capacity = .enqueue :=
  if_pos h

theorem decision_full {policy : BackpressurePolicy} {queueLen capacity : ℕ}
    (h : ¬ queueLen < max capacity 1) : backpressureDecision policy queueLen capacity =
      match policy with
      | .boundedBlock => .block
      | .dropNewest => .dropNewest
      | .dropOldest => .dropOldest
      | .fail => .fail :=
  if_neg h

/-- The queue `stream_from_channel_with_policy` makes. -/
def queueOf {M : Type} (capacity : ℕ) : BackpressurePolicy → Queue M
  | .boundedBlock | .fail => .bounded (max capacity 1)
  | .dropNewest => .dropping (max capacity 1)
  | .dropOldest => .sliding (max capacity 1)

/-! ## Calls, the consumer and steps -/

/-- A message that does not end the stream. -/
def isChunk : ChannelMessage A E → Bool
  | .chunk _ => true
  | .endStream | .fail _ => false

/-- A call of a producer. A call that has `pushed` still has to wake the consumer; `full` is
    `Err(StreamChannelFull)`. -/
inductive Call (A E : Type) where
  | idle
  | sending (chunk : List A)
  | terminating (message : ChannelMessage A E)
  | pushed
  | returned
  | full
deriving DecidableEq

/-- The stream's state, and where its current pull stands: at work (`away`), or waiting for a
    sliding queue. What it has returned so far: elements, errors, and `Ok(None)` once it is
    `exhausted`. -/
structure Consumer (A E : Type) where
  waiting : Waiter
  buffered : List A
  closed : Bool
  exhausted : Bool
  pulled : List A
  errors : List E

namespace Consumer

def new : Consumer A E := ⟨.away, [], false, false, [], []⟩

/-- What the consumer does with a message it has taken. -/
def handle (c : Consumer A E) : ChannelMessage A E → Consumer A E
  | .chunk items => { c with buffered := c.buffered ++ items }
  | .endStream => { c with closed := true }
  | .fail error => { c with errors := c.errors ++ [error] }

/-- The consumer has been told that the stream ended or failed. -/
def seen (c : Consumer A E) : Bool := c.exhausted || !c.errors.isEmpty

end Consumer

/-- The books: every message `accepted` by the queue, and those that have left it again, each with
    whether the consumer took it or it was evicted. -/
structure Sys (Tid A E : Type) where
  policy : BackpressurePolicy
  queue : Queue (ChannelMessage A E)
  notifyCount : ℕ
  calls : Tid → Call A E
  consumer : Consumer A E
  accepted : List (ChannelMessage A E)
  gone : List (ChannelMessage A E × Bool)

inductive Label (Tid A E : Type) where
  | sendChunk (t : Tid) (chunk : List A)
  | fail (t : Tid) (error : E)
  | endStream (t : Tid)
  | step (t : Tid)
  | pull (size : ℕ)
deriving DecidableEq

/-- The label is a step of the consumer. -/
def Label.isPull : Label Tid A E → Bool
  | .pull _ => true
  | _ => false

namespace Sys

def init (capacity : ℕ) (policy : BackpressurePolicy) : Sys Tid A E :=
  ⟨policy, queueOf capacity policy, 0, fun _ => .idle, .new, [], []⟩

def setCall (s : Sys Tid A E) (t : Tid) (c : Call A E) : Sys Tid A E :=
  { s with calls := Function.update s.calls t c }

def setConsumer (s : Sys Tid A E) (c : Consumer A E) : Sys Tid A E := { s with consumer := c }

/-- The call `t` starts in state `c`. -/
def start (s : Sys Tid A E) (t : Tid) (c : Call A E) : Option (Sys Tid A E) :=
  match s.calls t with
  | .idle => some (s.setCall t c)
  | _ => none

/-- The queue has accepted `m` and is now `q`: what `q` lacks was evicted. -/
def accept (s : Sys Tid A E) (m : ChannelMessage A E) (q : Queue (ChannelMessage A E)) :
    Sys Tid A E :=
  { s with
    queue := q
    accepted := s.accepted ++ [m]
    gone := s.gone ++ ((s.queue.buffered ++ [m]).take
      ((s.queue.buffered ++ [m]).length - q.buffered.length)).map (·, false) }

/-- What comes after a push: only a sliding queue has to wake its receivers itself. -/
def afterPush (s : Sys Tid A E) : Call A E :=
  match s.queue with
  | .fromFlume _ => .returned
  | .fromSliding _ => .pushed

/-- One attempt of the call `t` to offer `m`; if it fails, the call goes on in state `refused`. -/
def offer (s : Sys Tid A E) (t : Tid) (m : ChannelMessage A E) (refused : Call A E) :
    Sys Tid A E :=
  match s.queue.offer m with
  | (true, q) => (s.accept m q).setCall t s.afterPush
  | (false, q) => { s with queue := q }.setCall t refused

/-- `send_chunk` after a refused offer. -/
def refusedChunk (policy : BackpressurePolicy) (chunk : List A) : Call A E :=
  match policy with
  | .boundedBlock => .sending chunk
  | .fail => .full
  | .dropNewest | .dropOldest => .returned

def stepCall (s : Sys Tid A E) (t : Tid) : Option (Sys Tid A E) :=
  match s.calls t with
  | .sending chunk => some (s.offer t (.chunk chunk) (refusedChunk s.policy chunk))
  | .terminating m => some (s.offer t m (.terminating m))
  | .pushed => some ({ s with notifyCount := s.notifyCount + 1 }.setCall t .returned)
  | .idle | .returned | .full => none

/-- The consumer looks into the queue. The receiver of a flume queue waits inside the channel. -/
def look (s : Sys Tid A E) : Option (Sys Tid A E) :=
  match s.queue.recv with
  | some (.ok m, q) =>
      some ({ s with queue := q, gone := s.gone ++ [(m, true)] }.setConsumer (s.consumer.handle m))
  | some (.error _, q) =>
      some ({ s with queue := q }.setConsumer { s.consumer with closed := true })
  | none =>
      match s.queue with
      | .fromFlume _ => none
      | .fromSliding _ => some (s.setConsumer { s.consumer with waiting := .unregistered })

/-- The loop of `poll_next_chunk_with_size`, for a positive size. -/
def stepPull (s : Sys Tid A E) (size : ℕ) : Option (Sys Tid A E) :=
  match s.consumer.waiting with
  | .unregistered => some (s.setConsumer { s.consumer with waiting := .registered s.notifyCount })
  | .registered seen =>
      if s.notifyCount = seen then none
      else some (s.setConsumer { s.consumer with waiting := .away })
  | .away =>
      if s.consumer.exhausted then some s
      else
        match s.consumer.buffered, s.consumer.closed with
        | [], false => s.look
        | [], true => some (s.setConsumer { s.consumer with exhausted := true })
        | a :: buf, _ =>
            some (s.setConsumer { s.consumer with
              pulled := s.consumer.pulled ++ (a :: buf).take size
              buffered := (a :: buf).drop size })

def step (s : Sys Tid A E) : Label Tid A E → Option (Sys Tid A E)
  | .sendChunk t chunk => s.start t (.sending chunk)
  | .fail t error => s.start t (.terminating (.fail error))
  | .endStream t => s.start t (.terminating .endStream)
  | .step t => s.stepCall t
  | .pull size => if size = 0 then none else s.stepPull size

/-! ## The promise -/

/-- The messages the queue accepted, in order, each with whether it has not been evicted. -/
def entries (s : Sys Tid A E) : List (ChannelMessage A E × Bool) :=
  s.gone ++ s.queue.buffered.map (·, true)

end Sys

/-- The elements of the chunks that come before the first message that ends the stream and were not
    evicted. -/
def keptElems : List (ChannelMessage A E × Bool) → List A
  | (.chunk items, true) :: rest => items ++ keptElems rest
  | (.chunk _, false) :: rest => keptElems rest
  | _ => []

/-- What a decision about the chunk means: the content of the queue before and after, and where the
    call goes. -/
def Acts (chunk : List A) (before after : List (ChannelMessage A E)) (call : Call A E) :
    BackpressureDecision → Prop
  | .enqueue => after = before ++ [.chunk chunk] ∧ (call = .returned ∨ call = .pushed)
  | .block => after = before ∧ call = .sending chunk
  | .dropNewest => after = before ∧ call = .returned
  | .dropOldest => ∃ oldest rest, before = .chunk oldest :: rest ∧ after = rest ++ [.chunk chunk] ∧
      call = .pushed
  | .fail => after = before ∧ call = .full

namespace Sys

/-- A message that ends the stream has been accepted. -/
def Terminated (s : Sys Tid A E) : Prop := ∃ m ∈ s.accepted, isChunk m = false

/-- The message the next offer would push out of a full sliding queue. -/
def evicts (s : Sys Tid A E) : Option (ChannelMessage A E) :=
  match s.queue with
  | .fromFlume _ => none
  | .fromSliding q => if q.capacity ≤ q.deque.length then q.deque.head? else none

/-- The steps that lose nothing: no message that ends the stream is pushed out; the consumer is not
    between its look and its registration when the last signal for such a message is given; and it
    takes no more elements after it has been told that the stream failed. -/
def Keeps (s : Sys Tid A E) : Label Tid A E → Prop
  | .step t =>
      match s.calls t with
      | .sending _ | .terminating _ => ∀ m, s.evicts = some m → isChunk m = true
      | .pushed => s.consumer.waiting = .unregistered →
          (∃ m ∈ s.queue.buffered, isChunk m = false) → ∃ u, u ≠ t ∧ s.calls u = .pushed
      | _ => True
  | .pull _ => s.consumer.closed = false → s.consumer.errors ≠ [] →
      ∀ items, s.queue.buffered.head? = some (.chunk items) → items = []
  | _ => True

/-- What the stream promises in a state. -/
structure Delivers (capacity : ℕ) (policy : BackpressurePolicy) (s : Sys Tid A E) : Prop where
  /-- A `send_chunk` acts as the decision says. -/
  acts : ∀ t chunk, s.calls t = .sending chunk → s.Keeps (.step t) →
    ∃ s', s.step (.step t) = some s' ∧
      Acts chunk s.queue.buffered s'.queue.buffered (s'.calls t)
        (backpressureDecision policy s.queue.buffered.length capacity)
  accepted : s.accepted = s.entries.map Prod.fst
  /-- The elements pulled are those of the chunks kept, and all of them at the end. -/
  elements : s.consumer.pulled <+: keptElems s.entries
  complete : s.consumer.seen = true → s.consumer.pulled = keptElems s.entries
  /-- Only chunks are evicted. -/
  kept : ∀ m, (m, false) ∈ s.gone → isChunk m = true
  /-- A consumer that has not seen the end is not stuck, unless somebody is about to wake it. -/
  awake : s.Terminated → s.consumer.seen = false →
    (∀ size, 0 < size → ∃ s', s.step (.pull size) = some s') ∨ ∃ t, s.calls t = .pushed
  /-- Whatever the others do, it sees the end within a bounded number of its own steps. -/
  sees : s.Terminated → ∃ n, ∀ ls s', Along step Keeps s ls → run step s ls = some s' →
    n ≤ ls.countP Label.isPull → s'.consumer.seen = true

end Sys

/-- **What is lost.** A message that ends the stream is pushed out of a full sliding queue; a
    consumer of a sliding queue sleeps through such a message; and a consumer that pulls again after
    a failure gets the elements of a later chunk. -/
theorem end_evicted :
    (∃ s : Sys ℕ ℕ ℕ, run Sys.step (Sys.init 1 .dropOldest)
        [.endStream 0, .step 0, .step 0, .sendChunk 1 [7], .step 1] = some s ∧
      s.gone = [(.endStream, false)]) ∧
    (∃ s : Sys ℕ ℕ ℕ, run Sys.step (Sys.init 1 .dropOldest)
        [.pull 1, .endStream 0, .step 0, .step 0, .pull 1] = some s ∧
      s.queue.buffered = [.endStream] ∧ s.calls 0 = .returned ∧ s.step (.pull 1) = none) ∧
    (∃ s : Sys ℕ ℕ ℕ, run Sys.step (Sys.init 2 .boundedBlock)
        [.fail 0 5, .step 0, .sendChunk 1 [7], .step 1, .pull 1, .pull 1, .pull 1] = some s ∧
      s.consumer.pulled = [7] ∧ keptElems s.entries = []) ∧
    ¬ ∀ (capacity : ℕ) (policy : BackpressurePolicy) (ls : List (Label ℕ ℕ ℕ)) (s : Sys ℕ ℕ ℕ),
      run Sys.step (Sys.init capacity policy) ls = some s → s.Delivers capacity policy := by
  have hevicted : ∃ s : Sys ℕ ℕ ℕ, run Sys.step (Sys.init 1 .dropOldest)
      [.endStream 0, .step 0, .step 0, .sendChunk 1 [7], .step 1] = some s ∧
        s.gone = [(.endStream, false)] := ⟨_, rfl, rfl⟩
  refine ⟨hevicted, ⟨_, rfl, rfl, rfl, rfl⟩, ⟨_, rfl, rfl, rfl⟩, ?_⟩
  intro hall
  obtain ⟨s, hs, hgone⟩ := hevicted
  have hmem : (.endStream, false) ∈ s.gone := by
    rw [hgone]
    exact List.mem_singleton_self _
  cases (hall 1 .dropOldest _ s hs).kept .endStream hmem

/-! ## The queue does what the decision says -/

/-- The queue of a policy with the messages `buf` in it. -/
def queueWith {M : Type} (capacity : ℕ) (policy : BackpressurePolicy) (buf : List M) : Queue M :=
  match policy with
  | .boundedBlock | .fail => .fromFlume ⟨.bounded, some (max capacity 1), buf, true, false⟩
  | .dropNewest => .fromFlume ⟨.dropping, some (max capacity 1), buf, true, false⟩
  | .dropOldest => .fromSliding ⟨buf, true, max capacity 1, false⟩

section queueWith

variable {M : Type} {capacity : ℕ} {policy : BackpressurePolicy} {buf : List M}

theorem queueOf_eq_queueWith (capacity : ℕ) (policy : BackpressurePolicy) :
    (queueOf capacity policy : Queue M) = queueWith capacity policy [] := by
  cases policy <;> simp [queueOf, queueWith, Queue.bounded, Queue.dropping, Queue.sliding,
    SlidingShared.new]

@[simp] theorem queueWith_buffered : (queueWith capacity policy buf).buffered = buf := by
  cases policy <;> rfl

theorem queueWith_recv_nil : (queueWith capacity policy ([] : List M)).recv = none := by
  cases policy <;> rfl

theorem queueWith_recv_cons {m : M} : (queueWith capacity policy (m :: buf)).recv =
    some (.ok m, queueWith capacity policy buf) := by
  cases policy <;> rfl

/-- **Offers follow the decision.** -/
theorem offer_eq_decision (policy : BackpressurePolicy) (m : M)
    (hlen : buf.length ≤ max capacity 1) :
    (queueWith capacity policy buf).offer m =
      match backpressureDecision policy buf.length capacity with
      | .enqueue => (true, queueWith capacity policy (buf ++ [m]))
      | .dropOldest => (true, queueWith capacity policy (buf.tail ++ [m]))
      | .block | .dropNewest | .fail => (false, queueWith capacity policy buf) := by
  by_cases hroom : buf.length < max capacity 1
  · have hfull : ¬ max capacity 1 ≤ buf.length := by omega
    have htrim : SlidingShared.trim (max capacity 1) (buf ++ [m]) = buf ++ [m] := by
      have hzero : (buf ++ [m]).length - max capacity 1 = 0 := by
        rw [List.length_append, List.length_singleton]
        omega
      rw [SlidingShared.trim_eq_drop, hzero, List.drop_zero]
    cases policy <;> simp only [queueWith, backpressureDecision, if_pos hroom, Queue.offer,
      FlumeShared.offer, FlumeShared.trySend, SlidingShared.offer, SlidingShared.offerOrRetain,
      if_true, if_neg hfull, htrim]
  · have hfull : max capacity 1 ≤ buf.length := by omega
    have htrim : SlidingShared.trim (max capacity 1) (buf ++ [m]) = buf.tail ++ [m] := by
      have hone : (buf ++ [m]).length - max capacity 1 = 1 := by
        rw [List.length_append, List.length_singleton]
        omega
      have hpos : 1 ≤ buf.length := by omega
      rw [SlidingShared.trim_eq_drop, hone, List.drop_append_of_le_length hpos, List.drop_one]
    cases policy <;> simp only [queueWith, backpressureDecision, if_neg hroom, Queue.offer,
      FlumeShared.offer, FlumeShared.trySend, SlidingShared.offer, SlidingShared.offerOrRetain,
      if_true, if_pos hfull, htrim]

end queueWith

end IdEffect.Channels
