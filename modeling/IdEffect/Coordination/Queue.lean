import Mathlib.Data.List.Basic

set_option autoImplicit false

/-! # Queues: `coordination/queue.rs`

The two backends of `Queue` and the lock-protected sections of their operations. `FlumeShared` wraps
a `flume` channel, taken as a FIFO buffer that hands out what it holds even after its sender is
gone; `SlidingShared` keeps a deque of its own. A section that may have to wait (`recv`) is `none`
while it would. Each operation returns its result and the backend it leaves. -/

namespace IdEffect

variable {A : Type}

inductive QueueError where
  | disconnected
deriving DecidableEq

/-! ## The flume backend -/

inductive FlumeKind where
  | bounded
  | unbounded
  | dropping
deriving DecidableEq

/-- `buf` is the channel's content and `cap` its bound; `tx` says whether the sender is still there
    (`shutdown` takes it, nothing ever takes the receiver); `shutdown` is the watch value. -/
structure FlumeShared (A : Type) where
  kind : FlumeKind
  cap : Option ℕ
  buf : List A
  tx : Bool
  shutdown : Bool
deriving DecidableEq

namespace FlumeShared

/-- `flume`'s `try_send` on a live channel: the value comes back when the channel is full. -/
def trySend (f : FlumeShared A) (value : A) : Except A (FlumeShared A) :=
  match f.cap with
  | none => .ok { f with buf := f.buf ++ [value] }
  | some c =>
      if c ≤ f.buf.length then .error value else .ok { f with buf := f.buf ++ [value] }

/-- `FlumeShared::offer`: the three kinds differ only in how they let go of a refused value. -/
def offer (f : FlumeShared A) (value : A) : Bool × FlumeShared A :=
  if f.tx then
    match f.trySend value with
    | .ok f' => (true, f')
    | .error _ => (false, f)
  else (false, f)

/-- `FlumeShared::offer_or_retain`: only a full bounded queue gives the value back; a shut down
    queue, and a full one of another kind, drop it. -/
def offerOrRetain (f : FlumeShared A) (value : A) : Except A Unit × FlumeShared A :=
  if f.tx then
    match f.trySend value with
    | .ok f' => (.ok (), f')
    | .error v =>
        match f.kind with
        | .bounded => (.error v, f)
        | .unbounded | .dropping => (.ok (), f)
  else (.ok (), f)

def recv (f : FlumeShared A) : Option (Except QueueError A × FlumeShared A) :=
  match f.buf with
  | v :: rest => some (.ok v, { f with buf := rest })
  | [] => if f.tx then none else some (.error .disconnected, f)

def tryRecv (f : FlumeShared A) : Except QueueError (Option A) × FlumeShared A :=
  match f.buf with
  | v :: rest => (.ok (some v), { f with buf := rest })
  | [] => if f.tx then (.ok none, f) else (.error .disconnected, f)

def close (f : FlumeShared A) : FlumeShared A := { f with tx := false, shutdown := true }

end FlumeShared

/-! ## The sliding backend -/

structure SlidingShared (A : Type) where
  deque : List A
  isOpen : Bool
  capacity : ℕ
  shutdown : Bool
deriving DecidableEq

namespace SlidingShared

def new (capacity : ℕ) : SlidingShared A := ⟨[], true, max capacity 1, false⟩

/-- The loop `while deque.len() > capacity { deque.pop_front() }`. -/
def trim (capacity : ℕ) : List A → List A
  | [] => []
  | v :: rest => if capacity < (v :: rest).length then trim capacity rest else v :: rest

/-- `SlidingShared::offer_or_retain` up to the release of the lock. -/
def offerOrRetain (s : SlidingShared A) (value : A) : Except A Unit × SlidingShared A :=
  if s.isOpen then (.ok (), { s with deque := trim s.capacity (s.deque ++ [value]) })
  else (.error value, s)

def offer (s : SlidingShared A) (value : A) : Bool × SlidingShared A :=
  match s.offerOrRetain value with
  | (.ok (), s') => (true, s')
  | (.error _, s') => (false, s')

/-- One round of the loop in `SlidingShared::recv`: `none` sends the receiver to sleep. -/
def recv (s : SlidingShared A) : Option (Except QueueError A × SlidingShared A) :=
  match s.deque with
  | v :: rest => some (.ok v, { s with deque := rest })
  | [] => if s.isOpen then none else some (.error .disconnected, s)

def tryRecv (s : SlidingShared A) : Except QueueError (Option A) × SlidingShared A :=
  match s.deque with
  | v :: rest => (.ok (some v), { s with deque := rest })
  | [] => if s.isOpen then (.ok none, s) else (.error .disconnected, s)

/-- The section of `SlidingShared::shutdown` that holds the lock. -/
def closeState (s : SlidingShared A) : SlidingShared A := { s with isOpen := false }

/-- `shutdown.send_replace(true)`. -/
def announce (s : SlidingShared A) : SlidingShared A := { s with shutdown := true }

def close (s : SlidingShared A) : SlidingShared A := s.closeState.announce

theorem trim_eq_drop (capacity : ℕ) (deque : List A) :
    trim capacity deque = deque.drop (deque.length - capacity) := by
  induction deque with
  | nil => simp [trim]
  | cons v rest ih =>
      rw [trim]
      split
      · next h =>
          have hsub : (v :: rest).length - capacity = rest.length - capacity + 1 := by
            simp only [List.length_cons] at h ⊢
            omega
          rw [ih, hsub, List.drop_succ_cons]
      · next h =>
          have hsub : (v :: rest).length - capacity = 0 := by omega
          rw [hsub, List.drop_zero]

end SlidingShared

/-! ## The queue -/

inductive Queue (A : Type) where
  | fromFlume (f : FlumeShared A)
  | fromSliding (s : SlidingShared A)
deriving DecidableEq

namespace Queue

def bounded (capacity : ℕ) : Queue A :=
  .fromFlume ⟨.bounded, some (max capacity 1), [], true, false⟩

def unbounded : Queue A := .fromFlume ⟨.unbounded, none, [], true, false⟩

def dropping (capacity : ℕ) : Queue A :=
  .fromFlume ⟨.dropping, some (max capacity 1), [], true, false⟩

def sliding (capacity : ℕ) : Queue A := .fromSliding (.new capacity)

def offer (q : Queue A) (value : A) : Bool × Queue A :=
  match q with
  | .fromFlume f => ((f.offer value).1, .fromFlume (f.offer value).2)
  | .fromSliding s => ((s.offer value).1, .fromSliding (s.offer value).2)

/-- One element of the loop of `Queue::offer_all`. -/
def offerOrRetain (q : Queue A) (value : A) : Except A Unit × Queue A :=
  match q with
  | .fromFlume f => ((f.offerOrRetain value).1, .fromFlume (f.offerOrRetain value).2)
  | .fromSliding s => ((s.offerOrRetain value).1, .fromSliding (s.offerOrRetain value).2)

def recv (q : Queue A) : Option (Except QueueError A × Queue A) :=
  match q with
  | .fromFlume f => f.recv.map fun r => (r.1, .fromFlume r.2)
  | .fromSliding s => s.recv.map fun r => (r.1, .fromSliding r.2)

def tryRecv (q : Queue A) : Except QueueError (Option A) × Queue A :=
  match q with
  | .fromFlume f => (f.tryRecv.1, .fromFlume f.tryRecv.2)
  | .fromSliding s => (s.tryRecv.1, .fromSliding s.tryRecv.2)

def shutdown (q : Queue A) : Queue A :=
  match q with
  | .fromFlume f => .fromFlume f.close
  | .fromSliding s => .fromSliding s.close

def isShutdown (q : Queue A) : Bool :=
  match q with
  | .fromFlume f => f.shutdown
  | .fromSliding s => s.shutdown

/-- The elements in the queue, oldest first. -/
def buffered (q : Queue A) : List A :=
  match q with
  | .fromFlume f => f.buf
  | .fromSliding s => s.deque

/-- No more elements will come in. -/
def closed (q : Queue A) : Bool :=
  match q with
  | .fromFlume f => !f.tx
  | .fromSliding s => !s.isOpen

/-! ### What the operations do to the buffer -/

/-- `offer` and the step of `offer_all` leave the same queue behind. -/
theorem offerOrRetain_snd (q : Queue A) (v : A) : (q.offerOrRetain v).2 = (q.offer v).2 := by
  cases q with
  | fromFlume f =>
      simp only [offerOrRetain, offer, FlumeShared.offerOrRetain, FlumeShared.offer]
      split
      · cases f.trySend v with
        | ok f' => rfl
        | error w => cases f.kind <;> rfl
      · rfl
  | fromSliding s =>
      simp only [offerOrRetain, offer, SlidingShared.offer, SlidingShared.offerOrRetain]
      split <;> rfl

/-- An accepted element goes to the back, after which the oldest ones may be evicted; a refused one
    changes nothing. -/
theorem offer_spec (q : Queue A) (v : A) :
    ((q.offer v).1 = true ∧ ∃ k ≤ (q.buffered ++ [v]).length,
        (q.offer v).2.buffered = (q.buffered ++ [v]).drop k) ∨
      ((q.offer v).1 = false ∧ (q.offer v).2 = q) := by
  cases q with
  | fromFlume f =>
      simp only [offer, FlumeShared.offer, FlumeShared.trySend, buffered]
      cases f.tx with
      | false => exact Or.inr ⟨rfl, rfl⟩
      | true =>
          cases f.cap with
          | none => exact Or.inl ⟨rfl, 0, by simp, rfl⟩
          | some c =>
              by_cases hc : c ≤ f.buf.length
              · simp [hc]
              · simp only [if_true, if_neg hc]
                exact Or.inl ⟨trivial, 0, by simp, rfl⟩
  | fromSliding s =>
      simp only [offer, SlidingShared.offer, SlidingShared.offerOrRetain, buffered]
      cases s.isOpen with
      | false => exact Or.inr ⟨rfl, rfl⟩
      | true => exact Or.inl ⟨rfl, _, Nat.sub_le _ _, SlidingShared.trim_eq_drop _ _⟩

/-- Only a sliding queue evicts. -/
theorem flume_offer_buffered (f : FlumeShared A) (v : A) :
    ((Queue.fromFlume f).offer v).1 = true →
      ((Queue.fromFlume f).offer v).2.buffered = (Queue.fromFlume f).buffered ++ [v] := by
  simp only [offer, FlumeShared.offer, FlumeShared.trySend, buffered]
  cases f.tx with
  | false => simp
  | true =>
      cases f.cap with
      | none => simp
      | some c => by_cases hc : c ≤ f.buf.length <;> simp [hc]

/-- The queue with other elements in it. -/
def withBuffered (q : Queue A) (elements : List A) : Queue A :=
  match q with
  | .fromFlume f => .fromFlume { f with buf := elements }
  | .fromSliding s => .fromSliding { s with deque := elements }

@[simp] theorem buffered_withBuffered (q : Queue A) (elements : List A) :
    (q.withBuffered elements).buffered = elements := by
  cases q <;> rfl

@[simp] theorem closed_withBuffered (q : Queue A) (elements : List A) :
    (q.withBuffered elements).closed = q.closed := by
  cases q <;> rfl

@[simp] theorem isShutdown_withBuffered (q : Queue A) (elements : List A) :
    (q.withBuffered elements).isShutdown = q.isShutdown := by
  cases q <;> rfl

/-- Both backends receive alike: the oldest element, or the end of a closed queue. -/
theorem recv_eq (q : Queue A) :
    q.recv = match q.buffered with
      | v :: rest => some (.ok v, q.withBuffered rest)
      | [] => if q.closed then some (.error .disconnected, q) else none := by
  cases q with
  | fromFlume f =>
      obtain ⟨kind, cap, buf, tx, shutdown⟩ := f
      cases buf with
      | cons v rest => rfl
      | nil => cases tx <;> rfl
  | fromSliding s =>
      obtain ⟨deque, isOpen, capacity, shutdown⟩ := s
      cases deque with
      | cons v rest => rfl
      | nil => cases isOpen <;> rfl

/-- A queue with elements never makes its receivers wait. -/
theorem recv_of_buffered {q : Queue A} {v : A} {rest : List A} (h : q.buffered = v :: rest) :
    ∃ q', q.recv = some (.ok v, q') ∧ q'.buffered = rest :=
  ⟨q.withBuffered rest, by rw [recv_eq, h], buffered_withBuffered q rest⟩

theorem recv_taken {q q' : Queue A} {v : A} (h : q.recv = some (.ok v, q')) :
    ∃ rest, q.buffered = v :: rest ∧ q' = q.withBuffered rest := by
  rw [recv_eq] at h
  cases hb : q.buffered with
  | cons w rest =>
      rw [hb] at h
      cases h
      exact ⟨rest, rfl, rfl⟩
  | nil =>
      rw [hb] at h
      simp only at h
      split_ifs at h
      cases h

theorem recv_ok {q q' : Queue A} {v : A} (h : q.recv = some (.ok v, q')) :
    q.buffered = v :: q'.buffered := by
  obtain ⟨rest, hb, rfl⟩ := recv_taken h
  rw [hb, buffered_withBuffered]

theorem recv_closed {q q' : Queue A} {v : A} (h : q.recv = some (.ok v, q')) :
    q'.closed = q.closed := by
  obtain ⟨rest, -, rfl⟩ := recv_taken h
  exact closed_withBuffered q rest

theorem recv_error {q q' : Queue A} {e : QueueError} (h : q.recv = some (.error e, q')) :
    q' = q ∧ q.buffered = [] ∧ q.closed = true := by
  rw [recv_eq] at h
  cases hb : q.buffered with
  | cons w rest =>
      rw [hb] at h
      cases h
  | nil =>
      rw [hb] at h
      simp only at h
      split_ifs at h with hclosed
      cases h
      exact ⟨rfl, rfl, hclosed⟩

/-- Only an open queue makes its receivers wait. -/
theorem recv_none {q : Queue A} (h : q.recv = none) : q.closed = false := by
  rw [recv_eq] at h
  cases hb : q.buffered with
  | cons w rest =>
      rw [hb] at h
      cases h
  | nil =>
      rw [hb] at h
      simp only at h
      split_ifs at h with hclosed
      exact eq_false_of_ne_true hclosed

/-- The non-blocking receive is the blocking one, with "nothing yet" in place of waiting. -/
theorem tryRecv_eq (q : Queue A) :
    q.tryRecv = match q.recv with
      | some (.ok v, q') => (.ok (some v), q')
      | some (.error e, q') => (.error e, q')
      | none => (.ok none, q) := by
  cases q with
  | fromFlume f =>
      simp only [tryRecv, recv, FlumeShared.tryRecv, FlumeShared.recv]
      cases f.buf with
      | cons w rest => rfl
      | nil => cases f.tx <;> rfl
  | fromSliding s =>
      simp only [tryRecv, recv, SlidingShared.tryRecv, SlidingShared.recv]
      cases s.deque with
      | cons w rest => rfl
      | nil => cases s.isOpen <;> rfl

@[simp] theorem shutdown_buffered (q : Queue A) : q.shutdown.buffered = q.buffered := by
  cases q <;> rfl

@[simp] theorem shutdown_closed (q : Queue A) : q.shutdown.closed = true := by
  cases q <;> rfl

/-! ### What no operation changes -/

/-- The kind of a `flume` channel and its bound; a sliding queue has none. -/
def backend (q : Queue A) : Option (FlumeKind × Option ℕ) :=
  match q with
  | .fromFlume f => some (f.kind, f.cap)
  | .fromSliding _ => none

@[simp] theorem backend_offer (q : Queue A) (v : A) : (q.offer v).2.backend = q.backend := by
  cases q with
  | fromSliding s => rfl
  | fromFlume f =>
      simp only [offer, FlumeShared.offer, FlumeShared.trySend]
      split
      · cases hcap : f.cap with
        | none => simp [backend, hcap]
        | some c => by_cases hc : c ≤ f.buf.length <;> simp [backend, hcap, hc]
      · rfl

@[simp] theorem backend_withBuffered (q : Queue A) (elements : List A) :
    (q.withBuffered elements).backend = q.backend := by
  cases q <;> rfl

theorem backend_recv {q q' : Queue A} {r : Except QueueError A} (h : q.recv = some (r, q')) :
    q'.backend = q.backend := by
  cases r with
  | error e => rw [(recv_error h).1]
  | ok v =>
      obtain ⟨rest, -, rfl⟩ := recv_taken h
      exact backend_withBuffered q rest

@[simp] theorem backend_shutdown (q : Queue A) : q.shutdown.backend = q.backend := by
  cases q <;> rfl

/-- How many elements a sliding queue keeps. -/
def window (q : Queue A) : Option ℕ :=
  match q with
  | .fromFlume _ => none
  | .fromSliding s => some s.capacity

@[simp] theorem window_offer (q : Queue A) (v : A) : (q.offer v).2.window = q.window := by
  cases q with
  | fromFlume f => rfl
  | fromSliding s =>
      simp only [offer, SlidingShared.offer, SlidingShared.offerOrRetain]
      cases s.isOpen <;> rfl

theorem window_recv {q q' : Queue A} {r : Except QueueError A} (h : q.recv = some (r, q')) :
    q'.window = q.window := by
  cases r with
  | error e => rw [(recv_error h).1]
  | ok v =>
      obtain ⟨rest, -, rfl⟩ := recv_taken h
      cases q <;> rfl

@[simp] theorem window_shutdown (q : Queue A) : q.shutdown.window = q.window := by
  cases q <;> rfl

end Queue

/-! ## The modes -/

/-- The constructors of `Queue`. -/
inductive Mode where
  | bounded (capacity : ℕ)
  | unbounded
  | dropping (capacity : ℕ)
  | sliding (capacity : ℕ)

def Mode.make : Mode → Queue A
  | .bounded c => Queue.bounded c
  | .unbounded => Queue.unbounded
  | .dropping c => Queue.dropping c
  | .sliding c => Queue.sliding c

/-- A sliding queue has room for the element that comes in. -/
theorem Mode.one_le_window {mode : Mode} {k : ℕ} (h : (mode.make : Queue A).window = some k) :
    1 ≤ k := by
  cases mode with
  | sliding c =>
      obtain rfl := Option.some.inj h
      exact Nat.le_max_right c 1
  | bounded c | unbounded | dropping c => cases h

theorem Mode.make_buffered (mode : Mode) : (mode.make : Queue A).buffered = [] := by
  cases mode <;> rfl

end IdEffect
