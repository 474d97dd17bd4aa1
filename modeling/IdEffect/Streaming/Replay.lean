import IdEffect.Streaming.Broadcast

set_option autoImplicit false

/-! # Broadcasting with replay: `replay.rs`

`broadcast_with_replay` is a broadcast through a hub that may be too small for the upstream. The
pump retains the last `replay_len` elements, and each branch is made with a copy of what is
retained. But the branches are made before the pump runs, when nothing is: their copies are empty
(`tail_never_served`), and a branch gets what its forwarder gets from the hub. That is a subsequence
of the upstream in every run. It ends with the tail unless a forwarder lags past the start of the
tail, or is stopped before it has delivered everything (`replay_keeps_tail`). -/

namespace IdEffect.Replay

open Transition Broadcast PubSubRuns
open Fanout (Branch Pump Label Step Books Laws)

variable {A : Type}

/-! ## The system -/

/-- The broadcast, the shared buffer, and what is left of the copy that each branch was made
    with. -/
structure Sys (A : Type) where
  fanout : Fanout.Sys A
  replayBuf : List A
  buffered : ℕ → List A

/-- `pop_front` while there are more than `replay` elements. -/
def popFront (replay : ℕ) : List A → List A
  | [] => []
  | a :: buf => if replay < (a :: buf).length then popFront replay buf else a :: buf

/-- What the pump does with an element before it publishes it. -/
def retain (replay : ℕ) (buf : List A) (a : A) : List A := popFront replay (buf ++ [a])

namespace Sys

/-- A round of the loop that makes the branches. -/
def makeBranch (s : Sys A) (r : ℕ) : Sys A :=
  { s with buffered := Function.update s.buffered r s.replayBuf }

/-- The state `broadcast_with_replay` returns. -/
def init (ring cap branches : ℕ) (items : List A) : Sys A :=
  (List.range branches).foldl makeBranch ⟨.init ring cap branches items, [], fun _ => []⟩

def stepPump (replay : ℕ) (s : Sys A) : Option (Sys A) :=
  match s.fanout.pump with
  | .publishing (v :: _) =>
      s.fanout.stepPump.map fun f =>
        { s with fanout := f, replayBuf := retain replay s.replayBuf v }
  | _ => s.fanout.stepPump.map fun f => { s with fanout := f }

/-- The branch's stream serves what it has buffered before it takes from its queue. -/
def stepPull (s : Sys A) (r : ℕ) : Option (Sys A) :=
  match s.buffered r with
  | a :: rest =>
      if (s.fanout.branches r).ended || (s.fanout.branches r).dropped then none
      else
        some
          { s with
            fanout := s.fanout.setBranch r
              ((s.fanout.branches r).collect a (s.fanout.branches r).sub.queue)
            buffered := Function.update s.buffered r rest }
  | [] => (s.fanout.stepPull r).map fun f => { s with fanout := f }

def step (replay : ℕ) (s : Sys A) : Label → Option (Sys A)
  | .pump => s.stepPump replay
  | .pull r => if r < s.fanout.hub.chan.cursors.length then s.stepPull r else none
  | l => (s.fanout.step l).map fun f => { s with fanout := f }

end Sys

/-! ## The promise -/

/-- Where the last `replay` elements start. -/
def tailStart (replay : ℕ) (items : List A) : ℕ := items.length - replay

/-- A subsequence that ends with the last `replay` elements. -/
structure KeepsTail (replay : ℕ) (items collected : List A) : Prop where
  order : collected.Sublist items
  tail : items.drop (tailStart replay items) <:+ collected

/-- Every branch that was pulled to its end has kept the tail. -/
def Sys.Replays (replay : ℕ) (items : List A) (s : Sys A) : Prop :=
  ∀ r, (s.fanout.branches r).ended = true → KeepsTail replay items (s.fanout.branches r).collected

/-- A forwarder that lags does not lose anything from number `m` on; a forwarder that is aborted has
    received everything, and a queue is shut down with nothing in hand. -/
def Spares (m : ℕ) (s : Fanout.Sys A) : Label → Prop
  | .recv r => (s.branches r).dropped = false → ∀ c ∈ s.hub.chan.cursors[r]?,
      c.pos + s.hub.chan.ring < s.hub.chan.sent.length →
        s.hub.chan.sent.length - s.hub.chan.ring ≤ m
  | l => s.Drained l

/-- If there is a tail, it is spared. -/
def Sys.SparesTail (replay : ℕ) (items : List A) (s : Sys A) (l : Label) : Prop :=
  tailStart replay items < items.length → Spares (tailStart replay items) s.fanout l

instance (m : ℕ) (s : Fanout.Sys A) : (l : Label) → Decidable (Spares m s l)
  | .recv _ => inferInstanceAs (Decidable (_ → _))
  | .pump | .offer _ | .pull _ | .drop _ => .isTrue trivial
  | .closer _ => inferInstanceAs (Decidable (_ → _))

instance (replay : ℕ) (items : List A) (s : Sys A) (l : Label) :
    Decidable (s.SparesTail replay items l) :=
  inferInstanceAs (Decidable (_ → _))

/-- Both elements are retained, but the forwarder lags behind the first one. -/
theorem tail_lost :
    ¬ ∀ (ring cap replay branches : ℕ) (items : List ℕ) (ls : List Label) (s : Sys ℕ),
      max cap 1 ≤ ring → run (Sys.step replay) (Sys.init ring cap branches items) ls = some s →
        s.Replays replay items := by
  intro hall
  have hrun : ∃ s, run (Sys.step 2) (Sys.init 1 1 1 [1, 2])
      [.pump, .pump, .pump, .recv 0, .recv 0, .offer 0, .recv 0, .pull 0, .pull 0] = some s ∧
        ((s.fanout.branches 0).ended, (s.fanout.branches 0).collected, s.replayBuf)
          = (true, [2], [1, 2]) :=
    exists_run _ (by decide)
  obtain ⟨s, hs, hlast⟩ := hrun
  simp only [Prod.mk.injEq] at hlast
  have hkept := hall 1 1 2 1 [1, 2] _ s (by decide) hs 0 hlast.1
  rw [hlast.2.1] at hkept
  exact absurd hkept.tail (by decide)

/-! ## The books of a branch -/

/-- The queue of a subscription. -/
def Unbounded (q : Queue A) : Prop := ∃ f, q = .fromFlume f ∧ f.cap = none

/-- It takes an element unless it is closed. -/
theorem Unbounded.offer {q : Queue A} (h : Unbounded q) (v : A) : Unbounded (q.offer v).2 ∧
    ((q.offer v).1 = true ∧ q.closed = false ∧ (q.offer v).2.buffered = q.buffered ++ [v]
        ∧ (q.offer v).2.closed = false
      ∨ (q.offer v).1 = false ∧ q.closed = true ∧ (q.offer v).2 = q) := by
  obtain ⟨f, rfl, hcap⟩ := h
  cases htx : f.tx with
  | true =>
      have hoffer : f.offer v = (true, { f with buf := f.buf ++ [v] }) := by
        simp [FlumeShared.offer, FlumeShared.trySend, hcap, htx]
      refine ⟨⟨{ f with buf := f.buf ++ [v] }, by simp [Queue.offer, hoffer], hcap⟩, .inl ?_⟩
      simp [Queue.offer, hoffer, Queue.buffered, Queue.closed, htx]
  | false =>
      have hoffer : f.offer v = (false, f) := by
        simp [FlumeShared.offer, htx]
      refine ⟨⟨f, by simp [Queue.offer, hoffer], hcap⟩, .inr ?_⟩
      simp [Queue.offer, hoffer, Queue.closed, htx]

theorem Unbounded.recv {q q' : Queue A} {r : Except QueueError A} (h : Unbounded q)
    (hq : q.recv = some (r, q')) : Unbounded q' := by
  obtain ⟨f, rfl, hcap⟩ := h
  have hbackend : q'.backend = some (f.kind, none) := by
    rw [Queue.backend_recv hq, Queue.backend, hcap]
  cases q' with
  | fromFlume f' =>
      simp only [Queue.backend, Option.some.injEq, Prod.mk.injEq] at hbackend
      exact ⟨f', rfl, hbackend.2⟩
  | fromSliding s => cases hbackend

theorem Unbounded.shutdown {q : Queue A} (h : Unbounded q) : Unbounded q.shutdown := by
  obtain ⟨f, rfl, hcap⟩ := h
  exact ⟨f.close, rfl, hcap⟩

/-- A branch nobody has dropped, against what has been published (`sent`), what is still to publish
    (`left`) and whether the pump is past publishing (`past`): what it collected, what waits in its
    queue and what its forwarder has in hand is a subsequence of what its cursor has passed. If all
    steps have spared what comes from number `m` on (`full`), it ends with that. -/
structure BranchBooks (full : Bool) (m : ℕ) (items sent left : List A) (past : Bool) (c : Cursor)
    (b : Branch A) : Prop where
  published : sent ++ left = items
  pos_le : c.pos ≤ sent.length
  order : (b.sub.received ++ b.sub.inHand.toList).Sublist (sent.take c.pos)
  taken : b.collected ++ b.sub.queue.buffered = b.sub.received
  queue : Unbounded b.sub.queue
  attached : past = false → c.stop = none
  begun : b.stage ≠ .untouched → past = true
  aborted : b.aborted = true → past = true
  shut : b.sub.queue.closed = true → past = true
  ended : b.ended = true → b.sub.queue.closed = true ∧ b.sub.queue.buffered = []
  tail : full = true → (sent.take c.pos).drop m <:+ b.sub.received ++ b.sub.inHand.toList
  stopped : full = true → b.stage = .aborted ∨ b.stage = .closed → c.pos = sent.length
  drained : full = true → b.sub.queue.closed = true → b.sub.inHand = none ∧ c.pos = sent.length

namespace BranchBooks

variable {full : Bool} {m : ℕ} {items sent left : List A} {past : Bool} {c : Cursor} {b : Branch A}

theorem new (full : Bool) (m : ℕ) (items : List A) :
    BranchBooks full m items [] items false ⟨0, 0, none⟩ (Branch.new : Branch A) where
  published := rfl
  pos_le := Nat.le_refl _
  order := List.Sublist.refl _
  taken := rfl
  queue := ⟨_, rfl, rfl⟩
  attached := fun _ => rfl
  begun := fun h => absurd rfl h
  aborted := nofun
  shut := nofun
  ended := nofun
  tail := fun _ => by simp
  stopped := fun _ h => by rcases h with h | h <;> cases h
  drained := nofun

/-- What a branch that has come to its end has collected. -/
theorem sublist (h : BranchBooks full m items sent left past c b) : b.collected.Sublist items := by
  have hreceived : b.collected.Sublist b.sub.received := by
    rw [← h.taken]
    exact List.sublist_append_left _ _
  have hsent : (sent.take c.pos).Sublist items := by
    rw [← h.published]
    exact (List.take_sublist _ _).trans (List.sublist_append_left _ _)
  exact (hreceived.trans (List.sublist_append_left _ _)).trans (h.order.trans hsent)

theorem suffix (h : BranchBooks true m items sent left past c b) (hleft : past = true → left = [])
    (hend : b.ended = true) : items.drop m <:+ b.collected := by
  obtain ⟨hclosed, hempty⟩ := h.ended hend
  obtain ⟨hhand, hpos⟩ := h.drained rfl hclosed
  have htaken := h.taken
  have htail := h.tail rfl
  have hpublished := h.published
  rw [hempty, List.append_nil] at htaken
  rw [hhand, Option.toList_none, List.append_nil, hpos, List.take_length, ← htaken] at htail
  rw [hleft (h.shut hclosed), List.append_nil] at hpublished
  rwa [← hpublished]

/-- Nothing closes a scope or a queue while the pump still publishes. -/
theorem publishing (h : BranchBooks full m items sent left false c b) :
    b.stage = .untouched ∧ b.sub.queue.closed = false := by
  refine ⟨?_, ?_⟩
  · by_contra hne
    cases h.begun hne
  · by_contra hne
    cases h.shut (eq_true_of_ne_false hne)

theorem publish {v : A} (h : BranchBooks full m items sent (v :: left) false c b) :
    BranchBooks full m items (sent ++ [v]) left false c b := by
  obtain ⟨hstage, hopen⟩ := h.publishing
  have htake : (sent ++ [v]).take c.pos = sent.take c.pos := List.take_append_of_le_length h.pos_le
  refine ⟨?_, ?_, ?_, h.taken, h.queue, h.attached, h.begun, h.aborted, h.shut, h.ended, ?_, ?_, ?_⟩
  · rw [List.append_assoc, List.singleton_append, h.published]
  · have hle := h.pos_le
    rw [List.length_append]
    omega
  · rw [htake]
    exact h.order
  · rw [htake]
    exact h.tail
  · rw [hstage]
    rintro - (hst | hst) <;> cases hst
  · intro _ hclosed
    exact absurd (hopen.symm.trans hclosed) (by simp)

theorem over_true (h : BranchBooks full m items sent left past c b) :
    BranchBooks full m items sent left true c b :=
  { h with
    attached := nofun
    begun := fun _ => rfl
    aborted := fun _ => rfl
    shut := fun _ => rfl }

theorem recv {v : A} (h : BranchBooks full m items sent left past c b)
    (hhand : b.sub.inHand = none) (hv : sent[c.pos]? = some v) :
    BranchBooks full m items sent left past { c with pos := c.pos + 1 }
      (b.setSub (b.sub.receive v false)) := by
  obtain ⟨hlt, hget⟩ := List.getElem?_eq_some_iff.1 hv
  have hbehind : c.pos ≠ sent.length := by omega
  have htake : sent.take (c.pos + 1) = sent.take c.pos ++ [v] := by
    rw [List.take_succ_eq_append_getElem hlt, hget]
  have horder := h.order
  have htail := h.tail
  rw [hhand, Option.toList_none, List.append_nil] at horder htail
  refine ⟨h.published, hlt, ?_, h.taken, h.queue, h.attached, h.begun, h.aborted, h.shut, h.ended,
    fun hfull => ?_, fun hfull hst => ?_, fun hfull hcl => ?_⟩
  · show (b.sub.received ++ [v]).Sublist (sent.take (c.pos + 1))
    rw [htake]
    exact horder.append_right [v]
  · show (sent.take (c.pos + 1)).drop m <:+ b.sub.received ++ [v]
    rw [htake]
    by_cases hm : m ≤ c.pos
    · have hlen : m ≤ (sent.take c.pos).length := by
        rw [List.length_take]
        omega
      rw [List.drop_append_of_le_length hlen, List.suffix_append_self_iff]
      exact htail hfull
    · have hnil : (sent.take c.pos ++ [v]).drop m = [] := by
        rw [List.drop_eq_nil_iff, List.length_append, List.length_take, List.length_singleton]
        omega
      rw [hnil]
      exact List.nil_suffix
  · exact absurd (h.stopped hfull hst) hbehind
  · exact absurd (h.drained hfull hcl).2 hbehind

/-- The forwarder lags, but not past the start of the tail. -/
theorem lag {pos : ℕ} (h : BranchBooks full m items sent left past c b) (hlt : c.pos < pos)
    (hle : pos ≤ sent.length) (hm : full = true → pos ≤ m) :
    BranchBooks full m items sent left past { c with pos := pos } (b.setSub b.sub.lag) := by
  have hbehind : c.pos ≠ sent.length := by omega
  refine ⟨h.published, hle, ?_, h.taken, h.queue, h.attached, h.begun, h.aborted, h.shut, h.ended,
    fun hfull => ?_, fun hfull hst => ?_, fun hfull hcl => ?_⟩
  · exact h.order.trans (List.take_sublist_take_left (Nat.le_of_lt hlt))
  · have hnil : (sent.take pos).drop m = [] := by
      have hpos := hm hfull
      rw [List.drop_eq_nil_iff, List.length_take]
      omega
    show (sent.take pos).drop m <:+ _
    rw [hnil]
    exact List.nil_suffix
  · exact absurd (h.stopped hfull hst) hbehind
  · exact absurd (h.drained hfull hcl).2 hbehind

/-- The forwarder sees the channel closed. -/
theorem closed (h : BranchBooks full m items sent left true c b) (hhand : b.sub.inHand = none)
    (hpos : sent.length ≤ c.pos) :
    BranchBooks full m items sent left true c (b.setSub b.sub.finish) := by
  have hshut : b.sub.queue.shutdown.closed = true := Queue.shutdown_closed _
  refine ⟨h.published, h.pos_le, h.order, ?_, h.queue.shutdown, h.attached, h.begun,
    h.aborted, fun _ => rfl, fun hend => ⟨hshut, ?_⟩, h.tail, h.stopped,
    fun _ _ => ⟨hhand, Nat.le_antisymm h.pos_le hpos⟩⟩
  · show b.collected ++ b.sub.queue.shutdown.buffered = b.sub.received
    rw [Queue.shutdown_buffered, h.taken]
  · show b.sub.queue.shutdown.buffered = []
    rw [Queue.shutdown_buffered]
    exact (h.ended hend).2

/-- What is in hand is lost if the queue is closed. -/
theorem offer {v : A} (h : BranchBooks full m items sent left past c b)
    (hv : b.sub.inHand = some v) :
    BranchBooks full m items sent left past c (b.setSub (b.sub.put v)) := by
  have horder := h.order
  have htail := h.tail
  rw [hv] at horder htail
  obtain ⟨hqueue, hcase⟩ := h.queue.offer v
  obtain ⟨hstored, hopen, hbuf, hopen'⟩ | ⟨hrefused, hclosed, hsame⟩ := hcase
  · have hreceived : (b.sub.put v).received = b.sub.received ++ [v] := if_pos hstored
    refine ⟨h.published, h.pos_le, ?_, ?_, hqueue, h.attached, h.begun, h.aborted, fun hcl => ?_,
      fun hend => ?_, fun hfull => ?_, h.stopped, fun _ hcl => ?_⟩
    · show ((b.sub.put v).received ++ []).Sublist _
      rw [hreceived, List.append_nil]
      exact horder
    · show b.collected ++ (b.sub.queue.offer v).2.buffered = (b.sub.put v).received
      rw [hreceived, hbuf, ← h.taken, List.append_assoc]
    · exact absurd (hopen'.symm.trans hcl) (by simp)
    · exact absurd (hopen.symm.trans (h.ended hend).1) (by simp)
    · show _ <:+ (b.sub.put v).received ++ []
      rw [hreceived, List.append_nil]
      exact htail hfull
    · exact absurd (hopen'.symm.trans hcl) (by simp)
  · have hreceived : (b.sub.put v).received = b.sub.received := if_neg (by simp [hrefused])
    have hnot : full ≠ true := by
      intro hfull
      have hhand := (h.drained hfull hclosed).1
      rw [hv] at hhand
      cases hhand
    refine ⟨h.published, h.pos_le, ?_, ?_, hqueue, h.attached, h.begun, h.aborted,
      fun _ => h.shut hclosed, fun hend => ⟨?_, ?_⟩, fun hfull => absurd hfull hnot,
      fun hfull => absurd hfull hnot, fun hfull => absurd hfull hnot⟩
    · show ((b.sub.put v).received ++ []).Sublist _
      rw [hreceived, List.append_nil]
      exact (List.sublist_append_left _ _).trans horder
    · show b.collected ++ (b.sub.queue.offer v).2.buffered = (b.sub.put v).received
      rw [hreceived, hsame, h.taken]
    · show (b.sub.queue.offer v).2.closed = true
      rw [hsame, hclosed]
    · show (b.sub.queue.offer v).2.buffered = []
      rw [hsame]
      exact (h.ended hend).2

/-- The receiver of a branch goes away, after the last element was published. -/
theorem detach {n : Option ℕ} (h : BranchBooks full m items sent left true c b) :
    BranchBooks full m items sent left true { c with stop := n } b :=
  { h with attached := nofun }

theorem collect {a : A} {q : Queue A} (h : BranchBooks full m items sent left past c b)
    (hend : b.ended = false) (hq : b.sub.queue.recv = some (.ok a, q)) :
    BranchBooks full m items sent left past c (b.collect a q) := by
  have hclosed : q.closed = b.sub.queue.closed := Queue.recv_closed hq
  refine ⟨h.published, h.pos_le, h.order, ?_, h.queue.recv hq, h.attached, h.begun, h.aborted,
    fun hcl => h.shut (hclosed ▸ hcl), fun hend' => ?_, h.tail, h.stopped,
    fun hfull hcl => h.drained hfull (hclosed ▸ hcl)⟩
  · have htaken := h.taken
    rw [Queue.recv_ok hq] at htaken
    show (b.collected ++ [a]) ++ q.buffered = b.sub.received
    rw [List.append_assoc, List.singleton_append, htaken]
  · exact absurd (hend.symm.trans hend') (by simp)

theorem beginClose (h : BranchBooks full m items sent left true c b) :
    BranchBooks full m items sent left true c b.beginClose := by
  unfold Branch.beginClose
  split
  · refine { h with begun := fun _ => rfl, stopped := ?_ }
    rintro - (hst | hst) <;> cases hst
  · exact h

theorem finish {e : QueueError} {q : Queue A} (h : BranchBooks full m items sent left past c b)
    (hq : b.sub.queue.recv = some (.error e, q)) :
    BranchBooks full m items sent left past c b.finish := by
  obtain ⟨-, hempty, hclosed⟩ := Queue.recv_error hq
  obtain rfl : past = true := h.shut hclosed
  have hend : BranchBooks full m items sent left true c { b with ended := true } :=
    { h with ended := fun _ => ⟨hclosed, hempty⟩ }
  exact hend.beginClose

theorem abort (h : BranchBooks full m items sent left true c b)
    (hpos : full = true → c.pos = sent.length) :
    BranchBooks full m items sent left true c b.abort := by
  have hsub : b.abort.sub.received = b.sub.received ∧ b.abort.sub.inHand = b.sub.inHand
      ∧ b.abort.sub.queue = b.sub.queue := by
    unfold Branch.abort
    cases hhand : b.sub.inHand with
    | none => exact ⟨rfl, hhand, rfl⟩
    | some v => exact ⟨rfl, hhand, rfl⟩
  obtain ⟨hreceived, hhand, hqueue⟩ := hsub
  refine ⟨h.published, h.pos_le, ?_, ?_, ?_, nofun, fun _ => rfl, fun _ => rfl, fun _ => rfl, ?_,
    ?_, fun hfull _ => hpos hfull, ?_⟩
  · rw [hreceived, hhand]
    exact h.order
  · rw [hreceived, hqueue]
    exact h.taken
  · rw [hqueue]
    exact h.queue
  · rw [hqueue]
    exact h.ended
  · rw [hreceived, hhand]
    exact h.tail
  · rw [hhand, hqueue]
    exact h.drained

theorem shutDown (h : BranchBooks full m items sent left past c b) (hst : b.stage = .aborted)
    (hhand : full = true → b.sub.inHand = none) :
    BranchBooks full m items sent left past c b.shut := by
  have hover : past = true := h.begun (by rw [hst]; nofun)
  have hshut : b.sub.queue.shutdown.closed = true := Queue.shutdown_closed _
  refine ⟨h.published, h.pos_le, h.order, ?_, h.queue.shutdown, h.attached, fun _ => hover,
    fun _ => hover, fun _ => hover, fun hend => ⟨hshut, ?_⟩, h.tail,
    fun hfull _ => h.stopped hfull (.inl hst),
    fun hfull _ => ⟨hhand hfull, h.stopped hfull (.inl hst)⟩⟩
  · show b.collected ++ b.sub.queue.shutdown.buffered = b.sub.received
    rw [Queue.shutdown_buffered, h.taken]
  · show b.sub.queue.shutdown.buffered = []
    rw [Queue.shutdown_buffered]
    exact (h.ended hend).2

theorem laws (full : Bool) (m : ℕ) (items : List A) : Laws (BranchBooks full m items) where
  attached h := h.attached rfl
  begun h := h.begun
  aborted h := h.aborted
  publish h := h.publish
  over_true h := h.over_true
  beginClose h := h.beginClose
  recv h hhand _ := h.recv hhand
  closed h := h.closed
  offer h := h.offer
  offerLast h hv := { (h.offer hv).detach with }
  detach h := h.detach
  collect h := h.collect
  finish h := h.finish

end BranchBooks

/-! ## The broadcast -/

theorem books_step {full : Bool} {m : ℕ} {items : List A} {s s' : Fanout.Sys A} {l : Label}
    (h : Books (BranchBooks full m items) s) (hg : full = true → Spares m s l)
    (hstep : Step s l s') : Books (BranchBooks full m items) s' := by
  refine h.step (BranchBooks.laws full m items) hstep ?_ ?_ ?_
  · rintro r c rfl hc hdrop hlag hok
    exact hok.lag (by omega) (Nat.sub_le _ _) fun hfull => hg hfull hdrop c hc hlag
  · rintro r c rfl hc hdrop hst hok
    exact hok.abort fun hfull => (hg hfull hdrop).1 hst c hc
  · rintro r c rfl hc hdrop hst hok
    exact hok.shutDown hst fun hfull => (hg hfull hdrop).2 hst

/-! ## The replay buffer -/

section Replay

variable {replay ring cap branches : ℕ} {items : List A} {ls : List Label} {s s' : Sys A}
  {l : Label}

theorem init_eq (ring cap branches : ℕ) (items : List A) :
    Sys.init ring cap branches items = ⟨.init ring cap branches items, [], fun _ => []⟩ := by
  rw [Sys.init]
  generalize List.range branches = rs
  induction rs with
  | nil => rfl
  | cons r rs ih =>
      have hnone : Function.update (fun _ : ℕ => ([] : List A)) r [] = fun _ => [] :=
        Function.update_eq_self r _
      rw [List.foldl_cons, Sys.makeBranch, hnone, ih]

/-- With nothing buffered, the system does what the broadcast does. -/
theorem step_fanout (hempty : s.buffered = fun _ => []) (h : s.step replay l = some s') :
    s.fanout.step l = some s'.fanout ∧ s'.buffered = fun _ => [] := by
  cases l with
  | pump =>
      simp only [Sys.step, Sys.stepPump] at h
      split at h
      · obtain ⟨f, hf, rfl⟩ := Option.map_eq_some_iff.1 h
        exact ⟨hf, hempty⟩
      · obtain ⟨f, hf, rfl⟩ := Option.map_eq_some_iff.1 h
        exact ⟨hf, hempty⟩
  | pull r =>
      simp only [Sys.step, Sys.stepPull, hempty] at h
      split at h
      · next hr =>
          obtain ⟨f, hf, rfl⟩ := Option.map_eq_some_iff.1 h
          exact ⟨(if_pos hr).trans hf, rfl⟩
      · cases h
  | recv r | offer r | drop r | closer r =>
      obtain ⟨f, hf, rfl⟩ := Option.map_eq_some_iff.1 h
      exact ⟨hf, hempty⟩

theorem popFront_eq (replay : ℕ) (buf : List A) :
    popFront replay buf = buf.drop (buf.length - replay) := by
  induction buf with
  | nil => simp [popFront]
  | cons a buf ih =>
      rw [popFront]
      split
      · next hlt =>
          rw [List.length_cons] at hlt ⊢
          rw [ih, show buf.length + 1 - replay = (buf.length - replay) + 1 by omega,
            List.drop_succ_cons]
      · next hle =>
          rw [show (a :: buf).length - replay = 0 by omega, List.drop_zero]

/-- Retaining goes on from what is retained. -/
theorem retain_eq (replay : ℕ) (done : List A) (a : A) :
    retain replay (done.drop (done.length - replay)) a
      = (done ++ [a]).drop ((done ++ [a]).length - replay) := by
  rw [retain, popFront_eq, ← List.drop_append_of_le_length (Nat.sub_le _ _), List.drop_drop,
    List.length_drop]
  congr 1
  simp only [List.length_append, List.length_singleton]
  omega

/-- Only the pump publishes. -/
theorem Step.left_eq {s s' : Fanout.Sys A} (h : Step s l s') (hl : l ≠ .pump) :
    s'.pump.left = s.pump.left := by
  cases h with
  | publish | shutdown | advance | beginClose => exact absurd rfl hl
  | recv | lag | closed | offer | offerLast | collect | finish | drop | abort | abortDrop | shut =>
      rfl

/-- The shared buffer changes with what is left to publish. -/
theorem step_retained (hempty : s.buffered = fun _ => []) (h : s.step replay l = some s') :
    (∃ v, s.fanout.pump.left = v :: s'.fanout.pump.left
        ∧ s'.replayBuf = retain replay s.replayBuf v)
      ∨ s'.fanout.pump.left = s.fanout.pump.left ∧ s'.replayBuf = s.replayBuf := by
  have hstep : Step s.fanout l s'.fanout := .of_step (step_fanout hempty h).1
  cases l with
  | pump =>
      simp only [Sys.step, Sys.stepPump] at h
      split at h
      · next v rest hp =>
          obtain ⟨f, hf, rfl⟩ := Option.map_eq_some_iff.1 h
          simp only [Fanout.Sys.stepPump, hp, Option.some.injEq] at hf
          subst hf
          exact .inl ⟨v, congrArg Pump.left hp, rfl⟩
      · next hp =>
          obtain ⟨f, hf, rfl⟩ := Option.map_eq_some_iff.1 h
          refine .inr ⟨?_, rfl⟩
          cases hstep with
          | publish hpub => exact absurd hpub (hp _ _)
          | shutdown hpub => simp only [hpub]; rfl
          | advance hover hover' | beginClose hover hover' =>
              exact (Pump.left_eq_nil hover').trans (Pump.left_eq_nil hover).symm
  | pull r =>
      refine .inr ⟨Step.left_eq hstep nofun, ?_⟩
      simp only [Sys.step, Sys.stepPull, hempty] at h
      split at h
      · obtain ⟨f, hf, rfl⟩ := Option.map_eq_some_iff.1 h
        rfl
      · cases h
  | recv r | offer r | drop r | closer r =>
      refine .inr ⟨Step.left_eq hstep nofun, ?_⟩
      obtain ⟨f, hf, rfl⟩ := Option.map_eq_some_iff.1 h
      rfl

/-- The shared buffer holds the last `replay` elements of what has been published, and no branch has
    any of them. -/
theorem tail_never_served
    (h : run (Sys.step replay) (Sys.init ring cap branches items) ls = some s) :
    s.buffered = (fun _ => []) ∧ ∃ done, done ++ s.fanout.pump.left = items
      ∧ s.replayBuf = done.drop (done.length - replay) := by
  refine run_invariant (I := fun s : Sys A => s.buffered = (fun _ => []) ∧
    ∃ done, done ++ s.fanout.pump.left = items ∧ s.replayBuf = done.drop (done.length - replay))
    ?_ ?_ h
  · rintro s l s' ⟨hempty, done, hdone, hbuf⟩ hstep
    refine ⟨(step_fanout hempty hstep).2, ?_⟩
    obtain ⟨v, hleft, hretain⟩ | ⟨hleft, hsame⟩ := step_retained hempty hstep
    · refine ⟨done ++ [v], ?_, ?_⟩
      · rw [List.append_assoc, List.singleton_append, ← hleft, hdone]
      · rw [hretain, hbuf, retain_eq]
    · exact ⟨done, hleft ▸ hdone, hsame.trans hbuf⟩
  · rw [init_eq]
    exact ⟨rfl, [], rfl, List.drop_nil.symm⟩

/-! ## Every run -/

/-- **Replay.** In every run that spares the tail, each branch that is pulled to its end collects a
    subsequence of the upstream that ends with the last `replay` elements. -/
theorem replay_keeps_tail {A : Type} (ring cap replay branches : ℕ) (items : List A)
    (ls : List Label) (s : Sys A)
    (hg : Along (Sys.step replay) (Sys.SparesTail replay items)
      (Sys.init ring cap branches items) ls)
    (h : run (Sys.step replay) (Sys.init ring cap branches items) ls = some s) :
    s.Replays replay items := by
  let m := tailStart replay items
  have hinit : (Sys.init ring cap branches items).buffered = (fun _ => [])
      ∧ Books (BranchBooks (decide (m < items.length)) m items)
        (Sys.init ring cap branches items).fanout := by
    rw [init_eq]
    exact ⟨rfl, Fanout.books_init branches ring cap (.new _ m items)⟩
  have hinv := run_invariant_along
    (I := fun s : Sys A => s.buffered = (fun _ => [])
      ∧ Books (BranchBooks (decide (m < items.length)) m items) s.fanout)
    (fun s l s' hs hspare hstep => by
      obtain ⟨hfan, hempty⟩ := step_fanout hs.1 hstep
      exact ⟨hempty, books_step hs.2 (fun hfull => hspare (of_decide_eq_true hfull))
        (.of_step hfan)⟩)
    hinit hg h
  intro r hend
  obtain ⟨hr, hdropped⟩ := hinv.2.pulled r hend
  have hbooks := hinv.2.books r _ (List.getElem?_eq_getElem hr) hdropped
  refine ⟨hbooks.sublist, ?_⟩
  by_cases hm : m < items.length
  · rw [decide_eq_true hm] at hbooks
    exact hbooks.suffix Pump.left_eq_nil hend
  · have hnil : items.drop (tailStart replay items) = [] :=
      List.drop_eq_nil_of_le (Nat.le_of_not_lt hm)
    rw [hnil]
    exact List.nil_suffix

/-- The forwarder lags behind the first element only. -/
theorem replay_keeps_tail_after_lag : ∃ s : Sys ℕ,
    run (Sys.step 2) (Sys.init 2 2 1 [7, 8, 9]) [.pump, .pump, .pump, .recv 0, .recv 0, .offer 0,
      .recv 0, .offer 0, .pump, .pump, .pump, .closer 0, .closer 0, .pull 0, .pull 0, .pull 0]
        = some s ∧
    (s.fanout.branches 0).ended = true ∧ s.Replays 2 [7, 8, 9] := by
  have hrun : ∃ s, run (Sys.step 2) (Sys.init 2 2 1 [7, 8, 9]) [.pump, .pump, .pump, .recv 0,
      .recv 0, .offer 0, .recv 0, .offer 0, .pump, .pump, .pump, .closer 0, .closer 0, .pull 0,
      .pull 0, .pull 0] = some s ∧ (s.fanout.branches 0).ended = true := exists_run _ (by decide)
  obtain ⟨s, hs, hend⟩ := hrun
  exact ⟨s, hs, hend, replay_keeps_tail 2 2 2 1 [7, 8, 9] _ s (by decide) hs⟩

end Replay

end IdEffect.Replay
