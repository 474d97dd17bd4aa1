import IdEffect.Lib.Interleave
import IdEffect.Lib.Transition
import IdEffect.Coordination.Channel
import IdEffect.Streaming.QueueChannel

set_option autoImplicit false

/-! # Channels over a queue

Writers offer mapped elements, one reader after the other takes them. What is read of such a channel
is settled by its `Outlet` alone: every element that is not evicted is expanded and then mapped, in
the order of the writes (`Books`). So all expansions of a chain of combinators go before all its
maps, however the two are mixed (`chain_delivers`). `pipe` takes the map of its left channel over
and forgets the expansion, so a pipe is the one channel after the other exactly if the left channel
expands nothing (`pipe_composes_iff`). -/

namespace IdEffect.Channel

open Transition

variable {Out Out2 In In2 : Type}

/-! ## The channel -/

/-- A `ChannelState::Queue`, without its cells. -/
structure Duplex (Out In : Type) where
  mapIn : In → Out
  outlet : Outlet Out

namespace Duplex

/-- `Channel::from_queue_and_map` -/
def fromQueueAndMap (mapIn : In → Out) : Duplex Out In := ⟨mapIn, .new⟩

/-- `Channel::map_in` -/
def thenMapIn (ch : Duplex Out In) (f : In2 → In) : Duplex Out In2 :=
  { ch with mapIn := fun i => ch.mapIn (f i) }

def mapOut (ch : Duplex Out In) (f : Out → Out) : Duplex Out In :=
  { ch with outlet := ch.outlet.mapOut f }

/-- `Channel::flat_map_out` -/
def thenFlatMapOut (ch : Duplex Out In) (f : Out → List Out) : Duplex Out In :=
  { ch with outlet := ch.outlet.thenFlatMapOut f }

/-- `Channel::pipe`: the queue, `pending` and the outlet are those of the right channel. -/
def pipe (left : Duplex Out In) (right : Duplex Out2 Out) : Duplex Out2 In where
  mapIn := fun i => right.mapIn (left.outlet.postRead (left.mapIn i))
  outlet := right.outlet

/-- What is handed out for a value that is written, in all. -/
def outputs (ch : Duplex Out In) (v : In) : List Out := ch.outlet.outputs (ch.mapIn v)

end Duplex

/-! ## Runs -/

/-- The cells of a channel. The last three fields are an observer's: the values that were written,
    the elements that were evicted, and what the reads have returned. -/
structure Cells (Out In : Type) where
  q : Queue Out
  pending : List Out
  written : List In
  evicted : List Out
  delivered : List Out

def Cells.new (q : Queue Out) : Cells Out In := ⟨q, [], [], [], []⟩

/-- Everything has been read. -/
def Cells.drained (s : Cells Out In) : Prop := s.pending = [] ∧ s.q.buffered = []

/-- A round of the loop of a write or of a read, or a shutdown of the queue. -/
inductive Label (In : Type) where
  | write (v : In)
  | read
  | shutdown

/-- A write that is refused tries again, a read that gets no output goes on. Only the reader touches
    `pending`, so a whole round of its loop is one step. -/
def Duplex.step (ch : Duplex Out In) (s : Cells Out In) : Label In → Option (Cells Out In)
  | .write v =>
      match s.q.offer (ch.mapIn v) with
      | (true, q) => some
          { s with
            q := q
            written := s.written ++ [v]
            evicted := s.evicted ++ s.q.evicted (ch.mapIn v) }
      | (false, q) => some { s with q := q }
  | .read =>
      match s.pending with
      | x :: pending => some
          { s with pending := pending, delivered := s.delivered ++ [ch.outlet.postRead x] }
      | [] =>
          match s.q.recv with
          | none => none
          | some (.ok wire, q) =>
              match ch.outlet.expand wire with
              | [] => some { s with q := q }
              | first :: buf => some
                  { s with
                    q := q
                    pending := buf
                    delivered := s.delivered ++ [ch.outlet.postRead first] }
          | some (.error .disconnected, q) => some { s with q := q }
  | .shutdown => some { s with q := s.q.shutdown }

/-! ## The books -/

/-- The written elements are those in the queue and those that have left it; the latter were taken
    or evicted; and what was taken was delivered or is pending, expanded and mapped. -/
structure Books (ch : Duplex Out In) (mode : Mode) (s : Cells Out In) : Prop where
  backend : s.q.backend = (mode.make : Queue Out).backend
  kept : ∃ taken gone, s.written.map ch.mapIn = gone ++ s.q.buffered ∧
    Interleaves taken s.evicted gone ∧
    s.delivered ++ s.pending.map ch.outlet.postRead = taken.flatMap ch.outlet.outputs
  flume : s.q.backend.isSome → s.evicted = []

variable {ch : Duplex Out In} {mode : Mode} {s s' : Cells Out In} {l : Label In}

theorem Books.new (ch : Duplex Out In) (mode : Mode) :
    Books ch mode (Cells.new mode.make : Cells Out In) where
  backend := rfl
  kept := ⟨[], [], by rw [Cells.new, mode.make_buffered]; rfl, .nil, rfl⟩
  flume := fun _ => rfl

theorem Books.write (hs : Books ch mode s) {v : In} {q : Queue Out}
    (hoffer : s.q.offer (ch.mapIn v) = (true, q)) :
    Books ch mode { s with
      q := q
      written := s.written ++ [v]
      evicted := s.evicted ++ s.q.evicted (ch.mapIn v) } where
  backend := by
    rw [← hs.backend, ← Queue.backend_offer s.q (ch.mapIn v), hoffer]
  kept := by
    obtain ⟨taken, gone, hwritten, hgone, hdelivered⟩ := hs.kept
    refine ⟨taken, gone ++ s.q.evicted (ch.mapIn v), ?_, ?_, hdelivered⟩
    · rw [List.map_append, hwritten, List.append_assoc, List.append_assoc,
        (Queue.offer_accepted hoffer).1]
      rfl
    · simpa using hgone.append (Interleaves.nil_left (s.q.evicted (ch.mapIn v)))
  flume := by
    intro hsome
    have hbackend := Queue.backend_offer s.q (ch.mapIn v)
    rw [hoffer] at hbackend
    rw [hbackend] at hsome
    cases hq : s.q with
    | fromFlume f => exact List.append_eq_nil_iff.2 ⟨hs.flume hsome, rfl⟩
    | fromSliding _ =>
        rw [hq] at hsome
        cases hsome

/-- An element is taken, and some of its outputs may be handed out at once. -/
theorem Books.take (hs : Books ch mode s) {wire : Out} {q : Queue Out} (handed pending : List Out)
    (hpending : s.pending = []) (hrecv : s.q.recv = some (.ok wire, q))
    (hexpand : ch.outlet.expand wire = handed ++ pending) :
    Books ch mode { s with
      q := q
      pending := pending
      delivered := s.delivered ++ handed.map ch.outlet.postRead } where
  backend := (Queue.backend_recv hrecv).trans hs.backend
  kept := by
    obtain ⟨taken, gone, hwritten, hgone, hdelivered⟩ := hs.kept
    refine ⟨taken ++ [wire], gone ++ [wire], ?_, ?_, ?_⟩
    · rw [hwritten, Queue.recv_ok hrecv, List.append_assoc]
      rfl
    · simpa using hgone.append (Interleaves.nil_left [wire]).symm
    · rw [hpending, List.map_nil, List.append_nil] at hdelivered
      rw [List.append_assoc, ← List.map_append, ← hexpand, hdelivered, List.flatMap_append,
        List.flatMap_singleton]
      rfl
  flume := fun hsome => hs.flume (Queue.backend_recv hrecv ▸ hsome)

theorem Books.step (hs : Books ch mode s) (h : ch.step s l = some s') : Books ch mode s' := by
  cases l with
  | write v =>
      simp only [Duplex.step] at h
      cases hoffer : s.q.offer (ch.mapIn v) with
      | mk accepted q =>
          cases accepted with
          | true =>
              simp only [hoffer, Option.some.injEq] at h
              exact h ▸ hs.write hoffer
          | false =>
              simp only [hoffer, Option.some.injEq] at h
              rw [← h, Queue.offer_refused hoffer]
              exact hs
  | read =>
      simp only [Duplex.step] at h
      split at h
      · next x pending hpending =>
          obtain rfl := Option.some.inj h
          obtain ⟨taken, gone, hwritten, hgone, hdelivered⟩ := hs.kept
          refine ⟨hs.backend, ⟨taken, gone, hwritten, hgone, ?_⟩, hs.flume⟩
          rw [← hdelivered, hpending, List.append_assoc]
          rfl
      · next hpending =>
          split at h
          · cases h
          · next wire q hrecv =>
              split at h
              · next hexpand =>
                  obtain rfl := Option.some.inj h
                  have htake := hs.take [] [] hpending hrecv hexpand
                  rw [List.map_nil, List.append_nil, ← hpending] at htake
                  exact htake
              · next first buf hexpand =>
                  obtain rfl := Option.some.inj h
                  exact hs.take [first] buf hpending hrecv hexpand
          · next q hrecv =>
              obtain rfl := Option.some.inj h
              obtain ⟨rfl, -, -⟩ := Queue.recv_error hrecv
              exact hs
  | shutdown =>
      obtain rfl := Option.some.inj h
      obtain ⟨taken, gone, hwritten, hgone, hdelivered⟩ := hs.kept
      have hbackend := Queue.backend_shutdown s.q
      refine ⟨hbackend.trans hs.backend,
        ⟨taken, gone, by rw [hwritten, Queue.shutdown_buffered], hgone, hdelivered⟩, ?_⟩
      exact fun hsome => hs.flume (hbackend ▸ hsome)

/-- What the reads have returned, when the outlet makes `f` of an element: the outputs of the
    written elements that were not evicted, in order, and all of them once everything is read. -/
structure Delivers (mapIn : In → Out) (f : Out → List Out) (s : Cells Out In) : Prop where
  kept : ∃ kept, Interleaves kept s.evicted (s.written.map mapIn) ∧
    s.delivered <+: kept.flatMap f ∧ (s.drained → s.delivered = kept.flatMap f)

theorem Books.delivers (hs : Books ch mode s) : Delivers ch.mapIn ch.outlet.outputs s := by
  obtain ⟨taken, gone, hwritten, hgone, hdelivered⟩ := hs.kept
  refine ⟨taken ++ s.q.buffered, ?_, ?_, ?_⟩
  · rw [hwritten]
    simpa using hgone.append (Interleaves.nil_left s.q.buffered).symm
  · rw [List.flatMap_append, ← hdelivered, List.append_assoc]
    exact List.prefix_append _ _
  · rintro ⟨hpending, hbuf⟩
    rw [hbuf, List.append_nil, ← hdelivered, hpending, List.map_nil, List.append_nil]

theorem Books.of_run {ls : List (Label In)}
    (hrun : run ch.step (Cells.new mode.make) ls = some s) : Books ch mode s :=
  run_invariant (fun _ _ _ hs h => Books.step hs h) (.new ch mode) hrun

/-! ## Chains of combinators -/

inductive Combinator (Out : Type) where
  | mapOut (g : Out → Out)
  | flatMapOut (f : Out → List Out)

namespace Combinator

def apply : Combinator Out → Outlet Out → Outlet Out
  | .mapOut g, o => o.mapOut g
  | .flatMapOut f, o => o.thenFlatMapOut f

def expands : Combinator Out → Bool
  | .mapOut _ => false
  | .flatMapOut _ => true

/-- Push an element through combinators in their order. -/
def push : List (Combinator Out) → Out → List Out
  | [], x => [x]
  | .mapOut g :: ops, x => push ops (g x)
  | .flatMapOut f :: ops, x => (f x).flatMap (push ops)

/-- The order in which a channel applies them: the expansions, then the maps. -/
def expansionsFirst (ops : List (Combinator Out)) : List (Combinator Out) :=
  ops.filter expands ++ ops.filter fun op => !op.expands

theorem push_append (ops ops' : List (Combinator Out)) (x : Out) :
    push (ops ++ ops') x = (push ops x).flatMap (push ops') := by
  induction ops generalizing x with
  | nil => simp [push]
  | cons op ops ih =>
      cases op with
      | mapOut g => exact ih (g x)
      | flatMapOut f =>
          simp only [List.cons_append, push, List.flatMap_assoc]
          exact congrArg (List.flatMap · (f x)) (funext ih)

end Combinator

open Combinator

/-- The combinators are applied one after the other. -/
def Outlet.chain (o : Outlet Out) (ops : List (Combinator Out)) : Outlet Out :=
  ops.foldl (fun o op => op.apply o) o

/-- By induction on the chain: the expansions collect in front of the maps. -/
theorem Outlet.outputs_chain (ops : List (Combinator Out)) (o : Outlet Out) (x : Out) :
    (o.chain ops).outputs x =
      ((o.expand x).flatMap (push (ops.filter expands))).flatMap fun y =>
        push (ops.filter fun op => !op.expands) (o.postRead y) := by
  induction ops generalizing o with
  | nil =>
      simp only [chain, outputs, List.foldl_nil, List.filter_nil, push, List.flatMap_singleton']
      exact List.map_eq_flatMap
  | cons op ops ih =>
      have hchain : o.chain (op :: ops) = (op.apply o).chain ops := rfl
      rw [hchain, ih]
      cases op with
      | mapOut g => rfl
      | flatMapOut f =>
          have hexpand : ((o.expand x).flatMap f).flatMap (push (ops.filter expands)) =
              (o.expand x).flatMap (push ((.flatMapOut f :: ops).filter expands)) :=
            List.flatMap_assoc
          exact congrArg (List.flatMap _) hexpand

/-- Of a new channel, all expansions are applied before all maps. -/
theorem Outlet.outputs_chain_new (ops : List (Combinator Out)) (x : Out) :
    (Outlet.new.chain ops).outputs x = push (expansionsFirst ops) x := by
  rw [outputs_chain, expand_new, List.flatMap_singleton, expansionsFirst, push_append]
  rfl

/-- **What a chain of combinators delivers.** In any run of a channel over a new queue of any mode,
    the reads return, in the order of the writes, the outputs of the mapped values that were not
    evicted, where the expansions of the chain are applied before its maps; once everything is read
    nothing is missing. Only a sliding queue evicts. -/
theorem chain_delivers (mapIn : In → Out) (ops : List (Combinator Out)) (mode : Mode)
    {ls : List (Label In)} {s : Cells Out In}
    (hrun : run (Duplex.step ⟨mapIn, Outlet.new.chain ops⟩) (Cells.new mode.make) ls = some s) :
    Delivers mapIn (push (expansionsFirst ops)) s ∧
      ((∀ c, mode ≠ .sliding c) → s.evicted = []) := by
  have hbooks := Books.of_run hrun
  have houtputs : (Outlet.new.chain ops).outputs = push (expansionsFirst ops) :=
    funext (Outlet.outputs_chain_new ops)
  refine ⟨houtputs ▸ hbooks.delivers, fun hmode => hbooks.flume ?_⟩
  rw [hbooks.backend]
  cases mode with
  | sliding c => exact absurd rfl (hmode c)
  | bounded _ | unbounded | dropping _ => rfl

/-- A map, and then an expansion: the expansion is applied to the element as it was written. -/
theorem chain_delivers_mapped : ∃ s : Cells ℕ ℕ,
    run (Duplex.step ⟨id, Outlet.new.chain [.mapOut (· + 1), .flatMapOut fun x => [x, x * 10]]⟩)
        (Cells.new Mode.unbounded.make) [.write 1, .read, .read] = some s ∧
      s.delivered = [2, 11] ∧
      Delivers id
        (push (expansionsFirst [.mapOut (· + 1), .flatMapOut fun x => [x, x * 10]])) s := by
  obtain ⟨s, hrun, hs⟩ := exists_run Cells.delivered
    (show (run (Duplex.step
        ⟨id, Outlet.new.chain [.mapOut (· + 1), .flatMapOut fun x => [x, x * 10]]⟩)
      (Cells.new Mode.unbounded.make) [.write 1, .read, .read]).map _ = some [2, 11] by rfl)
  exact ⟨s, hrun, hs, (chain_delivers _ _ _ hrun).1⟩

/-- `map_out(g).flat_map_out(f)` does not deliver `f(g(x))`. -/
theorem chain_not_in_order :
    ¬ ∀ (mapIn : ℕ → ℕ) (ops : List (Combinator ℕ)) (mode : Mode) (ls : List (Label ℕ))
      (s : Cells ℕ ℕ),
      run (Duplex.step ⟨mapIn, Outlet.new.chain ops⟩) (Cells.new mode.make) ls = some s →
      s.drained → s.delivered = (s.written.map mapIn).flatMap (push ops) := by
  intro hall
  obtain ⟨s, hrun, hs⟩ := exists_run
    (fun s : Cells ℕ ℕ => (s.pending, s.q.buffered, s.written, s.delivered))
    (show (run (Duplex.step
        ⟨id, Outlet.new.chain [.mapOut (· + 1), .flatMapOut fun x => [x * 10]]⟩)
      (Cells.new Mode.unbounded.make) [.write 1, .read]).map _ = some ([], [], [1], [11]) by rfl)
  simp only [Prod.mk.injEq] at hs
  obtain ⟨hpending, hbuf, hwritten, hdelivered⟩ := hs
  have hread := hall _ _ _ _ s hrun ⟨hpending, hbuf⟩
  rw [hwritten, hdelivered] at hread
  exact absurd hread (by decide)

/-! ## Pipes -/

/-- The values are written to the channel over a new queue, none of their elements is evicted, and
    reading until everything is read gives `out`. -/
def Reads (ch : Duplex Out In) (mode : Mode) (vs : List In) (out : List Out) : Prop :=
  ∃ ls s, run ch.step (Cells.new mode.make) ls = some s ∧ s.written = vs ∧ s.evicted = [] ∧
    s.drained ∧ s.delivered = out

/-- What is read is determined. -/
theorem Reads.eq {vs : List In} {out : List Out} (h : Reads ch mode vs out) :
    out = vs.flatMap ch.outputs := by
  obtain ⟨ls, s, hrun, rfl, hevicted, hdrained, rfl⟩ := h
  obtain ⟨kept, hkept, -, hall⟩ := (Books.of_run hrun).delivers.kept
  rw [hevicted] at hkept
  rw [hall hdrained, ← hkept.eq_of_nil_right, List.flatMap_map]
  rfl

/-- Everything can be read: what is pending, and then, by induction, what is in the queue. -/
theorem exists_drained (s : Cells Out In) : ∃ ls s', run ch.step s ls = some s' ∧
    s'.drained ∧ s'.written = s.written ∧ s'.evicted = s.evicted := by
  have hpop : ∀ {s : Cells Out In} {x : Out} {pending : List Out}, s.pending = x :: pending →
      ch.step s .read = some { s with
        pending := pending
        delivered := s.delivered ++ [ch.outlet.postRead x] } := by
    intro s x pending hpending
    simp only [Duplex.step, hpending]
  induction hbuf : s.q.buffered generalizing s with
  | nil =>
      induction hpending : s.pending generalizing s with
      | nil => exact ⟨[], s, rfl, ⟨hpending, hbuf⟩, rfl, rfl⟩
      | cons x pending ih => exact exists_run_cons (hpop hpending) (ih _ hbuf rfl)
  | cons v buf ih =>
      induction hpending : s.pending generalizing s with
      | cons x pending ih' => exact exists_run_cons (hpop hpending) (ih' _ hbuf rfl)
      | nil =>
          obtain ⟨q, hrecv, hq⟩ := Queue.recv_of_buffered hbuf
          cases hexpand : ch.outlet.expand v with
          | nil =>
              have hstep : ch.step s .read = some { s with q := q } := by
                simp only [Duplex.step, hpending, hrecv, hexpand]
              exact exists_run_cons hstep (ih _ hq)
          | cons first rest =>
              have hstep : ch.step s .read = some { s with
                  q := q
                  pending := rest
                  delivered := s.delivered ++ [ch.outlet.postRead first] } := by
                simp only [Duplex.step, hpending, hrecv, hexpand]
              exact exists_run_cons hstep (ih _ hq)

/-- An open unbounded queue takes everything. -/
theorem exists_written (ch : Duplex Out In) (vs : List In) {s : Cells Out In} {buf : List Out}
    (hq : s.q = .fromFlume ⟨.unbounded, none, buf, true, false⟩) :
    ∃ ls s', run ch.step s ls = some s' ∧ s'.drained ∧ s'.written = s.written ++ vs ∧
      s'.evicted = s.evicted := by
  induction vs generalizing s buf with
  | nil =>
      rw [List.append_nil]
      exact exists_drained s
  | cons v vs ih =>
      let next : Cells Out In := { s with
        q := .fromFlume ⟨.unbounded, none, buf ++ [ch.mapIn v], true, false⟩
        written := s.written ++ [v]
        evicted := s.evicted ++ [] }
      have hstep : ch.step s (.write v) = some next := by
        rw [Duplex.step, hq]
        rfl
      obtain ⟨ls, s', hrun, hdrained, hwritten, hevicted⟩ := ih (s := next) rfl
      refine exists_run_cons hstep ⟨ls, s', hrun, hdrained, ?_, ?_⟩
      · rw [hwritten, List.append_assoc]
        rfl
      · exact hevicted.trans (List.append_nil s.evicted)

theorem exists_reads (ch : Duplex Out In) (vs : List In) :
    Reads ch .unbounded vs (vs.flatMap ch.outputs) := by
  obtain ⟨ls, s, hrun, hdrained, hwritten, hevicted⟩ :=
    exists_written ch vs (s := Cells.new Mode.unbounded.make) rfl
  have hreads : Reads ch .unbounded vs s.delivered :=
    ⟨ls, s, hrun, hwritten, hevicted, hdrained, rfl⟩
  exact hreads.eq ▸ hreads

/-- Reading the pipe gives what reading the left channel and then the right one gives, when the
    queues evict nothing. -/
def PipeComposes (left : Duplex Out In) (right : Duplex Out2 Out) : Prop :=
  ∀ (modeLeft modeRight modePipe : Mode) (vs : List In) (outLeft : List Out)
    (outRight outPipe : List Out2),
    Reads left modeLeft vs outLeft → Reads right modeRight outLeft outRight →
      Reads (left.pipe right) modePipe vs outPipe → outPipe = outRight

/-- What the left channel makes of a value, as far as the pipe uses it. -/
def Duplex.mapped (ch : Duplex Out In) (v : In) : Out := ch.outlet.postRead (ch.mapIn v)

theorem outputs_pipe (left : Duplex Out In) (right : Duplex Out2 Out) (v : In) :
    (left.pipe right).outputs v = right.outputs (left.mapped v) := rfl

theorem pipeComposes_iff (left : Duplex Out In) (right : Duplex Out2 Out) :
    PipeComposes left right ↔
      ∀ v, right.outputs (left.mapped v) = (left.outputs v).flatMap right.outputs := by
  constructor
  · intro h v
    have heq := h _ _ _ _ _ _ _ (exists_reads left [v]) (exists_reads right _)
      (exists_reads (left.pipe right) [v])
    rwa [List.flatMap_singleton, List.flatMap_singleton, outputs_pipe] at heq
  · intro h _ _ _ vs outLeft outRight outPipe hleft hright hpipe
    rw [hpipe.eq, hright.eq, hleft.eq, List.flatMap_assoc]
    exact congrArg (List.flatMap · vs) (funext h)

/-- **When a pipe composes.** With every right channel, exactly if the left one makes one output of
    each value, the one that its maps give without an expansion; with a given right channel, exactly
    if that one makes the same of all outputs as of this one. -/
theorem pipe_composes_iff (left : Duplex Out In) :
    ((∀ (Out2 : Type) (right : Duplex Out2 Out), PipeComposes left right) ↔
        ∀ v, left.outputs v = [left.mapped v]) ∧
      ∀ (Out2 : Type) (right : Duplex Out2 Out), PipeComposes left right ↔
        ∀ v, right.outputs (left.mapped v) = (left.outputs v).flatMap right.outputs := by
  refine ⟨⟨fun h v => ?_, fun h Out2 right => ?_⟩, fun _ right => pipeComposes_iff left right⟩
  · -- A right channel that does nothing shows all outputs of the left one.
    have hshown := (pipeComposes_iff left (.fromQueueAndMap id)).1 (h Out _) v
    have hsame : (Duplex.fromQueueAndMap id : Duplex Out Out).outputs = fun y => [y] := rfl
    rw [hsame, List.flatMap_singleton'] at hshown
    exact hshown.symm
  · refine (pipeComposes_iff left right).2 fun v => ?_
    rw [h v, List.flatMap_singleton]

/-- The left channel makes two outputs of a value, the pipe one. -/
theorem pipe_forgets_expansion :
    ¬ ∀ left right : Duplex ℕ ℕ, PipeComposes left right := by
  intro hall
  have heq := (pipeComposes_iff _ _).1
    (hall ((Duplex.fromQueueAndMap id).thenFlatMapOut fun x => [x, x + 100])
      (Duplex.fromQueueAndMap id)) 1
  exact absurd heq (by decide)

end IdEffect.Channel
