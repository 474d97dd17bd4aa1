import IdEffect.Coordination.ChannelPipe

set_option autoImplicit false

/-! # Writers of a channel after a shutdown

A write offers its element until it is accepted. `offer` answers `false` when the queue is full and
also when it is shut down, and the loops make no difference: after a shutdown they go on for ever,
whatever the receivers do. Of the writers of a channel, only a sink driver whose stream has no more
elements returns then (`returns_iff`). -/

namespace IdEffect.Channel

open Transition

variable {S In Out E : Type}

/-! ## The loops -/

/-- A call that writes to the queue: a write in its loop, or the driver of a sink, which is about to
    poll its stream, or goes through a chunk, or is in the loop of one of its elements. -/
inductive Writer (S In Out : Type) where
  | writing (out : Out)
  | polling (stream : S)
  | draining (items : List In) (stream : S)
  | offering (out : Out) (items : List In) (stream : S)
  | returned

/-- `Channel::write` and `QueueChannel::write` -/
def Duplex.write (ch : Duplex Out In) (v : In) : Writer S In Out := .writing (ch.mapIn v)

/-- The driver of `Channel::to_sink`. -/
def Duplex.toSink (_ch : Duplex Out In) (stream : S) : Writer S In Out := .polling stream

/-- The next step of a writer. -/
def Duplex.next (ch : Duplex Out In) (p : Pull S In E) :
    Writer S In Out → Queue Out → Writer S In Out × Queue Out
  | .writing out, q =>
      match q.offer out with
      | (true, q) => (.returned, q)
      | (false, q) => (.writing out, q)
  | .polling stream, q =>
      match p.poll stream with
      | (.ok none, _) => (.returned, q)
      | (.ok (some chunk), stream) => (.draining chunk stream, q)
      | (.error _, _) => (.returned, q)
  | .draining [] stream, q => (.polling stream, q)
  | .draining (x :: items) stream, q => (.offering (ch.mapIn x) items stream, q)
  | .offering out items stream, q =>
      match q.offer out with
      | (true, q) => (.draining items stream, q)
      | (false, q) => (.offering out items stream, q)
  | .returned, q => (.returned, q)

/-- A writer and the queue it writes to. -/
structure Writing (S In Out : Type) where
  q : Queue Out
  writer : Writer S In Out

/-- A step of the writer, or an operation of anybody else. -/
inductive Access (Out : Type) where
  | own
  | offer (v : Out)
  | recv
  | shutdown

def Access.isOwn : Access Out → Bool
  | .own => true
  | .offer _ | .recv | .shutdown => false

def Duplex.access (ch : Duplex Out In) (p : Pull S In E) (s : Writing S In Out) :
    Access Out → Option (Writing S In Out)
  | .own => some ⟨(ch.next p s.writer s.q).2, (ch.next p s.writer s.q).1⟩
  | .offer v => some { s with q := (s.q.offer v).2 }
  | .recv => s.q.recv.map fun r => { s with q := r.2 }
  | .shutdown => some { s with q := s.q.shutdown }

/-- The writer returns after finitely many steps of its own, whatever happens in between. -/
def Returns (ch : Duplex Out In) (p : Pull S In E) (s : Writing S In Out) : Prop :=
  ∃ n, ∀ ls s', run (ch.access p) s ls = some s' → n ≤ ls.countP Access.isOwn →
    s'.writer = .returned

/-- An element of the stream comes before its end, and before an error. -/
def HasElem (p : Pull S In E) (stream : S) : Prop := ∃ wire, (pullWire p stream).1 = .ok (some wire)

/-- There is something left to write. -/
def HasMore (p : Pull S In E) : Writer S In Out → Prop
  | .writing _ | .offering _ _ _ => True
  | .polling stream => HasElem p stream
  | .draining items stream => items ≠ [] ∨ HasElem p stream
  | .returned => False

/-! ## After a shutdown -/

variable {ch : Duplex Out In} {p : Pull S In E} {s s' : Writing S In Out}

theorem offer_of_closed {q : Queue Out} (hclosed : q.closed = true) (v : Out) :
    q.offer v = (false, q) := by
  cases hoffer : q.offer v with
  | mk accepted q' =>
      cases accepted with
      | true =>
          rw [(Queue.offer_accepted hoffer).2] at hclosed
          cases hclosed
      | false => rw [Queue.offer_refused hoffer]

theorem hasElem_of_poll {stream stream' : S} {chunk : List In}
    (h : p.poll stream = (.ok (some chunk), stream')) :
    HasElem p stream ↔ chunk ≠ [] ∨ HasElem p stream' := by
  cases chunk with
  | nil => simp [HasElem, pullWire_of_nil h]
  | cons x items => simp [HasElem, pullWire_of_cons h]

theorem not_hasElem_of_end {stream stream' : S} {r : Except E (Option (List In))}
    (h : p.poll stream = (r, stream')) (hend : ∀ chunk, r ≠ .ok (some chunk)) :
    ¬ HasElem p stream := by
  rintro ⟨wire, hwire⟩
  have hne : ∀ {chunk : List In} {stream'' : S},
      p.poll stream ≠ (.ok (some chunk), stream'') := by
    intro chunk stream'' hpoll
    rw [h] at hpoll
    exact hend chunk (congrArg Prod.fst hpoll)
  rw [pullWire] at hwire
  split at hwire
  · cases hwire
  · next hpoll => exact hne hpoll
  · next hpoll => exact hne hpoll
  · cases hwire

/-- A step of the writer does not get it on: there is as much to write as before. -/
theorem next_of_closed (ch : Duplex Out In) (p : Pull S In E) {q : Queue Out}
    (hclosed : q.closed = true) (w : Writer S In Out) :
    (ch.next p w q).2 = q ∧ (HasMore p (ch.next p w q).1 ↔ HasMore p w) := by
  cases w with
  | writing out => simp [Duplex.next, offer_of_closed hclosed]
  | offering out items stream => simp [Duplex.next, offer_of_closed hclosed]
  | returned => exact ⟨rfl, .rfl⟩
  | draining items stream =>
      cases items with
      | nil => simp [Duplex.next, HasMore]
      | cons x items => simp [Duplex.next, HasMore]
  | polling stream =>
      rw [Duplex.next]
      split
      · next stream' hpoll =>
          exact ⟨rfl, iff_of_false id (not_hasElem_of_end hpoll (by simp))⟩
      · next chunk stream' hpoll => exact ⟨rfl, (hasElem_of_poll hpoll).symm⟩
      · next e stream' hpoll =>
          exact ⟨rfl, iff_of_false id (not_hasElem_of_end hpoll (by simp))⟩

theorem access_of_closed (hclosed : s.q.closed = true) {l : Access Out}
    (h : ch.access p s l = some s') :
    s'.q.closed = true ∧ (HasMore p s'.writer ↔ HasMore p s.writer) := by
  cases l with
  | own =>
      obtain rfl := Option.some.inj h
      obtain ⟨hq, hmore⟩ := next_of_closed ch p hclosed s.writer
      exact ⟨hq.symm ▸ hclosed, hmore⟩
  | offer v =>
      obtain rfl := Option.some.inj h
      rw [offer_of_closed hclosed]
      exact ⟨hclosed, .rfl⟩
  | shutdown =>
      obtain rfl := Option.some.inj h
      exact ⟨Queue.shutdown_closed s.q, .rfl⟩
  | recv =>
      obtain ⟨⟨r, q⟩, hrecv, rfl⟩ := Option.map_eq_some_iff.1 h
      refine ⟨?_, .rfl⟩
      cases r with
      | ok v => exact (Queue.recv_closed hrecv).trans hclosed
      | error e => exact (Queue.recv_error hrecv).1 ▸ hclosed

/-- What a writer with nothing to write still has to do. -/
def Writer.work (p : Pull S In E) : Writer S In Out → ℕ
  | .polling stream => 2 * p.size stream + 1
  | .draining _ stream => 2 * p.size stream + 2
  | .writing _ | .offering _ _ _ | .returned => 0

theorem work_next {q : Queue Out} {w : Writer S In Out} (hmore : ¬ HasMore p w)
    (hw : w ≠ .returned) : (ch.next p w q).1.work p < w.work p := by
  cases w with
  | writing out => exact absurd trivial hmore
  | offering out items stream => exact absurd trivial hmore
  | returned => exact absurd rfl hw
  | draining items stream =>
      cases items with
      | nil => simp [Duplex.next, Writer.work]
      | cons x items => exact absurd (.inl (List.cons_ne_nil x items)) hmore
  | polling stream =>
      rw [Duplex.next]
      split
      · simp [Writer.work]
      · next chunk stream' hpoll =>
          have hlt := p.size_lt hpoll
          simp only [Writer.work]
          omega
      · simp [Writer.work]

theorem access_returned {l : Access Out} (hdone : s.writer = .returned)
    (h : ch.access p s l = some s') : s'.writer = .returned := by
  cases l with
  | own =>
      obtain rfl := Option.some.inj h
      simp only [hdone, Duplex.next]
  | offer _ | shutdown =>
      obtain rfl := Option.some.inj h
      exact hdone
  | recv =>
      obtain ⟨r, -, rfl⟩ := Option.map_eq_some_iff.1 h
      exact hdone

theorem access_work {l : Access Out} (hmore : ¬ HasMore p s.writer) (hne : s.writer ≠ .returned)
    (h : ch.access p s l = some s') :
    s'.writer = .returned ∨
      s'.writer.work p + (if l.isOwn then 1 else 0) ≤ s.writer.work p := by
  cases l with
  | own =>
      obtain rfl := Option.some.inj h
      exact .inr (work_next hmore hne)
  | offer _ | shutdown =>
      obtain rfl := Option.some.inj h
      exact .inr (Nat.le_refl _)
  | recv =>
      obtain ⟨r, -, rfl⟩ := Option.map_eq_some_iff.1 h
      exact .inr (Nat.le_refl _)

theorem exists_own_run (ch : Duplex Out In) (p : Pull S In E) (n : ℕ) (s : Writing S In Out) :
    ∃ s', run (ch.access p) s (List.replicate n .own) = some s' := by
  induction n generalizing s with
  | zero => exact ⟨s, rfl⟩
  | succ n ih =>
      obtain ⟨s', hrun⟩ := ih ⟨(ch.next p s.writer s.q).2, (ch.next p s.writer s.q).1⟩
      exact ⟨s', run_cons_eq_some.2 ⟨_, rfl, hrun⟩⟩

/-- After any number of steps of its own, a writer has as much to write as before. -/
theorem not_returns (hclosed : s.q.closed = true) (hmore : HasMore p s.writer) :
    ¬ Returns ch p s := by
  rintro ⟨n, hreturns⟩
  obtain ⟨s', hrun⟩ := exists_own_run ch p n s
  have hstill : s'.q.closed = true ∧ HasMore p s'.writer :=
    run_invariant (I := fun s : Writing S In Out => s.q.closed = true ∧ HasMore p s.writer)
      (fun s l s' hs h => ⟨(access_of_closed hs.1 h).1, (access_of_closed hs.1 h).2.2 hs.2⟩)
      ⟨hclosed, hmore⟩ hrun
  have hdone := hreturns _ s' hrun (by simp [List.countP_replicate, Access.isOwn])
  rw [hdone] at hstill
  exact hstill.2

/-- **Which writers return after a shutdown.** In any state that a writer and its queue, of any
    mode, can come to, once the queue is shut down: the writer returns, whatever the receivers and
    other writers do, exactly if it has nothing left to write. A write in its loop has; the driver
    of a sink has if an element of a chunk is left or the stream delivers another one. -/
theorem returns_iff {mode : Mode} {w : Writer S In Out} {ls : List (Access Out)}
    (_hreached : run (ch.access p) ⟨mode.make, w⟩ ls = some s) (hclosed : s.q.closed = true) :
    Returns ch p s ↔ ¬ HasMore p s.writer := by
  constructor
  · exact fun hreturns hmore => not_returns hclosed hmore hreturns
  · intro hmore
    refine ⟨s.writer.work p + 1, fun ls s' hrun hcount => ?_⟩
    have hvariant := run_variant (c := Access.isOwn)
      (I := fun s : Writing S In Out => s.q.closed = true ∧ ¬ HasMore p s.writer)
      (P := fun s => s.writer = .returned) (μ := fun s => s.writer.work p)
      (fun s l s' hs _ h => ⟨(access_of_closed hs.1 h).1, mt (access_of_closed hs.1 h).2.1 hs.2⟩)
      (fun s l s' _ hs h => access_returned hs h) (fun s l s' hs _ hne h => access_work hs.2 hne h)
      ⟨hclosed, hmore⟩ (along_true _ _ ls) hrun
    rcases hvariant with hdone | hle
    · exact hdone
    · omega

/-- A sink driver whose stream has ended returns. -/
theorem returns_iff_ended :
    Returns (.fromQueueAndMap id) (Streaming.Stream.pull ℕ Unit)
      ⟨Mode.unbounded.make.shutdown, .polling .exhausted⟩ := by
  have hrun : run ((Duplex.fromQueueAndMap id).access (Streaming.Stream.pull ℕ Unit))
      ⟨Mode.unbounded.make, Duplex.toSink (.fromQueueAndMap id) .exhausted⟩ [.shutdown] =
        some ⟨Mode.unbounded.make.shutdown, .polling .exhausted⟩ := rfl
  refine (returns_iff hrun rfl).2 ?_
  have hend : (Streaming.Stream.pull ℕ Unit).poll .exhausted = (.ok none, .exhausted) := rfl
  exact not_hasElem_of_end hend (by simp)

/-- A write does not return after a shutdown. -/
theorem write_spins_after_shutdown :
    ¬ ∀ (ch : Duplex ℕ ℕ) (mode : Mode) (v : ℕ) (ls : List (Access ℕ))
      (s : Writing (Streaming.Stream ℕ Unit) ℕ ℕ),
      run (ch.access (Streaming.Stream.pull ℕ Unit)) ⟨mode.make, ch.write v⟩ ls = some s →
      s.q.closed = true → Returns ch (Streaming.Stream.pull ℕ Unit) s := by
  intro hall
  have hreturns := hall (.fromQueueAndMap id) .unbounded 1 [.shutdown] _ rfl rfl
  exact absurd hreturns (not_returns rfl trivial)

end IdEffect.Channel
