import Mathlib.Logic.Function.Basic
import IdEffect.Lib.Transition
import IdEffect.Lib.Ledger
import IdEffect.Coordination.Queue

set_option autoImplicit false

/-! # Runs of a queue

Any number of calls share a queue. Producers' elements go in one at a time; a receiving call takes
them out one at a time, by the blocking or the non-blocking receive its loop asks for, and returns
what it has collected. Two ghost fields keep the books: what was accepted with the positions of what
was evicted, and what was taken, with the call that took it.

The batch receives return early on `Disconnected`, and drop what they have collected so far. Hence
elements are conserved in a run exactly if no call that holds elements asks for more from a queue
that is shut down and drained (`conserves_iff_keeps`); `take_all` on a shut down queue with
anything in it is enough to lose elements (`takeAll_loses_elements`). -/

namespace IdEffect.QueueRuns

open Transition Ledger

variable {Tid A : Type} [DecidableEq Tid]

/-! ## The receiving loops -/

/-- The receiving operations of `Queue`. -/
inductive Receive where
  | take
  | takeAll
  | takeUpTo (n : ℕ)
  | takeN (n : ℕ)
  | takeBetween (min max : ℕ)
  | poll
deriving DecidableEq

/-- What a receiving loop does next: wait for an element, look for one, or return. -/
inductive Next where
  | recv
  | tryRecv
  | finish
deriving DecidableEq

/-- The next move of a receiving call that holds `k` elements. -/
def Receive.next : Receive → ℕ → Next
  | .take, k => if k = 0 then .recv else .finish
  | .takeAll, k => if k = 0 then .recv else .tryRecv
  | .takeUpTo n, k =>
      if n = 0 then .finish
      else if k = 0 then .recv
      else if k < n then .tryRecv else .finish
  | .takeN n, k =>
      if n = 0 then .finish
      else if k < n then .recv else .finish
  | .takeBetween min max, k =>
      if max < min then .finish
      else if min = 0 ∧ max = 0 then .finish
      else if k < min then .recv
      else if k < max then .tryRecv else .finish
  | .poll, k => if k = 0 then .tryRecv else .finish

/-! ## Calls and steps -/

/-- A call on the queue: a receive with the elements it holds, or an `offer_all` with the elements
    still to offer and those that came back. -/
inductive Call (A : Type) where
  | idle
  | receiving (r : Receive) (out : List A)
  | received (out : List A)
  | disconnected
  | offering (rest left : List A)
  | offered (left : List A)
deriving DecidableEq

structure Sys (Tid A : Type) where
  queue : Queue A
  calls : Tid → Call A
  accepted : List A
  evicted : List ℕ
  taken : List (Tid × A)

inductive Label (Tid A : Type) where
  | offer (v : A)
  | offerAll (t : Tid) (vs : List A)
  | receive (t : Tid) (r : Receive)
  | step (t : Tid)
  | shutdown

namespace Sys

def init (q : Queue A) : Sys Tid A := ⟨q, fun _ => .idle, [], [], []⟩

def setCall (s : Sys Tid A) (t : Tid) (c : Call A) : Sys Tid A :=
  { s with calls := Function.update s.calls t c }

/-- Enter an offered element into the books: if it was stored, it is accepted, and the buffer's
    oldest elements that had to make room for it are evicted. -/
def record (s : Sys Tid A) (v : A) (stored : Bool) (q : Queue A) : Sys Tid A :=
  if stored then
    { s with
      queue := q
      accepted := s.accepted ++ [v]
      evicted := s.evicted ++ List.range' (s.accepted.length - s.queue.buffered.length)
        (s.queue.buffered.length + 1 - q.buffered.length) }
  else { s with queue := q }

/-- An element leaves the queue for the call `t`. -/
def takeOut (s : Sys Tid A) (t : Tid) (r : Receive) (out : List A) (v : A) (q : Queue A) :
    Sys Tid A :=
  { s with
    queue := q
    calls := Function.update s.calls t (.receiving r (out ++ [v]))
    taken := s.taken ++ [(t, v)] }

/-- One step of a receiving call. -/
def stepReceive (s : Sys Tid A) (t : Tid) (r : Receive) (out : List A) : Option (Sys Tid A) :=
  match r.next out.length with
  | .finish => some (s.setCall t (.received out))
  | .recv =>
      match s.queue.recv with
      | none => none
      | some (.ok v, q) => some (s.takeOut t r out v q)
      | some (.error _, q) => some ({ s with queue := q }.setCall t .disconnected)
  | .tryRecv =>
      match s.queue.tryRecv with
      | (.ok (some v), q) => some (s.takeOut t r out v q)
      | (.ok none, q) => some ({ s with queue := q }.setCall t (.received out))
      | (.error _, q) => some ({ s with queue := q }.setCall t .disconnected)

def step (s : Sys Tid A) : Label Tid A → Option (Sys Tid A)
  | .offer v => some (s.record v (s.queue.offer v).1 (s.queue.offer v).2)
  | .offerAll t vs =>
      match s.calls t with
      | .idle => some (s.setCall t (.offering vs []))
      | _ => none
  | .receive t r =>
      match s.calls t with
      | .idle => some (s.setCall t (.receiving r []))
      | _ => none
  | .step t =>
      match s.calls t with
      | .receiving r out => s.stepReceive t r out
      | .offering [] left => some (s.setCall t (.offered left))
      | .offering (v :: rest) left =>
          -- `offer_or_retain` stores the element exactly if `offer` would
          let s' := s.record v (s.queue.offer v).1 (s.queue.offerOrRetain v).2
          match (s.queue.offerOrRetain v).1 with
          | .ok () => some (s'.setCall t (.offering rest left))
          | .error w => some (s'.setCall t (.offering rest (left ++ [w])))
      | _ => none
  | .shutdown => some { s with queue := s.queue.shutdown }

/-! ## The promise -/

/-- The call has returned `Err(Disconnected)`. -/
def failed (s : Sys Tid A) (t : Tid) : Bool :=
  match s.calls t with
  | .disconnected => true
  | _ => false

/-- The elements handed to receivers, in the order they left the queue: those that left it for a
    call which has not thrown them away. For receives that do not overlap this is the concatenation
    of what they return. -/
def handed (s : Sys Tid A) : List A :=
  (s.taken.filter (fun x => !s.failed x.1)).map Prod.snd

/-- The elements that left the queue for the call `t`. -/
def takenBy (s : Sys Tid A) (t : Tid) : List A :=
  (s.taken.filter (fun x => x.1 = t)).map Prod.snd

/-- What is handed out, followed by what is still buffered, is what was accepted minus what was
    evicted; a call holds or has returned exactly what it took; only sliding queues evict. -/
structure Conserves (s : Sys Tid A) : Prop where
  order : s.handed ++ s.queue.buffered = survivors s.evicted 0 s.accepted
  results : ∀ t out, (s.calls t = .received out ∨ ∃ r, s.calls t = .receiving r out) →
    s.takenBy t = out
  evictions : ∀ f, s.queue = .fromFlume f → s.evicted = []

/-- A receiving call that holds elements asks for another one only from a queue that has one or is
    still open. -/
def keeps (s : Sys Tid A) : Label Tid A → Bool
  | .step t =>
      match s.calls t with
      | .receiving r out =>
          out.isEmpty || r.next out.length == .finish || !s.queue.closed ||
            !s.queue.buffered.isEmpty
      | _ => true
  | _ => true

end Sys

/-- Every run of a queue of this mode conserves its elements. -/
def ModeConserves (Tid A : Type) [DecidableEq Tid] (mode : Mode) : Prop :=
  ∀ (ls : List (Label Tid A)) (s : Sys Tid A),
    run Sys.step (Sys.init mode.make) ls = some s → s.Conserves

/-- **A shut down queue loses elements.** An element is stored, the queue is shut down, and a
    `take_all` takes the element out, finds the queue drained and returns an error. -/
theorem takeAll_loses_elements : ¬ ModeConserves ℕ ℕ (.bounded 4) := by
  intro h
  obtain ⟨s, hrun, hs⟩ := exists_run
    (fun s : Sys ℕ ℕ => (s.handed ++ s.queue.buffered, survivors s.evicted 0 s.accepted))
    (show (run Sys.step (Sys.init (Mode.bounded 4).make)
        [.offer 7, .shutdown, .receive 0 .takeAll, .step 0, .step 0]).map _ = some ([], [7]) by
      decide)
  rw [Prod.mk.injEq, (h _ s hrun).order] at hs
  exact absurd (hs.1.symm.trans hs.2) (by decide)

/-! ## One step -/

variable {s s' : Sys Tid A} {l : Label Tid A}

/-- The elements a call holds, or has returned. -/
def Call.out : Call A → List A
  | .receiving _ out | .received out => out
  | _ => []

/-- What a step of the system can do, as seen by the books. -/
inductive Step (s : Sys Tid A) : Label Tid A → Sys Tid A → Prop
  | offer (v : A) : Step s (.offer v) (s.record v (s.queue.offer v).1 (s.queue.offer v).2)
  | enter {l : Label Tid A} {t : Tid} {c : Call A} (h : s.calls t = .idle)
      (hl : ∀ u, l ≠ .step u) (hout : c.out = []) (hc : c ≠ .disconnected) :
      Step s l (s.setCall t c)
  | offerNext {t : Tid} {v : A} {rest left left' : List A}
      (h : s.calls t = .offering (v :: rest) left) :
      Step s (.step t)
        ((s.record v (s.queue.offer v).1 (s.queue.offer v).2).setCall t (.offering rest left'))
  | offered {t : Tid} {left : List A} (h : s.calls t = .offering [] left) :
      Step s (.step t) (s.setCall t (.offered left))
  | take {t : Tid} {r : Receive} {out : List A} {v : A} {q : Queue A}
      (h : s.calls t = .receiving r out) (hq : s.queue.recv = some (.ok v, q)) :
      Step s (.step t) (s.takeOut t r out v q)
  | return {t : Tid} {r : Receive} {out : List A} (h : s.calls t = .receiving r out)
      (hopen : r.next out.length = .finish ∨ s.queue.recv = none) :
      Step s (.step t) (s.setCall t (.received out))
  | disconnect {t : Tid} {r : Receive} {out : List A} {e : QueueError}
      (h : s.calls t = .receiving r out) (hn : r.next out.length ≠ .finish)
      (hq : s.queue.recv = some (.error e, s.queue)) :
      Step s (.step t) (s.setCall t .disconnected)
  | shutdown : Step s .shutdown { s with queue := s.queue.shutdown }

theorem Step.of_stepReceive {t : Tid} {r : Receive} {out : List A}
    (hc : s.calls t = .receiving r out) (h : s.stepReceive t r out = some s') :
    Step s (.step t) s' := by
  have hdisc : ∀ {e : QueueError} {q : Queue A}, r.next out.length ≠ .finish →
      s.queue.recv = some (.error e, q) →
      Step s (.step t) ({ s with queue := q }.setCall t .disconnected) := by
    intro e q hn hq
    obtain ⟨rfl, -, -⟩ := Queue.recv_error hq
    exact .disconnect hc hn hq
  simp only [Sys.stepReceive] at h
  cases hn : r.next out.length with
  | finish =>
      rw [hn] at h
      obtain rfl := Option.some.inj h
      exact .return hc (Or.inl hn)
  | recv =>
      simp only [hn] at h
      split at h
      · cases h
      · next v q hq => exact Option.some.inj h ▸ .take hc hq
      · next e q hq => exact Option.some.inj h ▸ hdisc (by simp [hn]) hq
  | tryRecv =>
      simp only [hn, Queue.tryRecv_eq] at h
      cases hq : s.queue.recv with
      | none =>
          simp only [hq, Option.some.injEq] at h
          exact h ▸ .return hc (Or.inr hq)
      | some res =>
          obtain ⟨v | v, q⟩ := res
          · simp only [hq, Option.some.injEq] at h
            exact h ▸ hdisc (by simp [hn]) hq
          · simp only [hq, Option.some.injEq] at h
            exact h ▸ .take hc hq

theorem Step.of_step (h : s.step l = some s') : Step s l s' := by
  cases l with
  | offer v => exact Option.some.inj h ▸ .offer v
  | shutdown => exact Option.some.inj h ▸ .shutdown
  | offerAll t vs =>
      simp only [Sys.step] at h
      split at h
      · next hc => exact Option.some.inj h ▸ .enter hc (by simp) rfl (by simp)
      · cases h
  | receive t r =>
      simp only [Sys.step] at h
      split at h
      · next hc => exact Option.some.inj h ▸ .enter hc (by simp) rfl (by simp)
      · cases h
  | step t =>
      simp only [Sys.step, Queue.offerOrRetain_snd] at h
      split at h
      · next r out hc => exact .of_stepReceive hc h
      · next left hc => exact Option.some.inj h ▸ .offered hc
      · next v rest left hc =>
          split at h
          · exact Option.some.inj h ▸ .offerNext hc
          · exact Option.some.inj h ▸ .offerNext hc
      · cases h

/-! ## The books balance

What holds in every reachable state, whether or not elements were thrown away: the elements that
left the queue, for whatever call, and the buffer make up what was accepted and not evicted. -/

omit [DecidableEq Tid] in
@[simp] theorem record_calls (v : A) (stored : Bool) (q : Queue A) :
    (s.record v stored q).calls = s.calls := by
  unfold Sys.record
  split <;> rfl

omit [DecidableEq Tid] in
@[simp] theorem record_taken (v : A) (stored : Bool) (q : Queue A) :
    (s.record v stored q).taken = s.taken := by
  unfold Sys.record
  split <;> rfl

@[simp] theorem record_takenBy (v : A) (stored : Bool) (q : Queue A) (u : Tid) :
    (s.record v stored q).takenBy u = s.takenBy u := by
  unfold Sys.takenBy
  rw [record_taken]

@[simp] theorem setCall_takenBy (t u : Tid) (c : Call A) :
    (s.setCall t c).takenBy u = s.takenBy u := rfl

theorem setCall_calls (t u : Tid) (c : Call A) :
    (s.setCall t c).calls u = if u = t then c else s.calls u := by
  simp only [Sys.setCall, Function.update_apply]

theorem takeOut_takenBy (t u : Tid) (r : Receive) (out : List A) (v : A) (q : Queue A) :
    (s.takeOut t r out v q).takenBy u = s.takenBy u ++ if u = t then [v] else [] := by
  have htail : ([(t, v)].filter fun x => decide (x.1 = u)).map Prod.snd
      = if u = t then [v] else [] := by
    by_cases h : u = t
    · simp [h]
    · simp [h, Ne.symm h]
  simp only [Sys.takenBy, Sys.takeOut, List.filter_append, List.map_append, htail]

theorem takeOut_calls (t u : Tid) (r : Receive) (out : List A) (v : A) (q : Queue A) :
    (s.takeOut t r out v q).calls u = if u = t then .receiving r (out ++ [v]) else s.calls u := by
  simp only [Sys.takeOut, Function.update_apply]

/-- The invariant of all runs. -/
structure Inv (s : Sys Tid A) : Prop where
  balanced : Balanced s.accepted s.evicted (s.taken.map Prod.snd) s.queue.buffered
  outs : ∀ t, s.calls t ≠ .disconnected → s.takenBy t = (s.calls t).out
  evictions : ∀ f, s.queue = .fromFlume f → s.evicted = []

theorem inv_init (mode : Mode) : Inv (Sys.init mode.make : Sys Tid A) where
  balanced := by
    show Balanced [] [] [] (mode.make : Queue A).buffered
    rw [mode.make_buffered]
    exact balanced_nil
  outs := fun _ _ => rfl
  evictions := fun _ _ => rfl

/-- The queue keeps its backend. -/
theorem offer_eq_fromFlume {q : Queue A} {v : A} {f' : FlumeShared A}
    (h : (q.offer v).2 = .fromFlume f') : ∃ f, q = .fromFlume f := by
  cases q with
  | fromFlume f => exact ⟨f, rfl⟩
  | fromSliding s => simp [Queue.offer] at h

theorem recv_eq_fromFlume {q q' : Queue A} {v : A} {f' : FlumeShared A}
    (hq : q.recv = some (.ok v, q')) (h : q' = .fromFlume f') : ∃ f, q = .fromFlume f := by
  cases q with
  | fromFlume f => exact ⟨f, rfl⟩
  | fromSliding s =>
      subst h
      obtain ⟨r, -, hr⟩ := Option.map_eq_some_iff.1 hq
      simp at hr

omit [DecidableEq Tid] in
/-- An offered element is entered correctly. -/
theorem record_balanced (v : A)
    (h : Balanced s.accepted s.evicted (s.taken.map Prod.snd) s.queue.buffered) :
    Balanced (s.record v (s.queue.offer v).1 (s.queue.offer v).2).accepted
      (s.record v (s.queue.offer v).1 (s.queue.offer v).2).evicted
      (s.taken.map Prod.snd)
      (s.record v (s.queue.offer v).1 (s.queue.offer v).2).queue.buffered := by
  rcases s.queue.offer_spec v with ⟨hstored, k, hk, hbuf⟩ | ⟨hrefused, hsame⟩
  · have hlen : (s.queue.offer v).2.buffered.length = s.queue.buffered.length + 1 - k := by
      rw [hbuf, List.length_drop, List.length_append, List.length_singleton]
    have hevicted : s.queue.buffered.length + 1 - (s.queue.offer v).2.buffered.length = k := by
      rw [List.length_append, List.length_singleton] at hk
      omega
    have hfront : (s.accepted ++ [v]).length - (s.queue.buffered ++ [v]).length
        = s.accepted.length - s.queue.buffered.length := by
      simp only [List.length_append, List.length_singleton]
      omega
    have hnew := (h.accept v).evict k hk
    rw [hfront, ← hbuf] at hnew
    simpa only [Sys.record, hstored, if_true, hevicted] using hnew
  · simpa [Sys.record, hrefused, hsame] using h

omit [DecidableEq Tid] in
theorem record_evictions (v : A) (h : ∀ f, s.queue = .fromFlume f → s.evicted = []) :
    ∀ f', (s.record v (s.queue.offer v).1 (s.queue.offer v).2).queue = .fromFlume f' →
      (s.record v (s.queue.offer v).1 (s.queue.offer v).2).evicted = [] := by
  intro f' hf'
  have hq : (s.queue.offer v).2 = .fromFlume f' := by
    unfold Sys.record at hf'
    split at hf' <;> exact hf'
  obtain ⟨f, hf⟩ := offer_eq_fromFlume hq
  unfold Sys.record
  split
  · next hstored =>
      -- the buffer grew by the one element, so the range of evicted positions is empty
      have hbuf := Queue.flume_offer_buffered f v (hf ▸ hstored)
      simp [hf, hbuf, h f hf]
  · exact h f hf

/-- A step that leaves the books alone and gives one call a new state. -/
theorem Inv.setCall (hs : Inv s) {t : Tid} {c : Call A}
    (hout : c ≠ .disconnected → s.takenBy t = c.out) : Inv (s.setCall t c) where
  balanced := hs.balanced
  evictions := hs.evictions
  outs := by
    intro u hu
    rw [setCall_takenBy]
    rw [setCall_calls] at hu ⊢
    by_cases h : u = t
    · simp only [if_pos h] at hu ⊢
      exact h ▸ hout hu
    · simp only [if_neg h] at hu ⊢
      exact hs.outs u hu

theorem Inv.record (hs : Inv s) (v : A) :
    Inv (s.record v (s.queue.offer v).1 (s.queue.offer v).2) where
  balanced := by
    rw [record_taken]
    exact record_balanced v hs.balanced
  evictions := record_evictions v hs.evictions
  outs := by simpa using hs.outs

/-- **Every step keeps the books.** -/
theorem Inv.step (hs : Inv s) (h : Step s l s') : Inv s' := by
  cases h with
  | offer v => exact hs.record v
  | enter h hl hout hc =>
      exact hs.setCall fun _ => by rw [hs.outs _ (by simp [h]), h, hout]; rfl
  | offerNext h =>
      exact (hs.record _).setCall fun _ => by
        rw [record_takenBy, hs.outs _ (by simp [h]), h]
        rfl
  | offered h => exact hs.setCall fun _ => by rw [hs.outs _ (by simp [h]), h]; rfl
  | @take t r out v q h hq =>
      have hbuf := Queue.recv_ok hq
      refine ⟨?_, ?_, ?_⟩
      · have hnew := (hbuf ▸ hs.balanced).take
        simpa [Sys.takeOut] using hnew
      · intro u hu
        rw [takeOut_takenBy]
        rw [takeOut_calls] at hu ⊢
        by_cases hut : u = t
        · subst hut
          have hheld : s.takenBy u = out := by rw [hs.outs u (by simp [h]), h]; rfl
          simp [hheld, Call.out]
        · simp only [if_neg hut] at hu ⊢
          simpa using hs.outs u hu
      · intro f hf
        obtain ⟨f₀, hf₀⟩ := recv_eq_fromFlume hq hf
        exact hs.evictions f₀ hf₀
  | «return» h hopen => exact hs.setCall fun _ => by rw [hs.outs _ (by simp [h]), h]; rfl
  | disconnect h hn hq => exact hs.setCall fun hne => absurd rfl hne
  | shutdown =>
      refine ⟨by simpa using hs.balanced, hs.outs, ?_⟩
      intro f hf
      cases hq : s.queue with
      | fromFlume f₀ => exact hs.evictions f₀ hq
      | fromSliding s₀ => simp [hq, Queue.shutdown] at hf

/-! ## When elements are conserved -/

/-- No call that failed had taken anything. -/
def NoDiscard (s : Sys Tid A) : Prop :=
  ∀ t, s.calls t = .disconnected → s.takenBy t = []

omit [DecidableEq Tid] in
theorem failed_iff (t : Tid) : s.failed t = true ↔ s.calls t = .disconnected := by
  unfold Sys.failed
  split <;> simp_all

theorem takenBy_eq_nil (t : Tid) : s.takenBy t = [] ↔ ∀ x ∈ s.taken, x.1 ≠ t := by
  simp [Sys.takenBy, List.filter_eq_nil_iff]

/-- Since the books balance, elements are conserved exactly if nothing was thrown away. -/
theorem Inv.conserves_iff (hs : Inv s) : s.Conserves ↔ NoDiscard s := by
  constructor
  · intro hc t ht
    have hall : s.handed = s.taken.map Prod.snd :=
      List.append_cancel_right (hc.order.trans hs.balanced.kept.symm)
    have hlen := congrArg List.length hall
    rw [Sys.handed, List.length_map, List.length_map, List.length_filter_eq_length_iff] at hlen
    rw [takenBy_eq_nil]
    rintro x hx rfl
    simpa [(failed_iff x.1).2 ht] using hlen x hx
  · intro hn
    refine ⟨?_, ?_, hs.evictions⟩
    · have hall : s.taken.filter (fun x => !s.failed x.1) = s.taken := by
        rw [List.filter_eq_self]
        intro x hx
        rw [Bool.not_eq_true', Bool.eq_false_iff]
        intro hf
        exact (takenBy_eq_nil x.1).1 (hn x.1 ((failed_iff x.1).1 hf)) x hx rfl
      rw [Sys.handed, hall]
      exact hs.balanced.kept
    · rintro t out (h | ⟨r, h⟩)
      · rw [hs.outs t (by simp [h]), h]
        rfl
      · rw [hs.outs t (by simp [h]), h]
        rfl

/-- Giving a call that has not failed a state other than failure throws nothing away. -/
theorem noDiscard_setCall {t : Tid} {c : Call A} (h : s.calls t ≠ .disconnected)
    (hc : c ≠ .disconnected) : NoDiscard (s.setCall t c) ↔ NoDiscard s := by
  refine forall_congr' fun u => ?_
  rw [setCall_calls, setCall_takenBy]
  by_cases hu : u = t
  · subst hu
    simp [h, hc]
  · rw [if_neg hu]

/-- A call that fails throws away what it holds. -/
theorem noDiscard_disconnect (t : Tid) :
    NoDiscard (s.setCall t .disconnected) ↔ NoDiscard s ∧ s.takenBy t = [] := by
  constructor
  · intro hd
    refine ⟨fun u hu => hd u ?_, hd t (by simp [setCall_calls])⟩
    rw [setCall_calls]
    split
    · rfl
    · exact hu
  · rintro ⟨hd, ht⟩ u hu
    rw [setCall_calls] at hu
    by_cases hut : u = t
    · rw [setCall_takenBy, hut, ht]
    · rw [if_neg hut] at hu
      exact hd u hu

/-- **One step.** A step throws elements away exactly if it is a receive that holds some and finds
    the queue shut down and drained. -/
theorem noDiscard_step (hs : Inv s) (h : Step s l s') :
    NoDiscard s' ↔ NoDiscard s ∧ s.keeps l = true := by
  cases h with
  | offer v => simp [NoDiscard, Sys.keeps]
  | @enter l t c h hl hout hc =>
      have hk : s.keeps l = true := by
        cases l with
        | step u => exact absurd rfl (hl u)
        | _ => rfl
      rw [noDiscard_setCall (by simp [h]) hc, hk]
      simp
  | offerNext h =>
      rw [noDiscard_setCall (by simp [h]) (by simp)]
      simp [NoDiscard, Sys.keeps, h]
  | offered h =>
      rw [noDiscard_setCall (by simp [h]) (by simp)]
      simp [Sys.keeps, h]
  | @take t r out v q h hq =>
      have hk : s.keeps (.step t) = true := by simp [Sys.keeps, h, Queue.recv_ok hq]
      rw [hk]
      simp only [and_true]
      refine forall_congr' fun u => ?_
      rw [takeOut_calls, takeOut_takenBy]
      by_cases hu : u = t
      · subst hu
        simp [h]
      · simp [hu]
  | @«return» t r out h hopen =>
      have hk : s.keeps (.step t) = true := by
        rcases hopen with hfin | hnone
        · simp [Sys.keeps, h, hfin]
        · simp [Sys.keeps, h, Queue.recv_none hnone]
      rw [noDiscard_setCall (by simp [h]) (by simp), hk]
      simp
  | @disconnect t r out e h hn hq =>
      obtain ⟨-, hempty, hclosed⟩ := Queue.recv_error hq
      have hheld : s.takenBy t = out := by rw [hs.outs t (by simp [h]), h]; rfl
      have hk : s.keeps (.step t) = true ↔ out = [] := by simp [Sys.keeps, h, hn, hempty, hclosed]
      rw [hk, noDiscard_disconnect, hheld]
  | shutdown => simp [NoDiscard, Sys.keeps, Sys.takenBy]

/-- **Conservation, exactly.** A run of a queue of any mode conserves its elements if and only if
    none of its receiving calls, holding elements already, asks for another from a queue that is
    shut down and drained. -/
theorem conserves_iff_keeps (mode : Mode) (ls : List (Label Tid A)) (s : Sys Tid A)
    (hrun : run Sys.step (Sys.init mode.make) ls = some s) :
    s.Conserves ↔ Along Sys.step (fun s l => s.keeps l = true) (Sys.init mode.make) ls := by
  have hstep : ∀ (s : Sys Tid A) l s', Inv s → s.step l = some s' → Inv s' :=
    fun _ _ _ hs h => hs.step (.of_step h)
  have hinv : Inv s := run_invariant hstep (inv_init mode) hrun
  have hiff := run_iff_along (fun s l s' hs _ h => hstep s l s' hs h)
    (fun _ _ _ hs _ h => noDiscard_step hs (.of_step h)) (inv_init mode)
    (along_true _ _ ls) hrun
  have h0 : NoDiscard (Sys.init mode.make : Sys Tid A) := fun _ _ => rfl
  rw [hinv.conserves_iff, hiff]
  exact and_iff_right h0

/-- A sliding queue of capacity 1 is offered three elements with a take in between: one element is
    evicted, and the other two are handed out. -/
theorem conserves_iff_keeps_sliding : ∃ s : Sys ℕ ℕ,
    run Sys.step (Sys.init (Mode.sliding 1).make)
        [.offer 1, .offer 2, .receive 0 .take, .step 0, .step 0, .offer 3, .shutdown,
          .receive 1 (.takeUpTo 1), .step 1, .step 1] = some s ∧
      s.handed = [2, 3] ∧ s.evicted = [0] ∧ s.Conserves := by
  obtain ⟨s, hrun, hs⟩ := exists_run (fun s : Sys ℕ ℕ => (s.handed, s.evicted))
    (show (run Sys.step (Sys.init (Mode.sliding 1).make)
        [.offer 1, .offer 2, .receive 0 .take, .step 0, .step 0, .offer 3, .shutdown,
          .receive 1 (.takeUpTo 1), .step 1, .step 1]).map _ = some ([2, 3], [0]) by decide)
  have hk : Along Sys.step (fun (s : Sys ℕ ℕ) l => s.keeps l = true)
      (Sys.init (Mode.sliding 1).make) [.offer 1, .offer 2, .receive 0 .take, .step 0, .step 0,
        .offer 3, .shutdown, .receive 1 (.takeUpTo 1), .step 1, .step 1] := by decide
  rw [Prod.mk.injEq] at hs
  exact ⟨s, hrun, hs.1, hs.2, (conserves_iff_keeps (.sliding 1) _ s hrun).2 hk⟩

end IdEffect.QueueRuns
