import IdEffect.Coordination.QueueRuns

set_option autoImplicit false

/-! # What `offer_all` stores and gives back

`offer_all` offers its elements one after the other, between which other calls may do what they
like. An element goes into the queue exactly if `offer` would have put it there (`Try.Stored`). One
that is refused is not always given back: only an open bounded queue and a sliding queue that is
shut down do so, a full dropping queue and every other queue that is shut down drop it
(`offerAll_accounts`). -/

namespace IdEffect

variable {Tid A : Type} [DecidableEq Tid]

/-! ## The elements that are given back -/

/-- Does a queue of this mode give a refused element back? -/
def Mode.givesBack (mode : Mode) (q : Queue A) : Bool :=
  match mode with
  | .bounded _ => !q.closed
  | .sliding _ => true
  | .unbounded | .dropping _ => false

/-- What `offer_all` makes of an element. -/
theorem Queue.offerOrRetain_fst {mode : Mode} {q : Queue A}
    (h : q.backend = (mode.make : Queue A).backend) (v : A) :
    (q.offerOrRetain v).1 =
      if !(q.offer v).1 && mode.givesBack q then .error v else .ok () := by
  cases q with
  | fromSliding s =>
      cases mode with
      | sliding c =>
          obtain ⟨deque, isOpen, capacity, shutdown⟩ := s
          cases isOpen <;> rfl
      | bounded c | unbounded | dropping c => cases h
  | fromFlume f =>
      obtain ⟨kind, cap, buf, tx, shutdown⟩ := f
      simp only [offerOrRetain, offer, FlumeShared.offerOrRetain, FlumeShared.offer,
        FlumeShared.trySend]
      cases mode with
      | sliding c => cases h
      | bounded c =>
          cases h
          cases tx with
          | false => rfl
          | true => by_cases hc : max c 1 ≤ buf.length <;> simp [hc, Mode.givesBack, closed]
      | unbounded =>
          cases h
          cases tx <;> rfl
      | dropping c =>
          cases h
          cases tx with
          | false => rfl
          | true => by_cases hc : max c 1 ≤ buf.length <;> simp [hc, Mode.givesBack]

namespace QueueRuns

open Transition

/-! ## The elements a call has tried -/

/-- An element that `offer_all` has tried, with the queue it met and the queue it left. -/
structure Try (A : Type) where
  before : Queue A
  element : A
  after : Queue A

namespace Try

/-- What `offer` would have answered. -/
def offered (x : Try A) : Bool := (x.before.offer x.element).1

/-- The element is the last one in the queue. The others are still there, but for the oldest ones in
    a sliding queue. -/
def Stored (x : Try A) : Prop :=
  ∃ kept, kept <:+ x.before.buffered ∧ x.after.buffered = kept ++ [x.element] ∧
    ∀ f, x.before = .fromFlume f → kept = x.before.buffered

end Try

namespace Sys

/-- The element that `t` tries in a step. -/
def tries (t : Tid) (s : Sys Tid A) (l : Label Tid A) : List (Try A) :=
  match l with
  | .step u =>
      if u = t then
        match s.calls t, s.step (.step t) with
        | .offering (v :: _) _, some s' => [⟨s.queue, v, s'.queue⟩]
        | _, _ => []
      else []
  | _ => []

end Sys

/-- Every element of `xs` is tried once, in order, and leaves the queue that `offer` would have
    left. Those for which `offer` would have answered `true` are stored, and enter the books in this
    order; the others change nothing, and those of them are returned that the queue gave back. -/
structure Accounts (mode : Mode) (xs : List A) (tried : List (Try A)) (left new : List A) :
    Prop where
  all : tried.map Try.element = xs
  leaves : ∀ x ∈ tried, x.after = (x.before.offer x.element).2
  stored : ∀ x ∈ tried, x.offered = true → x.Stored
  refused : ∀ x ∈ tried, x.offered = false → x.after = x.before
  entered : ((tried.filter Try.offered).map Try.element).Sublist new
  returned : left = (tried.filter fun x => !x.offered && mode.givesBack x.before).map Try.element

/-! ## One step -/

variable {s s' : Sys Tid A} {l : Label Tid A} {t : Tid}

omit [DecidableEq Tid] in
@[simp] theorem record_queue (v : A) (stored : Bool) (q : Queue A) :
    (s.record v stored q).queue = q := by
  rw [Sys.record]
  split <;> rfl

theorem Step.backend (h : Step s l s') : s'.queue.backend = s.queue.backend := by
  cases h with
  | offer v => rw [record_queue, Queue.backend_offer]
  | offerNext _ => exact (congrArg _ (record_queue ..)).trans (Queue.backend_offer ..)
  | take _ hq => exact Queue.backend_recv hq
  | shutdown => exact Queue.backend_shutdown s.queue
  | enter _ _ _ _ | offered _ | «return» _ _ | disconnect _ _ _ => rfl

theorem Step.window (h : Step s l s') : s'.queue.window = s.queue.window := by
  cases h with
  | offer v => rw [record_queue, Queue.window_offer]
  | offerNext _ => exact (congrArg _ (record_queue ..)).trans (Queue.window_offer ..)
  | take _ hq => exact Queue.window_recv hq
  | shutdown => exact Queue.window_shutdown s.queue
  | enter _ _ _ _ | offered _ | «return» _ _ | disconnect _ _ _ => rfl

omit [DecidableEq Tid] in
theorem record_accepted (v : A) (stored : Bool) (q : Queue A) :
    (s.record v stored q).accepted = s.accepted ++ if stored then [v] else [] := by
  rw [Sys.record]
  cases stored with
  | true => rfl
  | false => exact (List.append_nil s.accepted).symm

theorem Step.accepted (h : Step s l s') : ∃ new, s'.accepted = s.accepted ++ new := by
  cases h with
  | offer v => exact ⟨_, record_accepted v _ _⟩
  | offerNext _ => exact ⟨_, record_accepted _ _ _⟩
  | enter _ _ _ _ | offered _ | take _ _ | «return» _ _ | disconnect _ _ _ | shutdown =>
      exact ⟨[], (List.append_nil _).symm⟩

/-- Other steps leave a call alone. -/
theorem Step.other (h : Step s l s') (ht : s.calls t ≠ .idle) (hl : l ≠ .step t) :
    s'.calls t = s.calls t := by
  have hset : ∀ (s : Sys Tid A) {u : Tid} (c : Call A), u ≠ t →
      (s.setCall u c).calls t = s.calls t :=
    fun s u c hu => by rw [setCall_calls, if_neg (Ne.symm hu)]
  have hstep : ∀ {u : Tid}, Label.step u ≠ Label.step (A := A) t → u ≠ t :=
    fun hne heq => hne (by rw [heq])
  cases h with
  | offer v => rw [record_calls]
  | shutdown => rfl
  | enter hidle _ _ _ => exact hset s _ fun hu => ht (hu ▸ hidle)
  | offerNext _ => rw [hset _ _ (hstep hl), record_calls]
  | take _ _ => rw [takeOut_calls, if_neg (Ne.symm (hstep hl))]
  | offered _ | «return» _ _ | disconnect _ _ _ => exact hset _ _ (hstep hl)

/-- The call's own step leaves the queue that `offer` would have left; the element may come back. -/
theorem step_offering {mode : Mode} {v : A} {rest left : List A}
    (hbackend : s.queue.backend = (mode.make : Queue A).backend)
    (hcall : s.calls t = .offering (v :: rest) left) (h : s.step (.step t) = some s') :
    s'.queue = (s.queue.offer v).2 ∧
      s'.calls t = .offering rest (left ++
        if !(s.queue.offer v).1 && mode.givesBack s.queue then [v] else []) ∧
      s'.accepted = s.accepted ++ if (s.queue.offer v).1 then [v] else [] := by
  simp only [Sys.step, hcall, Queue.offerOrRetain_fst hbackend] at h
  have hqueue : ∀ c : Call A, ((s.record v (s.queue.offer v).1
      (s.queue.offerOrRetain v).2).setCall t c).queue = (s.queue.offer v).2 := by
    intro c
    rw [← Queue.offerOrRetain_snd]
    exact record_queue v _ _
  by_cases hback : (!(s.queue.offer v).1 && mode.givesBack s.queue) = true
  · rw [if_pos hback] at h ⊢
    obtain rfl := Option.some.inj h
    exact ⟨hqueue _, by simp [setCall_calls], record_accepted v _ _⟩
  · rw [if_neg hback] at h ⊢
    obtain rfl := Option.some.inj h
    exact ⟨hqueue _, by simp [setCall_calls], record_accepted v _ _⟩

/-- An element that `offer` takes is in the queue it leaves. -/
theorem Try.stored_offer {mode : Mode} {q : Queue A} {v : A}
    (hwindow : q.window = (mode.make : Queue A).window)
    (h : (Try.mk q v (q.offer v).2).offered = true) : (Try.mk q v (q.offer v).2).Stored := by
  cases q with
  | fromFlume f =>
      exact ⟨f.buf, List.suffix_refl _, Queue.flume_offer_buffered f v h, fun _ _ => rfl⟩
  | fromSliding s =>
      have hcapacity : 1 ≤ s.capacity := Mode.one_le_window hwindow.symm
      have hdrop : s.deque.length + 1 - s.capacity ≤ s.deque.length := by omega
      refine ⟨s.deque.drop (s.deque.length + 1 - s.capacity), List.drop_suffix _ _, ?_, nofun⟩
      cases hopen : s.isOpen with
      | false => simp [Try.offered, Queue.offer, SlidingShared.offer, SlidingShared.offerOrRetain,
          hopen] at h
      | true =>
          -- the oldest elements make room, and the new one is not among them
          simp only [Queue.offer, SlidingShared.offer, SlidingShared.offerOrRetain, hopen, if_true,
            Queue.buffered, SlidingShared.trim_eq_drop, List.length_append, List.length_singleton]
          exact List.drop_append_of_le_length hdrop

/-- An element that `offer` refuses leaves the queue as it was. -/
theorem Try.after_offer {q : Queue A} {v : A} (h : (Try.mk q v (q.offer v).2).offered = false) :
    (q.offer v).2 = q := by
  rcases Queue.offer_spec q v with ⟨htrue, -⟩ | ⟨-, hq⟩
  · cases h.symm.trans htrue
  · exact hq

/-! ## A whole call -/

/-- Where a call of `offer_all` stands that began in `s₀`. -/
structure Trying (mode : Mode) (s₀ : Sys Tid A) (t : Tid) (xs : List A) (s : Sys Tid A)
    (tried : List (Try A)) : Prop where
  backend : s.queue.backend = (mode.make : Queue A).backend
  window : s.queue.window = (mode.make : Queue A).window
  call : ∃ done rest left new, xs = done ++ rest ∧ s.accepted = s₀.accepted ++ new ∧
    Accounts mode done tried left new ∧
    (s.calls t = .offering rest left ∨ rest = [] ∧ s.calls t = .offered left)

theorem Accounts.start (mode : Mode) : Accounts mode ([] : List A) [] [] [] where
  all := rfl
  leaves := fun _ hx => absurd hx List.not_mem_nil
  stored := fun _ hx => absurd hx List.not_mem_nil
  refused := fun _ hx => absurd hx List.not_mem_nil
  entered := .slnil
  returned := rfl

theorem Accounts.more {mode : Mode} {xs left new : List A} {tried : List (Try A)}
    (h : Accounts mode xs tried left new) (more : List A) :
    Accounts mode xs tried left (new ++ more) :=
  { h with entered := h.entered.trans (List.sublist_append_left new more) }

theorem Accounts.next {mode : Mode} {xs left new : List A} {tried : List (Try A)}
    (h : Accounts mode xs tried left new) {q : Queue A}
    (hwindow : q.window = (mode.make : Queue A).window) (v : A) :
    Accounts mode (xs ++ [v]) (tried ++ [⟨q, v, (q.offer v).2⟩])
      (left ++ if !(q.offer v).1 && mode.givesBack q then [v] else [])
      (new ++ if (q.offer v).1 then [v] else []) where
  all := by rw [List.map_append, h.all, List.map_singleton]
  leaves := by
    intro x hx
    rcases List.mem_append.1 hx with hx | hx
    · exact h.leaves x hx
    · obtain rfl := List.mem_singleton.1 hx
      rfl
  stored := by
    intro x hx
    rcases List.mem_append.1 hx with hx | hx
    · exact h.stored x hx
    · obtain rfl := List.mem_singleton.1 hx
      exact Try.stored_offer hwindow
  refused := by
    intro x hx
    rcases List.mem_append.1 hx with hx | hx
    · exact h.refused x hx
    · obtain rfl := List.mem_singleton.1 hx
      exact Try.after_offer
  entered := by
    rw [List.filter_append, List.map_append]
    refine h.entered.append ?_
    cases hstore : (q.offer v).1 <;> simp [Try.offered, hstore]
  returned := by
    rw [List.filter_append, List.map_append, ← h.returned]
    cases hstore : (q.offer v).1 <;> cases hback : mode.givesBack q <;>
      simp [Try.offered, hstore, hback]

theorem Trying.step {mode : Mode} {s₀ : Sys Tid A} {xs : List A} {tried : List (Try A)}
    (hs : Trying mode s₀ t xs s tried) (h : s.step l = some s') :
    Trying mode s₀ t xs s' (tried ++ s.tries t l) := by
  have hstep := Step.of_step h
  obtain ⟨done, rest, left, new, hxs, haccepted, haccounts, hcall⟩ := hs.call
  refine ⟨hstep.backend.trans hs.backend, hstep.window.trans hs.window, ?_⟩
  by_cases hl : l = .step t
  · subst hl
    rcases hcall with hcall | ⟨rfl, hcall⟩
    · cases rest with
      | nil =>
          simp only [Sys.step, hcall, Option.some.injEq] at h
          subst h
          have htries : s.tries t (.step t) = [] := by simp [Sys.tries, hcall]
          rw [htries, List.append_nil]
          exact ⟨done, [], left, new, hxs, haccepted, haccounts,
            .inr ⟨rfl, by simp [setCall_calls]⟩⟩
      | cons v rest =>
          obtain ⟨hqueue, hcall', haccepted'⟩ := step_offering hs.backend hcall h
          have htries : s.tries t (.step t) = [⟨s.queue, v, (s.queue.offer v).2⟩] := by
            simp [Sys.tries, hcall, h, hqueue]
          refine ⟨done ++ [v], rest, _, _, ?_, ?_, htries ▸ haccounts.next hs.window v,
            .inl hcall'⟩
          · rw [hxs, List.append_assoc, List.singleton_append]
          · rw [haccepted', haccepted, List.append_assoc]
    · simp [Sys.step, hcall] at h
  · have htries : s.tries t l = [] := by
      cases l with
      | step u =>
          have hu : u ≠ t := fun hu => hl (by rw [hu])
          simp [Sys.tries, hu]
      | offer _ | offerAll _ _ | receive _ _ | shutdown => rfl
    have hidle : s.calls t ≠ .idle := by
      rcases hcall with hcall | ⟨-, hcall⟩ <;> simp [hcall]
    obtain ⟨more, hmore⟩ := hstep.accepted
    rw [htries, List.append_nil, hstep.other hidle hl]
    exact ⟨done, rest, left, new ++ more, hxs, by rw [hmore, haccepted, List.append_assoc],
      haccounts.more more, hcall⟩

/-- **What `offer_all` stores and returns.** In a run of a queue of any mode, let a call of
    `offer_all` with the elements `xs` begin in any state that has been reached, and go on among
    other calls. When it has returned, it has tried every element in order, has stored those that
    `offer` would have stored and no others, and has returned those that were refused by a queue
    that gives back. -/
theorem offerAll_accounts (mode : Mode) {ls₀ ls : List (Label Tid A)} {s₀ s : Sys Tid A} {t : Tid}
    {xs left : List A} (hreached : run Sys.step (Sys.init mode.make) ls₀ = some s₀)
    (hrun : run Sys.step s₀ (.offerAll t xs :: ls) = some s)
    (hreturned : s.calls t = .offered left) :
    ∃ new, s.accepted = s₀.accepted ++ new ∧
      Accounts mode xs (seen Sys.step (Sys.tries t) s₀ (.offerAll t xs :: ls)) left new := by
  have hbackend : s₀.queue.backend = (mode.make : Queue A).backend :=
    run_invariant (I := fun s : Sys Tid A => s.queue.backend = (mode.make : Queue A).backend)
      (fun s l s' hs h => (Step.of_step h).backend.trans hs) rfl hreached
  have hwindow : s₀.queue.window = (mode.make : Queue A).window :=
    run_invariant (I := fun s : Sys Tid A => s.queue.window = (mode.make : Queue A).window)
      (fun s l s' hs h => (Step.of_step h).window.trans hs) rfl hreached
  obtain ⟨s₁, hstart, hrest⟩ := run_cons_eq_some.1 hrun
  have htries : s₀.tries t (.offerAll t xs) = [] := rfl
  rw [seen_cons hstart, htries]
  have hbegun : Trying mode s₀ t xs s₁ [] := by
    simp only [Sys.step] at hstart
    split at hstart
    · obtain rfl := Option.some.inj hstart
      exact ⟨hbackend, hwindow, [], xs, [], [], rfl, (List.append_nil _).symm, .start mode,
        .inl (by simp [setCall_calls])⟩
    · cases hstart
  obtain ⟨-, -, done, rest, left', new, hxs, haccepted, haccounts, hcall⟩ :=
    run_seen (fun s l s' log hs h => hs.step h) hbegun hrest
  rw [hreturned] at hcall
  obtain hcall | ⟨rfl, hcall⟩ := hcall
  · cases hcall
  · cases hcall
    rw [List.append_nil] at hxs
    subst hxs
    exact ⟨new, haccepted, haccounts⟩

/-- A bounded queue of capacity 1 stores the first of two elements and gives the second one back. -/
theorem offerAll_accounts_bounded : ∃ s : Sys ℕ ℕ,
    run Sys.step (Sys.init (Mode.bounded 1).make) [.offerAll 0 [7, 8], .step 0, .step 0, .step 0]
        = some s ∧ ∃ new, s.accepted = [] ++ new ∧
      Accounts (.bounded 1) [7, 8] (seen Sys.step (Sys.tries 0) (Sys.init (Mode.bounded 1).make)
        [.offerAll 0 [7, 8], .step 0, .step 0, .step 0]) [8] new := by
  obtain ⟨s, hrun, hs⟩ := exists_run (fun s : Sys ℕ ℕ => s.calls 0)
    (show (run Sys.step (Sys.init (Mode.bounded 1).make)
      [.offerAll 0 [7, 8], .step 0, .step 0, .step 0]).map _ = some (.offered [8]) by decide)
  exact ⟨s, hrun, offerAll_accounts (.bounded 1) (run_nil _ _) hrun hs⟩

/-- A bounded queue that is shut down refuses three elements and gives none of them back. -/
theorem offerAll_drops_after_shutdown :
    ¬ ∀ (mode : Mode) (ls₀ ls : List (Label ℕ ℕ)) (s₀ s : Sys ℕ ℕ) (xs left : List ℕ),
      run Sys.step (Sys.init mode.make) ls₀ = some s₀ →
      run Sys.step s₀ (.offerAll 0 xs :: ls) = some s → s.calls 0 = .offered left →
      left = ((seen Sys.step (Sys.tries 0) s₀ (.offerAll 0 xs :: ls)).filter
        fun x => !x.offered).map Try.element := by
  intro hall
  obtain ⟨s, hrun, hs⟩ := exists_run (fun s : Sys ℕ ℕ => s.calls 0)
    (show (run Sys.step { Sys.init (Mode.bounded 4).make with
        queue := (Mode.bounded 4).make.shutdown }
      [.offerAll 0 [1, 2, 3], .step 0, .step 0, .step 0, .step 0]).map _ = some (.offered []) by
        decide)
  have hall := hall (.bounded 4) [.shutdown] _ _ s [1, 2, 3] [] rfl hrun hs
  revert hall
  decide

end QueueRuns

end IdEffect
