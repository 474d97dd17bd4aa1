import IdEffect.Streaming.ChannelRuns

set_option autoImplicit false

/-! # After a failure

`poll_next_chunk` hands a failure out as an error and leaves the stream open. What the next polls
answer is then up to the messages behind the failure: they wait for more of them, hand out further
elements, or fail again. A failure is terminal exactly in the runs in which no such message is taken
and no poll comes to an empty queue (`failure_terminal_iff`). -/

namespace IdEffect.Channels

open Transition Streaming

variable {Tid A E : Type} [DecidableEq Tid] {capacity : ℕ} {policy : BackpressurePolicy}

/-! ## Polls and their answers -/

/-- What a poll answers. -/
abbrev Answer (A E : Type) : Type := Except E (Option (List A))

/-- A channel, whether a poll is in progress, and what the polls have answered so far. -/
structure Poller (Tid A E : Type) where
  sys : Sys Tid A E
  polling : Bool
  answers : List (Answer A E)

inductive PollerLabel (Tid A E : Type) where
  | producer (l : Label Tid A E)
  | poll
  | pull

def PollerLabel.isPull : PollerLabel Tid A E → Bool
  | .pull => true
  | .producer _ | .poll => false

def PollerLabel.isProducer : PollerLabel Tid A E → Bool
  | .producer _ => true
  | .poll | .pull => false

/-- What a poll answers after a step that has made `c'` of the stream, if it does not go on: the
    error it was given, the end of the stream, or elements it had. -/
def Consumer.answered (c c' : Consumer A E) (size : ℕ) : Option (Answer A E) :=
  match c'.errors.drop c.errors.length with
  | e :: _ => some (.error e)
  | [] =>
      if c'.exhausted then some (.ok none)
      else
        match c.buffered with
        | [] => none
        | a :: buf => some (.ok (some ((a :: buf).take size)))

namespace Poller

def init (capacity : ℕ) (policy : BackpressurePolicy) : Poller Tid A E :=
  ⟨.init capacity policy, false, []⟩

/-- `poll_next_chunk` begins, makes its steps, and ends with an answer. -/
def step (p : Poller Tid A E) : PollerLabel Tid A E → Option (Poller Tid A E)
  | .producer l => if l.isPull then none else (p.sys.step l).map fun s => { p with sys := s }
  | .poll => if p.polling then none else some { p with polling := true }
  | .pull =>
      if p.polling then
        (p.sys.step (.pull Stream.chunkSize)).map fun s =>
          match p.sys.consumer.answered s.consumer Stream.chunkSize with
          | some a => ⟨s, false, p.answers ++ [a]⟩
          | none => ⟨s, true, p.answers⟩
      else none

end Poller

/-! ## Terminal failures -/

/-- A poll has answered with an error. -/
def Failed (answers : List (Answer A E)) : Prop := ∃ e, .error e ∈ answers

/-- After the first error there is nothing but `Ok(None)`. -/
def Terminal : List (Answer A E) → Prop
  | [] => True
  | .error _ :: later => ∀ a ∈ later, a = .ok none
  | .ok _ :: later => Terminal later

namespace Poller

/-- A poll need not wait. -/
def Ready (p : Poller Tid A E) : Prop :=
  p.sys.consumer.exhausted = true ∨ p.sys.consumer.closed = true ∨ p.sys.queue.buffered ≠ []

/-- Failures have been terminal so far: nothing but `Ok(None)` was answered after one, no further
    element has been taken, and no poll waits. -/
structure Quiet (p : Poller Tid A E) : Prop where
  answers : Terminal p.answers
  rests : Failed p.answers → p.sys.consumer.waiting = .away ∧ p.sys.consumer.buffered = [] ∧
    (p.polling = true → p.Ready)

/-- The steps that keep a failure terminal: after one, no poll begins at an empty queue before the
    stream has ended, and none takes anything but an `End`, or an empty chunk with a message behind
    it. -/
def Quietly (p : Poller Tid A E) : PollerLabel Tid A E → Prop
  | .producer _ => True
  | .poll => Failed p.answers → p.Ready
  | .pull => Failed p.answers → p.sys.consumer.exhausted = false →
      p.sys.consumer.closed = false → ∃ m rest, p.sys.queue.buffered = m :: rest ∧
        (m = .endStream ∨ m = .chunk [] ∧ rest ≠ [])

end Poller

section

variable {answers : List (Answer A E)} {a : Answer A E}

theorem failed_snoc : Failed (answers ++ [a]) ↔ Failed answers ∨ ∃ e, a = .error e := by
  simp only [Failed, List.mem_append, List.mem_singleton, exists_or, eq_comm]

theorem terminal_of_not_failed (h : ¬ Failed answers) : Terminal answers := by
  induction answers with
  | nil => trivial
  | cons b answers ih =>
      cases b with
      | error e => exact absurd ⟨e, List.mem_cons_self⟩ h
      | ok r => exact ih fun ⟨e, he⟩ => h ⟨e, List.mem_cons_of_mem _ he⟩

theorem terminal_snoc : Terminal (answers ++ [a]) ↔
    Terminal answers ∧ (Failed answers → a = .ok none) := by
  induction answers with
  | nil =>
      have hnil : ¬ Failed ([] : List (Answer A E)) := fun ⟨e, he⟩ => by cases he
      cases a with
      | error e => simp [Terminal, hnil]
      | ok r => simp [Terminal, hnil]
  | cons b answers ih =>
      cases b with
      | error e =>
          have hfailed : Failed (.error e :: answers) := ⟨e, List.mem_cons_self⟩
          simp only [List.cons_append, Terminal, List.forall_mem_append, List.forall_mem_singleton,
            hfailed, true_implies]
      | ok r =>
          have hfailed : Failed (.ok r :: answers) ↔ Failed answers := by simp [Failed]
          rw [List.cons_append, Terminal, Terminal, ih, hfailed]

end

/-! ## One step -/

section

variable {s s' : Sys Tid A E} {p p' : Poller Tid A E} {size : ℕ}

/-- A poll is given an error when it takes a failure, and then the stream has nothing left over. -/
theorem answered_error (h : Step capacity policy s (.pull size) s') {e : E}
    (ha : s.consumer.answered s'.consumer size = some (.error e)) :
    s'.consumer.waiting = .away ∧ s'.consumer.buffered = [] := by
  -- Whatever else happens, the errors stay as they are.
  have hsame : s'.consumer.errors = s.consumer.errors →
      s.consumer.answered s'.consumer size ≠ some (.error e) := by
    intro herrors
    rw [Consumer.answered, herrors, List.drop_length]
    dsimp only
    split
    · simp
    · split <;> simp
  cases h with
  | quiet hpushed hl => cases hl
  | @take size m rest hl hbuf =>
      cases m with
      | chunk items => exact absurd ha (hsame rfl)
      | endStream => exact absurd ha (hsame rfl)
      | fail error => exact ⟨hl.waiting, hl.buffered⟩
  | findEmpty | park | wake | exhaust | deliver | rest => exact absurd ha (hsame rfl)

/-- The step of a producer. -/
theorem Poller.step_producer {l : Label Tid A E} (hstep : p.step (.producer l) = some p') :
    ¬ l.isPull = true ∧ ∃ s', p.sys.step l = some s' ∧ p' = { p with sys := s' } := by
  simp only [Poller.step] at hstep
  split at hstep
  · cases hstep
  · next hl =>
      obtain ⟨s', hsys, rfl⟩ := Option.map_eq_some_iff.1 hstep
      exact ⟨hl, s', hsys, rfl⟩

/-- The beginning of a poll. -/
theorem Poller.step_poll (hstep : p.step .poll = some p') : p' = { p with polling := true } := by
  simp only [Poller.step] at hstep
  split at hstep
  · cases hstep
  · exact (Option.some.inj hstep).symm

/-- The step of a poll. -/
theorem Poller.step_pull (hstep : p.step .pull = some p') : p.polling = true ∧ ∃ s',
    p.sys.step (.pull Stream.chunkSize) = some s' ∧
      p' = match p.sys.consumer.answered s'.consumer Stream.chunkSize with
        | some a => ⟨s', false, p.answers ++ [a]⟩
        | none => ⟨s', true, p.answers⟩ := by
  simp only [Poller.step] at hstep
  split at hstep
  · next hpolling =>
      obtain ⟨s', hsys, rfl⟩ := Option.map_eq_some_iff.1 hstep
      exact ⟨hpolling, s', hsys, rfl⟩
  · cases hstep

/-- As long as nothing has failed, any step of a poll will do. -/
theorem Poller.quiet_of_not_failed (hs : Shape capacity policy p.sys)
    (hf : ¬ Failed p.answers) (hstep : p.step .pull = some p') : p'.Quiet := by
  obtain ⟨-, s', hsys, rfl⟩ := Poller.step_pull hstep
  have hpull := Step.of_step hs hsys
  cases ha : p.sys.consumer.answered s'.consumer Stream.chunkSize with
  | none => exact ⟨terminal_of_not_failed hf, fun h => absurd h hf⟩
  | some a =>
      refine ⟨terminal_snoc.2 ⟨terminal_of_not_failed hf, fun h => absurd h hf⟩, fun h => ?_⟩
      obtain ⟨e, rfl⟩ := (failed_snoc.1 h).resolve_left hf
      obtain ⟨haway, hbuf⟩ := answered_error hpull ha
      exact ⟨haway, hbuf, nofun⟩

/-- A step of a poll after a failure takes a message, or tells that the stream has ended. -/
theorem Poller.pull_cases (hs : Shape capacity policy p.sys) (hq : p.Quiet)
    (hf : Failed p.answers) (hstep : p.step .pull = some p') :
    (∃ m rest s', Looking p.sys.consumer ∧ p.sys.queue.buffered = m :: rest ∧
      s'.queue.buffered = rest ∧ s'.consumer = p.sys.consumer.handle m ∧
      p' = match m with
        | .fail e => ⟨s', false, p.answers ++ [.error e]⟩
        | .chunk _ | .endStream => ⟨s', true, p.answers⟩) ∨
    (p.sys.consumer.exhausted = true ∨ p.sys.consumer.closed = true) ∧ ∃ s',
      s'.consumer.waiting = .away ∧ s'.consumer.buffered = [] ∧
      p' = ⟨s', false, p.answers ++ [.ok none]⟩ := by
  obtain ⟨haway, hbuffered, hready⟩ := hq.rests hf
  obtain ⟨hpolling, s', hsys, rfl⟩ := Poller.step_pull hstep
  have hpull := Step.of_step hs hsys
  obtain ⟨s, polling, answers⟩ := p
  dsimp only at *
  cases hpull with
  | quiet hpushed hl => cases hl
  | @take size m rest hl hbuf =>
      refine .inl ⟨m, rest, { s with
        queue := queueWith capacity policy rest
        gone := s.gone ++ [(m, true)] }.setConsumer (s.consumer.handle m), hl, hbuf,
        queueWith_buffered, rfl, ?_⟩
      cases m with
      | chunk items =>
          have ha : s.consumer.answered (s.consumer.handle (.chunk items)) Stream.chunkSize =
              none := by
            simp [Consumer.answered, Consumer.handle, hl.exhausted, hl.buffered]
          simp only [Sys.setConsumer, ha]
      | endStream =>
          have ha : s.consumer.answered (s.consumer.handle .endStream) Stream.chunkSize = none := by
            simp [Consumer.answered, Consumer.handle, hl.exhausted, hl.buffered]
          simp only [Sys.setConsumer, ha]
      | fail error =>
          have ha : s.consumer.answered (s.consumer.handle (.fail error)) Stream.chunkSize =
              some (.error error) := by
            simp [Consumer.answered, Consumer.handle]
          simp only [Sys.setConsumer, ha]
  | findEmpty hbuf hl hp =>
      rcases hready hpolling with hex | hclosed | hne
      · exact absurd (hl.exhausted.symm.trans hex) Bool.false_ne_true
      · exact absurd (hl.closed.symm.trans hclosed) Bool.false_ne_true
      · exact absurd hbuf hne
  | park hw => exact absurd (haway.symm.trans hw) (by simp)
  | wake hw => exact absurd (haway.symm.trans hw) (by simp)
  | exhaust hw hbuf hc =>
      have ha : s.consumer.answered { s.consumer with exhausted := true } Stream.chunkSize =
          some (.ok none) := by
        simp [Consumer.answered]
      simp only [Sys.setConsumer, ha]
      exact .inr ⟨.inr hc, s.setConsumer { s.consumer with exhausted := true }, hw, hbuf, rfl⟩
  | deliver hsize hw hbuf => exact absurd hbuffered hbuf
  | rest hex =>
      have ha : s'.consumer.answered s'.consumer Stream.chunkSize = some (.ok none) := by
        simp [Consumer.answered, hex]
      simp only [ha]
      exact .inr ⟨.inl hex, _, haway, hbuffered, rfl⟩

/-- After a failure a step of a poll keeps it terminal exactly if it meets `Quietly`. -/
theorem Poller.quiet_pull (hs : Shape capacity policy p.sys) (hq : p.Quiet)
    (hstep : p.step .pull = some p') : p'.Quiet ↔ p.Quietly .pull := by
  by_cases hf : Failed p.answers
  swap
  · exact iff_of_true (Poller.quiet_of_not_failed hs hf hstep) fun h => absurd h hf
  rcases Poller.pull_cases hs hq hf hstep with
    ⟨m, rest, s', hl, hbuf, hrest, hconsumer, rfl⟩ | ⟨hended, s', haway, hbuffered, rfl⟩
  · have hguard : p.Quietly .pull ↔ m = .endStream ∨ m = .chunk [] ∧ rest ≠ [] := by
      constructor
      · intro hg
        obtain ⟨m', rest', hbuf', hm⟩ := hg hf hl.exhausted hl.closed
        obtain ⟨rfl, rfl⟩ := List.cons.inj (hbuf.symm.trans hbuf')
        exact hm
      · exact fun hm _ _ _ => ⟨m, rest, hbuf, hm⟩
    rw [hguard]
    cases m with
    | chunk items =>
        have hitems : s'.consumer.buffered = items := by
          rw [hconsumer, Consumer.handle, hl.buffered, List.nil_append]
        constructor
        · intro hquiet
          obtain ⟨-, hnil, hmore⟩ := hquiet.rests hf
          have hempty : items = [] := hitems.symm.trans hnil
          refine .inr ⟨congrArg _ hempty, ?_⟩
          rcases hmore rfl with hex | hclosed | hne
          · rw [hconsumer] at hex
            exact absurd (hl.exhausted.symm.trans hex) Bool.false_ne_true
          · rw [hconsumer] at hclosed
            exact absurd (hl.closed.symm.trans hclosed) Bool.false_ne_true
          · exact hrest ▸ hne
        · rintro (hm | ⟨hm, hne⟩)
          · cases hm
          · cases hm
            refine ⟨hq.answers, fun _ => ⟨?_, hitems, fun _ => .inr (.inr (hrest ▸ hne))⟩⟩
            rw [hconsumer]
            exact hl.waiting
    | endStream =>
        refine iff_of_true ⟨hq.answers, fun _ => ?_⟩ (.inl rfl)
        rw [Poller.Ready, hconsumer]
        exact ⟨hl.waiting, hl.buffered, fun _ => .inr (.inl rfl)⟩
    | fail error =>
        refine iff_of_false (fun hquiet => ?_) ?_
        · exact absurd ((terminal_snoc.1 hquiet.answers).2 hf) (by simp)
        · rintro (hm | ⟨hm, -⟩) <;> cases hm
  · refine iff_of_true ⟨terminal_snoc.2 ⟨hq.answers, fun _ => rfl⟩,
      fun _ => ⟨haway, hbuffered, by simp⟩⟩ fun _ hopen hopen' => ?_
    rcases hended with hex | hclosed
    · exact absurd (hex.symm.trans hopen) (by simp)
    · exact absurd (hclosed.symm.trans hopen') (by simp)

/-- Producers leave the consumer alone, and a queue that holds a message holds one afterwards. -/
theorem Poller.quiet_producer (hs : Shape capacity policy p.sys) (hq : p.Quiet)
    {l : Label Tid A E} (hstep : p.step (.producer l) = some p') : p'.Quiet := by
  obtain ⟨hl, s', hsys, rfl⟩ := Poller.step_producer hstep
  have hkeeps : s'.consumer = p.sys.consumer ∧
      (p.sys.queue.buffered ≠ [] → s'.queue.buffered ≠ []) := by
    have hproduced := Step.of_step hs hsys
    cases hproduced with
    | quiet | notify => exact ⟨rfl, id⟩
    | enqueue | evict =>
        refine ⟨rfl, fun _ => ?_⟩
        simp [Sys.setCall]
    | take | findEmpty | park | wake | exhaust | deliver | rest => exact absurd rfl hl
  refine ⟨hq.answers, fun hf => ?_⟩
  obtain ⟨haway, hbuffered, hready⟩ := hq.rests hf
  rw [hkeeps.1]
  refine ⟨haway, hbuffered, fun hpolling => ?_⟩
  rw [Poller.Ready, hkeeps.1]
  exact (hready hpolling).imp_right (.imp_right hkeeps.2)

/-- **What a step keeps.** -/
theorem Poller.quiet_step (hs : Shape capacity policy p.sys) (hq : p.Quiet)
    {l : PollerLabel Tid A E} (hstep : p.step l = some p') : p'.Quiet ↔ p.Quietly l := by
  cases l with
  | producer l => exact iff_of_true (Poller.quiet_producer hs hq hstep) trivial
  | poll =>
      obtain rfl := Poller.step_poll hstep
      constructor
      · exact fun hquiet hf => (hquiet.rests hf).2.2 rfl
      · intro hg
        refine ⟨hq.answers, fun hf => ?_⟩
        obtain ⟨haway, hbuffered, -⟩ := hq.rests hf
        exact ⟨haway, hbuffered, fun _ => hg hf⟩
  | pull => exact Poller.quiet_pull hs hq hstep

theorem Poller.shape_step (hs : Shape capacity policy p.sys) {l : PollerLabel Tid A E}
    (hstep : p.step l = some p') : Shape capacity policy p'.sys := by
  cases l with
  | producer l =>
      obtain ⟨-, s', hsys, rfl⟩ := Poller.step_producer hstep
      exact hs.step (.of_step hs hsys)
  | poll =>
      obtain rfl := Poller.step_poll hstep
      exact hs
  | pull =>
      obtain ⟨-, s', hsys, rfl⟩ := Poller.step_pull hstep
      have hs' := hs.step (.of_step hs hsys)
      split <;> exact hs'

end

/-! ## Polls return -/

section

variable {p p' : Poller Tid A E}

/-- What has been answered stays. -/
theorem Poller.answers_step {l : PollerLabel Tid A E} (hstep : p.step l = some p') :
    p.answers <+: p'.answers := by
  cases l with
  | producer l =>
      obtain ⟨-, s', hsys, rfl⟩ := Poller.step_producer hstep
      exact List.prefix_rfl
  | poll =>
      obtain rfl := Poller.step_poll hstep
      exact List.prefix_rfl
  | pull =>
      obtain ⟨-, s', hsys, rfl⟩ := Poller.step_pull hstep
      split
      · exact List.prefix_append _ _
      · exact List.prefix_rfl

theorem Poller.answers_run {ls : List (PollerLabel Tid A E)}
    (hrun : run Poller.step p ls = some p') : p.answers <+: p'.answers :=
  run_invariant (I := fun q : Poller Tid A E => p.answers <+: q.answers)
    (fun _ _ _ hpre hstep => hpre.trans (Poller.answers_step hstep)) List.prefix_rfl hrun

/-- A producer adds at most one message. -/
theorem Poller.queue_producer (hs : Shape capacity policy p.sys) {l : Label Tid A E}
    (hstep : p.step (.producer l) = some p') :
    p'.sys.queue.buffered.length ≤ p.sys.queue.buffered.length + 1 := by
  obtain ⟨hl, s', hsys, rfl⟩ := Poller.step_producer hstep
  have hproduced := Step.of_step hs hsys
  cases hproduced with
  | quiet | notify => exact Nat.le_succ _
  | enqueue | evict => simp_all [Sys.setCall]
  | take | findEmpty | park | wake | exhaust | deliver | rest => exact absurd rfl hl

/-- After a failure, a step of a poll that is not its last takes a message. -/
theorem Poller.queue_pull (hs : Shape capacity policy p.sys) (hq : p.Quiet)
    (hf : Failed p.answers) (hstep : p.step .pull = some p') (ha : p'.answers = p.answers) :
    p'.sys.queue.buffered.length + 1 = p.sys.queue.buffered.length := by
  have hlonger : ∀ a, p.answers ++ [a] ≠ p.answers := by simp
  rcases Poller.pull_cases hs hq hf hstep with
    ⟨m, rest, s', hl, hbuf, hrest, hconsumer, rfl⟩ | ⟨hended, s', haway, hbuffered, rfl⟩
  · rw [hbuf, List.length_cons]
    cases m with
    | chunk items => exact congrArg (List.length · + 1) hrest
    | endStream => exact congrArg (List.length · + 1) hrest
    | fail error => exact absurd ha (hlonger _)
  · exact absurd ha (hlonger _)

/-- A poll that has not answered yet has taken messages that were in the queue or have come since
    then. -/
theorem Poller.pulls_le (hs : Shape capacity policy p.sys) {ls : List (PollerLabel Tid A E)}
    (hf : Failed p.answers) (hq : Throughout Poller.step Poller.Quiet p ls)
    (hrun : run Poller.step p ls = some p') (ha : p'.answers = p.answers) :
    p'.sys.queue.buffered.length + ls.countP PollerLabel.isPull ≤
      p.sys.queue.buffered.length + ls.countP PollerLabel.isProducer := by
  induction ls generalizing p with
  | nil =>
      obtain rfl := Option.some.inj hrun
      exact le_rfl
  | cons l ls ih =>
      obtain ⟨q, hstep, hrest⟩ := run_cons_eq_some.1 hrun
      obtain ⟨hquiet, hquiets⟩ := (throughout_cons_iff hstep).1 hq
      have hsame : q.answers = p.answers := by
        refine ((Poller.answers_step hstep).eq_of_length_le ?_).symm
        rw [← ha]
        exact (Poller.answers_run hrest).length_le
      have hle := ih (Poller.shape_step hs hstep) (hsame ▸ hf) hquiets hrest (ha.trans hsame.symm)
      rw [List.countP_cons, List.countP_cons]
      cases l with
      | producer k =>
          have hproduced := Poller.queue_producer hs hstep
          simp only [PollerLabel.isPull, PollerLabel.isProducer, Bool.false_eq_true, if_false,
            if_true]
          omega
      | poll =>
          have hqueue : q.sys = p.sys := by rw [Poller.step_poll hstep]
          simp only [PollerLabel.isPull, PollerLabel.isProducer, Bool.false_eq_true, if_false]
          rw [← hqueue]
          omega
      | pull =>
          have htaken := Poller.queue_pull hs hquiet hf hstep hsame
          simp only [PollerLabel.isPull, PollerLabel.isProducer, Bool.false_eq_true, if_false,
            if_true]
          omega

end

/-! ## When a failure is terminal -/

omit [DecidableEq Tid] in
theorem Poller.quiet_init (capacity : ℕ) (policy : BackpressurePolicy) :
    (Poller.init capacity policy : Poller Tid A E).Quiet := by
  refine ⟨trivial, ?_⟩
  rintro ⟨e, he⟩
  cases he

/-- **When a failure is terminal.** In a run of any producers and of polls, failures are terminal in
    every state, with nothing but `Ok(None)` answered after one, no further element taken and no
    poll that waits, if and only if every step meets `Quietly`. A poll that begins or goes on after
    a failure then makes no more steps without an answer than there are messages for it. -/
theorem failure_terminal_iff (capacity : ℕ) (policy : BackpressurePolicy)
    {ls : List (PollerLabel Tid A E)} {p : Poller Tid A E}
    (hrun : run Poller.step (Poller.init capacity policy) ls = some p) :
    (Throughout Poller.step Poller.Quiet (Poller.init capacity policy) ls ↔
      Along Poller.step Poller.Quietly (Poller.init capacity policy) ls) ∧
    ∀ (ls' : List (PollerLabel Tid A E)) (p' : Poller Tid A E), Failed p.answers →
      Throughout Poller.step Poller.Quiet p ls' → run Poller.step p ls' = some p' →
      p'.answers = p.answers → ls'.countP PollerLabel.isPull ≤
        p.sys.queue.buffered.length + ls'.countP PollerLabel.isProducer := by
  have hinit : Shape capacity policy (Poller.init capacity policy : Poller Tid A E).sys :=
    (Inv.init capacity policy).toShape
  refine ⟨?_, fun ls' p' hf hquiet hrun' ha => ?_⟩
  · exact throughout_iff_along (I := fun p : Poller Tid A E => Shape capacity policy p.sys)
      (fun _ _ _ hs _ _ hstep => Poller.shape_step hs hstep)
      (fun _ _ _ hs hq hstep => Poller.quiet_step hs hq hstep) hinit
      (Poller.quiet_init capacity policy) hrun
  · have hs : Shape capacity policy p.sys :=
      run_invariant (I := fun p : Poller Tid A E => Shape capacity policy p.sys)
        (fun _ _ _ hs hstep => Poller.shape_step hs hstep) hinit hrun
    have hle := Poller.pulls_le hs hf hquiet hrun' ha
    omega

/-- A failure with the end of the stream behind it. -/
theorem failure_terminal_iff_end : ∃ p : Poller ℕ ℕ ℕ,
    run Poller.step (Poller.init 2 .boundedBlock) [.producer (.fail 0 5), .producer (.step 0),
      .producer (.endStream 1), .producer (.step 1), .poll, .pull, .poll, .pull, .pull] = some p ∧
    p.answers = [.error 5, .ok none] ∧
    Throughout Poller.step Poller.Quiet (Poller.init 2 .boundedBlock : Poller ℕ ℕ ℕ)
      [.producer (.fail 0 5), .producer (.step 0), .producer (.endStream 1), .producer (.step 1),
        .poll, .pull, .poll, .pull, .pull] := by
  have hends : ∃ p : Poller ℕ ℕ ℕ, run Poller.step (Poller.init 2 .boundedBlock)
      [.producer (.fail 0 5), .producer (.step 0), .producer (.endStream 1), .producer (.step 1),
        .poll, .pull, .poll, .pull, .pull] = some p ∧ p.answers = [.error 5, .ok none] :=
    ⟨_, rfl, rfl⟩
  obtain ⟨p, hrun, ha⟩ := hends
  refine ⟨p, hrun, ha, (failure_terminal_iff 2 .boundedBlock hrun).1.2 ?_⟩
  have hnone : ∀ {q : Prop}, Failed ([] : List (Answer ℕ ℕ)) → q := fun ⟨e, he⟩ => by cases he
  refine along_cons rfl trivial (along_cons rfl trivial (along_cons rfl trivial
    (along_cons rfl trivial (along_cons rfl hnone (along_cons rfl hnone (along_cons rfl ?_
      (along_cons rfl ?_ (along_cons rfl ?_ trivial))))))))
  · exact fun _ => .inr (.inr nofun)
  · exact fun _ _ _ => ⟨.endStream, [], rfl, .inl rfl⟩
  · exact fun _ _ hopen => by cases hopen

/-- A failure with a chunk behind it, and one with nothing behind it. -/
theorem failure_not_terminal :
    (∃ p : Poller ℕ ℕ ℕ, run Poller.step (Poller.init 2 .boundedBlock)
      [.producer (.fail 0 5), .producer (.step 0), .producer (.sendChunk 1 [7]),
        .producer (.step 1), .poll, .pull, .poll, .pull, .pull] = some p ∧
      p.answers = [.error 5, .ok (some [7])]) ∧
    (∃ p : Poller ℕ ℕ ℕ, run Poller.step (Poller.init 2 .boundedBlock)
      [.producer (.fail 0 5), .producer (.step 0), .poll, .pull, .poll] = some p ∧
      p.answers = [.error 5] ∧ p.polling = true ∧ p.step .pull = none) ∧
    ¬ ∀ (capacity : ℕ) (policy : BackpressurePolicy) (ls : List (PollerLabel ℕ ℕ ℕ))
      (p : Poller ℕ ℕ ℕ), run Poller.step (Poller.init capacity policy) ls = some p → p.Quiet := by
  refine ⟨⟨_, rfl, rfl⟩, ⟨_, rfl, rfl, rfl, rfl⟩, fun hall => ?_⟩
  have hquiet := hall 2 .boundedBlock [.producer (.fail 0 5), .producer (.step 0), .poll, .pull,
    .poll] _ rfl
  rcases (hquiet.rests ⟨5, List.mem_cons_self⟩).2.2 rfl with hex | hclosed | hne
  · cases hex
  · cases hclosed
  · exact hne rfl

end IdEffect.Channels
