import Mathlib.Algebra.Ring.Nat
import Mathlib.Logic.Function.Basic
import Mathlib.Order.Nat
import IdEffect.Lib.Transition

set_option autoImplicit false

/-! # The in-memory job runner

`MemoryJobRunner` keeps pending jobs in a queue and running ones in a hash map under their ids,
which whoever enqueues a job may choose. `dequeue` holds the lock of the queue until it has put the
job into the map, and the other calls take one lock, so every call is one step. A job that is
dequeued while another one with its id is running takes that one's place in the map, and the other
one is gone: no record of it is left, and its worker finds the wrong job or none under its id. Apart
from that, and from workers that settle jobs which are not theirs, every job is accounted for
(`accounts_iff_distinct`). -/

namespace IdEffect.Jobs

open Transition

inductive JobState where
  | pending
  | running
  | completed
  | failed
  deriving DecidableEq, Repr

structure JobSpec where
  id : String
  name : String
  payload : List UInt8
  workProfile : Option String
  deriving DecidableEq, Repr

structure JobRecord where
  spec : JobSpec
  state : JobState
  deriving DecidableEq, Repr

/-- A record as it is stored, with the number of the `enqueue` that stored it, which the code does
    not keep. -/
structure Job where
  seq : ℕ
  record : JobRecord
  deriving DecidableEq, Repr

def Job.id (job : Job) : String := job.record.spec.id

def Job.enter (job : Job) (state : JobState) : Job :=
  { job with record := { job.record with state } }

@[simp] theorem Job.enter_seq (job : Job) (state : JobState) :
    (job.enter state).seq = job.seq := rfl

@[simp] theorem Job.enter_id (job : Job) (state : JobState) : (job.enter state).id = job.id := rfl

/-- What a call can answer apart from a poisoned lock, and no lock is ever poisoned here. -/
inductive JobError where
  | notFound (id : String)
  deriving DecidableEq, Repr

structure MemoryJobRunner where
  queue : List Job
  running : String → Option Job

namespace MemoryJobRunner

def new : MemoryJobRunner := ⟨[], fun _ => none⟩

variable (r : MemoryJobRunner)

/-- A job without an id is given a generated one. -/
def enqueue (seq : ℕ) (spec : JobSpec) (generated : String) : JobRecord × MemoryJobRunner :=
  let spec := if spec.id = "" then { spec with id := generated } else spec
  let record : JobRecord := ⟨spec, .pending⟩
  (record, { r with queue := r.queue ++ [⟨seq, record⟩] })

def dequeue : Option Job × MemoryJobRunner :=
  match r.queue with
  | [] => (none, r)
  | job :: queue =>
      let job := job.enter .running
      (some job, ⟨queue, Function.update r.running job.id (some job)⟩)

/-- `complete` and `fail`: the record is taken out of the map, its state is set, and it is
    dropped. -/
def settle (id : String) (state : JobState) : Except JobError Job × MemoryJobRunner :=
  match r.running id with
  | none => (.error (.notFound id), r)
  | some job =>
      (.ok (job.enter state), { r with running := Function.update r.running id none })

def complete (id : String) : Except JobError Job × MemoryJobRunner := r.settle id .completed

def fail (id : String) : Except JobError Job × MemoryJobRunner := r.settle id .failed

def pendingCount : ℕ := r.queue.length

end MemoryJobRunner

/-- `drain_jobs` with nobody else at work: how many jobs were processed, and what is left. The
    handler says whether a job is a success. -/
def drainJobs (handler : JobSpec → Bool) :
    ℕ → MemoryJobRunner → Except JobError ℕ × MemoryJobRunner
  | 0, r => (.ok 0, r)
  | limit + 1, r =>
      match r.dequeue with
      | (none, r) => (.ok 0, r)
      | (some job, r) =>
          match (if handler job.record.spec then r.complete job.id else r.fail job.id) with
          | (.error e, r) => (.error e, r)
          | (.ok _, r) =>
              let rest := drainJobs handler limit r
              (rest.1.map (· + 1), rest.2)

namespace MemoryJobRunner

variable {r : MemoryJobRunner} {id : String} {job : Job}

theorem settle_of_running (h : r.running id = some job) (state : JobState) :
    r.settle id state
      = (.ok (job.enter state), { r with running := Function.update r.running id none }) := by
  rw [settle, h]

theorem settle_of_none (h : r.running id = none) (state : JobState) :
    r.settle id state = (.error (.notFound id), r) := by
  rw [settle, h]

end MemoryJobRunner

/-- Alone, `drain_jobs` never fails, whatever the ids and the handler: what it settles is what it
    has just put into the map. -/
theorem drainJobs_queue (handler : JobSpec → Bool) (limit : ℕ) (r : MemoryJobRunner) :
    (drainJobs handler limit r).1 = .ok (min limit r.pendingCount)
      ∧ (drainJobs handler limit r).2.queue = r.queue.drop limit := by
  induction limit generalizing r with
  | zero => exact ⟨congrArg Except.ok (Nat.zero_min _).symm, rfl⟩
  | succ limit ih =>
      obtain ⟨queue, running⟩ := r
      cases queue with
      | nil => exact ⟨rfl, rfl⟩
      | cons job queue =>
          obtain ⟨job', r', hcall, hr'⟩ : ∃ job' r',
              (if handler job.record.spec then
                (MemoryJobRunner.dequeue ⟨job :: queue, running⟩).2.complete job.id
              else (MemoryJobRunner.dequeue ⟨job :: queue, running⟩).2.fail job.id)
                = (.ok job', r') ∧ r'.queue = queue := by
            split
            · exact ⟨_, _, MemoryJobRunner.settle_of_running (Function.update_self ..) _, rfl⟩
            · exact ⟨_, _, MemoryJobRunner.settle_of_running (Function.update_self ..) _, rfl⟩
          have hdrain : drainJobs handler (limit + 1) ⟨job :: queue, running⟩
              = ((drainJobs handler limit r').1.map (· + 1), (drainJobs handler limit r').2) := by
            rw [drainJobs, MemoryJobRunner.dequeue]
            simp only [Job.enter_id]
            exact hcall ▸ rfl
          obtain ⟨hcount, hqueue⟩ := ih r'
          rw [hdrain, hcount, hqueue, hr', MemoryJobRunner.pendingCount, hr']
          exact ⟨congrArg Except.ok (Nat.add_min_add_right ..).symm, rfl⟩

/-- The runner, all jobs that were enqueued, those that were dequeued, the records that `complete`
    and `fail` have dropped, and what the worker that dequeued a job was answered when it settled
    it. -/
structure Workload where
  runner : MemoryJobRunner
  enqueued : List JobRecord
  taken : List ℕ
  dropped : List Job
  results : ℕ → List (Except JobError Unit)

inductive Verdict where
  | complete
  | fail
  deriving DecidableEq, Repr

/-- A call of `enqueue`, with the id that is generated for it, one of `dequeue`, one of `complete`
    or `fail` by the worker that has dequeued job `k`, about that job, and one by anybody about any
    id. -/
inductive Label where
  | enqueue (spec : JobSpec) (generated : String)
  | dequeue
  | settle (k : ℕ) (verdict : Verdict)
  | call (id : String) (verdict : Verdict)
  deriving DecidableEq, Repr

def Verdict.state : Verdict → JobState
  | .complete => .completed
  | .fail => .failed

def MemoryJobRunner.answer (r : MemoryJobRunner) (id : String) :
    Verdict → Except JobError Job × MemoryJobRunner
  | .complete => r.complete id
  | .fail => r.fail id

theorem MemoryJobRunner.answer_eq (r : MemoryJobRunner) (id : String) (verdict : Verdict) :
    r.answer id verdict = r.settle id verdict.state := by
  cases verdict with
  | complete => rfl
  | fail => rfl

namespace Workload

def init : Workload := ⟨.new, [], [], [], fun _ => []⟩

/-- The id of job `k`. -/
def idOf (s : Workload) (k : ℕ) : Option String := s.enqueued[k]?.map fun record => record.spec.id

/-- A call of `complete` or `fail` has been answered. -/
def drop (s : Workload) (x : Except JobError Job × MemoryJobRunner) : Workload :=
  { s with
    runner := x.2
    dropped := match x.1 with
      | .ok job => s.dropped ++ [job]
      | .error _ => s.dropped }

/-- The worker of job `k` is answered. -/
def record (s : Workload) (k : ℕ) (result : Except JobError Job) : Workload :=
  { s with results := Function.update s.results k (s.results k ++ [result.map fun _ => ()]) }

def step (s : Workload) : Label → Option Workload
  | .enqueue spec generated =>
      let x := s.runner.enqueue s.enqueued.length spec generated
      some { s with runner := x.2, enqueued := s.enqueued ++ [x.1] }
  | .dequeue =>
      match s.runner.dequeue with
      | (none, _) => some s
      | (some job, runner) => some { s with runner, taken := s.taken ++ [job.seq] }
  | .settle k verdict =>
      if k ∈ s.taken then
        (s.idOf k).map fun id =>
          (s.drop (s.runner.answer id verdict)).record k (s.runner.answer id verdict).1
      else none
  | .call id verdict => some (s.drop (s.runner.answer id verdict))

def Pending (s : Workload) (k : ℕ) : Prop := ∃ job ∈ s.runner.queue, job.seq = k

def Running (s : Workload) (k : ℕ) : Prop := ∃ id job, s.runner.running id = some job ∧ job.seq = k

def Finished (s : Workload) (k : ℕ) : Prop := ∃ job ∈ s.dropped, job.seq = k

/-- Exactly one of three. -/
def Placed (s : Workload) (k : ℕ) : Prop :=
  s.Pending k ∧ ¬ s.Running k ∧ ¬ s.Finished k
    ∨ ¬ s.Pending k ∧ s.Running k ∧ ¬ s.Finished k
    ∨ ¬ s.Pending k ∧ ¬ s.Running k ∧ s.Finished k

/-- The worker of job `k` can still settle it, under its id, or has been answered `Ok` the first
    time and `NotFound` ever after. -/
def Settles (s : Workload) (k : ℕ) : Prop :=
  ∃ id, s.idOf k = some id ∧
    match s.results k with
    | [] => ∃ job, s.runner.running id = some job ∧ job.seq = k
    | first :: rest => first = .ok () ∧ ∀ r ∈ rest, r = .error (.notFound id)

/-- Every job is in one place, jobs are dequeued in the order they were enqueued in, each once, and
    whoever has dequeued one settles it once. -/
structure Accounts (s : Workload) : Prop where
  placed : ∀ k < s.enqueued.length, s.Placed k
  ordered : s.taken = List.range s.taken.length
  settles : ∀ k ∈ s.taken, s.Settles k

/-- A job is dequeued only while no job with its id is running, a worker settles its job again only
    while none is, and nobody else settles a running job. -/
def Distinct (s : Workload) : Label → Prop
  | .enqueue _ _ => True
  | .dequeue => ∀ job ∈ s.runner.queue.head?, s.runner.running job.id = none
  | .settle k _ => s.results k ≠ [] → ∀ id ∈ s.idOf k, s.runner.running id = none
  | .call id _ => s.runner.running id = none

instance (s : Workload) (l : Label) : Decidable (s.Distinct l) :=
  match l with
  | .enqueue _ _ => inferInstanceAs (Decidable True)
  | .dequeue => inferInstanceAs (Decidable (∀ job ∈ s.runner.queue.head?, _))
  | .settle _ _ => inferInstanceAs (Decidable (_ → _))
  | .call _ _ => inferInstanceAs (Decidable (_ = _))

/-! ## One call -/

/-- The record under `id` has been dropped. -/
def finish (s : Workload) (id : String) (job : Job) (verdict : Verdict) : Workload :=
  { s with
    runner := { s.runner with running := Function.update s.runner.running id none }
    dropped := s.dropped ++ [job.enter verdict.state] }

inductive Step (s : Workload) : Label → Workload → Prop where
  | enqueue {spec : JobSpec} {generated : String} (record : JobRecord) :
      Step s (.enqueue spec generated)
        { s with
          runner := { s.runner with queue := s.runner.queue ++ [⟨s.enqueued.length, record⟩] }
          enqueued := s.enqueued ++ [record] }
  | empty (hqueue : s.runner.queue = []) : Step s .dequeue s
  | dequeue {job : Job} {queue : List Job} (hqueue : s.runner.queue = job :: queue) :
      Step s .dequeue
        { s with
          runner := ⟨queue, Function.update s.runner.running job.id (some (job.enter .running))⟩
          taken := s.taken ++ [job.seq] }
  | settle {k : ℕ} {verdict : Verdict} {id : String} {job : Job} (hk : k ∈ s.taken)
      (hid : s.idOf k = some id) (hrun : s.runner.running id = some job) :
      Step s (.settle k verdict) ((s.finish id job verdict).record k (.ok job))
  | unknown {k : ℕ} {verdict : Verdict} {id : String} (hk : k ∈ s.taken)
      (hid : s.idOf k = some id) (hrun : s.runner.running id = none) :
      Step s (.settle k verdict) (s.record k (.error (.notFound id)))
  | call {id : String} {verdict : Verdict} {job : Job} (hrun : s.runner.running id = some job) :
      Step s (.call id verdict) (s.finish id job verdict)
  | missed {id : String} {verdict : Verdict} (hrun : s.runner.running id = none) :
      Step s (.call id verdict) s

variable {s s' : Workload} {l : Label} {k : ℕ} {id : String} {job : Job}

theorem drop_of_running (verdict : Verdict) (h : s.runner.running id = some job) :
    (s.runner.answer id verdict).1 = .ok (job.enter verdict.state)
      ∧ s.drop (s.runner.answer id verdict) = s.finish id job verdict := by
  rw [MemoryJobRunner.answer_eq, MemoryJobRunner.settle_of_running h]
  exact ⟨rfl, rfl⟩

theorem drop_of_none (verdict : Verdict) (h : s.runner.running id = none) :
    (s.runner.answer id verdict).1 = .error (.notFound id)
      ∧ s.drop (s.runner.answer id verdict) = s := by
  rw [MemoryJobRunner.answer_eq, MemoryJobRunner.settle_of_none h]
  exact ⟨rfl, rfl⟩

theorem Step.of_step (h : step s l = some s') : Step s l s' := by
  cases l with
  | enqueue spec generated =>
      obtain rfl := Option.some.inj h
      exact .enqueue _
  | dequeue =>
      rw [step, MemoryJobRunner.dequeue] at h
      cases hqueue : s.runner.queue with
      | nil =>
          rw [hqueue] at h
          obtain rfl := Option.some.inj h
          exact .empty hqueue
      | cons job queue =>
          rw [hqueue] at h
          obtain rfl := Option.some.inj h
          have hstep := Step.dequeue hqueue
          exact hstep
  | settle k verdict =>
      rw [step] at h
      split at h
      · next hk =>
          obtain ⟨id, hid, rfl⟩ := Option.map_eq_some_iff.1 h
          cases hrun : s.runner.running id with
          | some job =>
              obtain ⟨hres, hdrop⟩ := drop_of_running verdict hrun
              rw [hres, hdrop]
              exact .settle hk hid hrun
          | none =>
              obtain ⟨hres, hdrop⟩ := drop_of_none verdict hrun
              rw [hres, hdrop]
              exact .unknown hk hid hrun
      · cases h
  | call id verdict =>
      obtain rfl := Option.some.inj h
      cases hrun : s.runner.running id with
      | some job =>
          rw [(drop_of_running verdict hrun).2]
          exact .call hrun
      | none =>
          rw [(drop_of_none verdict hrun).2]
          exact .missed hrun

/-! ## Where the jobs are -/

/-- What is known of a workload that is accounted for: pending are the jobs from the first one on
    that was not dequeued, running those that their workers have not settled, each under its id, and
    finished those that they have. -/
structure Tracked (s : Workload) : Prop where
  queue : s.runner.queue.map Job.seq = List.range' s.taken.length s.runner.queue.length
  count : s.taken.length + s.runner.queue.length = s.enqueued.length
  taken : s.taken = List.range s.taken.length
  pending : ∀ job ∈ s.runner.queue, s.idOf job.seq = some job.id
  running : ∀ id job, s.runner.running id = some job →
    job.seq < s.taken.length ∧ s.idOf job.seq = some id ∧ s.results job.seq = []
  dropped : ∀ job ∈ s.dropped, job.seq < s.taken.length ∧ s.results job.seq ≠ []
  settled : ∀ k < s.taken.length, s.results k ≠ [] → s.Finished k
  untouched : ∀ k, s.taken.length ≤ k → s.results k = []

theorem Tracked.mem_taken (h : s.Tracked) : k ∈ s.taken ↔ k < s.taken.length := by
  conv_lhs => rw [h.taken]
  exact List.mem_range

theorem Tracked.pending_iff (h : s.Tracked) :
    s.Pending k ↔ s.taken.length ≤ k ∧ k < s.enqueued.length := by
  rw [Pending, ← List.mem_map, h.queue, List.mem_range'_1, h.count]

theorem Settles.running (hset : s.Settles k) (hk : s.results k = []) :
    ∃ id job, s.idOf k = some id ∧ s.runner.running id = some job ∧ job.seq = k := by
  obtain ⟨id, hid, h⟩ := hset
  rw [hk] at h
  obtain ⟨job, hrun, hseq⟩ := h
  exact ⟨id, job, hid, hrun, hseq⟩

theorem Tracked.placed (h : s.Tracked) (hset : ∀ k ∈ s.taken, s.Settles k)
    (hk : k < s.enqueued.length) : s.Placed k := by
  have hrunning : s.Running k → k < s.taken.length ∧ s.results k = [] := by
    rintro ⟨id, job, hrun, rfl⟩
    exact ⟨(h.running id job hrun).1, (h.running id job hrun).2.2⟩
  have hfinished : s.Finished k → k < s.taken.length ∧ s.results k ≠ [] := by
    rintro ⟨job, hjob, rfl⟩
    exact h.dropped job hjob
  by_cases htaken : k < s.taken.length
  · have hpending : ¬ s.Pending k := fun hp => absurd (h.pending_iff.1 hp).1 (by omega)
    by_cases hres : s.results k = []
    · obtain ⟨id, job, -, hrun, hseq⟩ := (hset k (h.mem_taken.2 htaken)).running hres
      exact .inr (.inl ⟨hpending, ⟨id, job, hrun, hseq⟩, fun hf => (hfinished hf).2 hres⟩)
    · exact .inr (.inr ⟨hpending, fun hr => hres (hrunning hr).2, h.settled k htaken hres⟩)
  · exact .inl ⟨h.pending_iff.2 ⟨by omega, hk⟩, fun hr => htaken (hrunning hr).1,
      fun hf => htaken (hfinished hf).1⟩

theorem Tracked.accounts (h : s.Tracked) (hset : ∀ k ∈ s.taken, s.Settles k) : s.Accounts :=
  ⟨fun _ hk => h.placed hset hk, h.taken, hset⟩

/-! ## What a call does to that -/

/-- What the worker of job `k` has been told and can still do does not depend on the jobs of
    others. -/
theorem Settles.congr (h : s.Settles k) (hid : s'.idOf k = s.idOf k)
    (hres : s'.results k = s.results k)
    (hrun : ∀ id job, s.idOf k = some id → s.runner.running id = some job → job.seq = k →
      s'.runner.running id = some job) : s'.Settles k := by
  obtain ⟨id, hk, h⟩ := h
  refine ⟨id, hid.trans hk, ?_⟩
  rw [hres]
  cases hs : s.results k with
  | nil =>
      rw [hs] at h
      obtain ⟨job, hjob, hseq⟩ := h
      exact ⟨job, hrun id job hk hjob hseq, hseq⟩
  | cons first rest =>
      rw [hs] at h
      exact h

theorem idOf_append {record : JobRecord} (runner : MemoryJobRunner) (hk : k < s.enqueued.length) :
    idOf { s with runner, enqueued := s.enqueued ++ [record] } k = s.idOf k := by
  rw [idOf, idOf, List.getElem?_append_left hk]

theorem Tracked.enqueue (h : s.Tracked) (hset : ∀ k ∈ s.taken, s.Settles k) (record : JobRecord) :
    let s' : Workload := { s with
      runner := { s.runner with queue := s.runner.queue ++ [⟨s.enqueued.length, record⟩] }
      enqueued := s.enqueued ++ [record] }
    s'.Tracked ∧ ∀ k ∈ s'.taken, s'.Settles k := by
  intro s'
  have hcount := h.count
  have hid : ∀ k, k < s.enqueued.length → s'.idOf k = s.idOf k := fun k hk => idOf_append _ hk
  have hnew : s'.idOf s.enqueued.length = some record.spec.id := by
    rw [idOf, List.getElem?_concat_length]
    rfl
  refine ⟨⟨?_, ?_, h.taken, ?_, ?_, h.dropped, h.settled, h.untouched⟩, fun k hk => ?_⟩
  · simp only [s', List.map_append, List.length_append, List.map_cons, List.map_nil,
      List.length_cons, List.length_nil, h.queue, List.range'_1_concat, hcount]
  · simp only [s', List.length_append, List.length_cons, List.length_nil]
    omega
  · intro job hjob
    rcases List.mem_append.1 hjob with hjob | hjob
    · have hlt := (h.pending_iff.1 ⟨job, hjob, rfl⟩).2
      exact (hid _ hlt).trans (h.pending job hjob)
    · obtain rfl := List.mem_singleton.1 hjob
      exact hnew
  · intro id job hrun
    obtain ⟨hlt, hown, hres⟩ := h.running id job hrun
    exact ⟨hlt, (hid _ (by omega)).trans hown, hres⟩
  · have hlt := h.mem_taken.1 hk
    exact (hset k hk).congr (hid k (by omega)) rfl fun _ _ _ hrun _ => hrun

theorem Tracked.head (h : s.Tracked) {queue : List Job} (hqueue : s.runner.queue = job :: queue) :
    job.seq = s.taken.length ∧ s.idOf job.seq = some job.id
      ∧ queue.map Job.seq = List.range' (s.taken.length + 1) queue.length := by
  have hseqs := h.queue
  rw [hqueue, List.map_cons, List.length_cons, List.range'_succ] at hseqs
  exact ⟨(List.cons.inj hseqs).1, h.pending job (hqueue ▸ List.mem_cons_self ..),
    (List.cons.inj hseqs).2⟩

theorem Tracked.dequeue (h : s.Tracked) (hset : ∀ k ∈ s.taken, s.Settles k) {queue : List Job}
    (hqueue : s.runner.queue = job :: queue) (hfree : s.runner.running job.id = none) :
    let s' : Workload := { s with
      runner := ⟨queue, Function.update s.runner.running job.id (some (job.enter .running))⟩
      taken := s.taken ++ [job.seq] }
    s'.Tracked ∧ ∀ k ∈ s'.taken, s'.Settles k := by
  intro s'
  obtain ⟨hseq, hown, hqueue'⟩ := h.head hqueue
  have hcount := h.count
  rw [hqueue, List.length_cons] at hcount
  have hlen : s'.taken.length = s.taken.length + 1 := by simp [s']
  have hres : s.results job.seq = [] := h.untouched _ hseq.ge
  refine ⟨⟨?_, ?_, ?_, ?_, ?_, ?_, ?_, ?_⟩, fun k hk => ?_⟩
  · rw [hlen]
    exact hqueue'
  · rw [hlen]
    show s.taken.length + 1 + queue.length = s.enqueued.length
    omega
  · rw [hlen, List.range_succ, ← h.taken, ← hseq]
  · exact fun job' hjob' => h.pending job' (hqueue ▸ List.mem_cons_of_mem _ hjob')
  · intro id job' hrun
    rw [hlen]
    by_cases hid : id = job.id
    · subst hid
      have hself : s'.runner.running job.id = some (job.enter .running) := Function.update_self ..
      obtain rfl := Option.some.inj (hself.symm.trans hrun)
      exact ⟨by rw [Job.enter_seq]; omega, hown, hres⟩
    · obtain ⟨hlt, hown', hres'⟩ :=
        h.running id job' ((Function.update_of_ne hid ..).symm.trans hrun)
      exact ⟨by omega, hown', hres'⟩
  · intro job' hjob'
    rw [hlen]
    exact ⟨Nat.lt_succ_of_lt (h.dropped job' hjob').1, (h.dropped job' hjob').2⟩
  · intro k hk hne
    rw [hlen] at hk
    refine h.settled k (Nat.lt_of_le_of_ne (Nat.le_of_lt_succ hk) fun heq => hne ?_) hne
    exact h.untouched k heq.ge
  · intro k hk
    rw [hlen] at hk
    exact h.untouched k (by omega)
  · rcases List.mem_append.1 hk with hk | hk
    · refine (hset k hk).congr rfl rfl fun id job' hid hrun _ => ?_
      -- the job of `k` is running under its id, and nothing is under the id of `job`
      have hne : id ≠ job.id := fun heq => by
        rw [heq, hfree] at hrun
        cases hrun
      exact (Function.update_of_ne hne ..).trans hrun
    · obtain rfl := List.mem_singleton.1 hk
      refine ⟨job.id, hown, ?_⟩
      rw [show s'.results job.seq = [] from hres]
      exact ⟨job.enter .running, Function.update_self .., rfl⟩

theorem Tracked.finish (h : s.Tracked) (hset : ∀ k ∈ s.taken, s.Settles k) {verdict : Verdict}
    (hid : s.idOf job.seq = some id) (hrun : s.runner.running id = some job) :
    let s' := (s.finish id job verdict).record job.seq (.ok job)
    s'.Tracked ∧ ∀ k ∈ s'.taken, s'.Settles k := by
  intro s'
  obtain ⟨hlt, -, hres⟩ := h.running id job hrun
  have hself : s'.results job.seq = [.ok ()] := by
    rw [show s'.results job.seq = s.results job.seq ++ [.ok ()] from Function.update_self .., hres]
    rfl
  have hother : ∀ k, k ≠ job.seq → s'.results k = s.results k :=
    fun k hk => Function.update_of_ne hk ..
  refine ⟨⟨h.queue, h.count, h.taken, h.pending, ?_, ?_, ?_, ?_⟩, fun k hk => ?_⟩
  · intro id' job' hrun'
    have hne : id' ≠ id := fun heq => by
      rw [heq, show s'.runner.running id = none from Function.update_self ..] at hrun'
      cases hrun'
    obtain ⟨hlt', hown', hres'⟩ :=
      h.running id' job' ((Function.update_of_ne hne ..).symm.trans hrun')
    refine ⟨hlt', hown', (hother _ fun heq => hne ?_).trans hres'⟩
    rw [heq, hid] at hown'
    exact (Option.some.inj hown').symm
  · intro job' hjob'
    rcases List.mem_append.1 hjob' with hjob' | hjob'
    · obtain ⟨hlt', hres'⟩ := h.dropped job' hjob'
      have hne : job'.seq ≠ job.seq := fun heq => hres' (by rw [heq, hres])
      exact ⟨hlt', hother _ hne ▸ hres'⟩
    · obtain rfl := List.mem_singleton.1 hjob'
      refine ⟨hlt, ?_⟩
      rw [Job.enter_seq, hself]
      exact List.cons_ne_nil _ _
  · intro k hk hne
    by_cases heq : k = job.seq
    · exact ⟨job.enter verdict.state, List.mem_append_right _ (List.mem_singleton_self _), heq.symm⟩
    · obtain ⟨job', hjob', hseq⟩ := h.settled k hk (hother k heq ▸ hne)
      exact ⟨job', List.mem_append_left _ hjob', hseq⟩
  · intro k hk
    exact (hother k fun heq => absurd hlt (by rw [← heq]; exact Nat.not_lt.2 hk)).trans
      (h.untouched k hk)
  · by_cases heq : k = job.seq
    · subst heq
      refine ⟨id, hid, ?_⟩
      rw [hself]
      exact ⟨rfl, fun r hr => absurd hr List.not_mem_nil⟩
    · refine (hset k hk).congr rfl (hother k heq) fun id' job' _ hrun' hseq => ?_
      have hne : id' ≠ id := fun hid' => by
        rw [hid', hrun] at hrun'
        exact heq (Option.some.inj hrun' ▸ hseq.symm)
      exact (Function.update_of_ne hne ..).trans hrun'

theorem Tracked.unknown (h : s.Tracked) (hset : ∀ k ∈ s.taken, s.Settles k) (hk : k ∈ s.taken)
    (hid : s.idOf k = some id) (hrun : s.runner.running id = none) :
    let s' := s.record k (.error (.notFound id))
    s'.Tracked ∧ ∀ k ∈ s'.taken, s'.Settles k := by
  intro s'
  have hself : s'.results k = s.results k ++ [.error (.notFound id)] := Function.update_self ..
  have hother : ∀ j, j ≠ k → s'.results j = s.results j := fun j hj => Function.update_of_ne hj ..
  -- the job is not running, so it has been settled
  obtain ⟨first, rest, hres⟩ : ∃ first rest, s.results k = first :: rest := by
    cases hres : s.results k with
    | cons first rest => exact ⟨first, rest, rfl⟩
    | nil =>
        obtain ⟨id', job, hid', hjob, -⟩ := (hset k hk).running hres
        rw [hid, Option.some.injEq] at hid'
        rw [← hid', hrun] at hjob
        cases hjob
  have hne : s.results k ≠ [] := hres ▸ List.cons_ne_nil _ _
  have hne' : s'.results k ≠ [] := hself ▸ List.append_ne_nil_of_left_ne_nil hne _
  refine ⟨⟨h.queue, h.count, h.taken, h.pending, ?_, ?_, ?_, ?_⟩, fun j hj => ?_⟩
  · intro id' job hjob
    obtain ⟨hlt, hown, hnil⟩ := h.running id' job hjob
    exact ⟨hlt, hown, (hother _ fun heq => hne (heq ▸ hnil)).trans hnil⟩
  · intro job hjob
    obtain ⟨hlt, hsome⟩ := h.dropped job hjob
    refine ⟨hlt, ?_⟩
    by_cases heq : job.seq = k
    · exact heq ▸ hne'
    · exact hother _ heq ▸ hsome
  · intro j hj hsome
    by_cases heq : j = k
    · exact h.settled j hj (heq ▸ hne)
    · exact h.settled j hj (hother j heq ▸ hsome)
  · intro j hj
    exact (hother j fun heq => hne (heq ▸ h.untouched j hj)).trans (h.untouched j hj)
  · by_cases heq : j = k
    · subst heq
      obtain ⟨id', hid', hset⟩ := hset j hj
      rw [hres] at hset
      refine ⟨id', hid', ?_⟩
      rw [hself, hres]
      refine ⟨hset.1, fun r hr => ?_⟩
      rcases List.mem_append.1 hr with hr | hr
      · exact hset.2 r hr
      · rw [List.mem_singleton.1 hr, Option.some.inj (hid.symm.trans hid')]
    · exact (hset j hj).congr rfl (hother j heq) fun _ _ _ hrun' _ => hrun'

theorem Step.tracked (hstep : Step s l s') (h : s.Tracked) (hset : ∀ k ∈ s.taken, s.Settles k)
    (hdistinct : s.Distinct l) : s'.Tracked ∧ ∀ k ∈ s'.taken, s'.Settles k := by
  cases hstep with
  | enqueue record => exact h.enqueue hset record
  | empty _ => exact ⟨h, hset⟩
  | dequeue hqueue =>
      exact h.dequeue hset hqueue (hdistinct _ (by rw [hqueue]; rfl))
  | @settle k verdict id job hk hid hrun =>
      -- it is the first answer, and so the job in the map is the worker's own
      have hres : s.results k = [] := by
        by_contra hne
        rw [hdistinct hne id hid] at hrun
        cases hrun
      obtain ⟨id', job', hid', hjob', rfl⟩ := (hset k hk).running hres
      rw [hid, Option.some.injEq] at hid'
      rw [← hid', hrun, Option.some.injEq] at hjob'
      subst hjob'
      exact h.finish hset hid hrun
  | unknown hk hid hrun => exact h.unknown hset hk hid hrun
  | call hrun => exact absurd (hrun.symm.trans hdistinct) (by simp)
  | missed _ => exact ⟨h, hset⟩

/-- A call that is not `Distinct` is the end of the accounts. -/
theorem Step.distinct (hstep : Step s l s') (h : s.Tracked) (haccounts : s'.Accounts) :
    s.Distinct l := by
  cases hstep with
  | enqueue _ => trivial
  | empty hqueue => exact fun job hjob => by rw [hqueue] at hjob; cases hjob
  | @dequeue job queue hqueue =>
      intro job' hjob'
      rw [hqueue] at hjob'
      obtain rfl := Option.some.inj hjob'
      by_contra hsome
      obtain ⟨old, hold⟩ := Option.ne_none_iff_exists'.1 hsome
      obtain ⟨hlt, hown, hres⟩ := h.running _ old hold
      -- the job that was running under this id can no longer be settled
      have hmem : old.seq ∈ s.taken ++ [job.seq] := List.mem_append_left _ (h.mem_taken.2 hlt)
      obtain ⟨id, found, hid, hfound, hseq⟩ := (haccounts.settles old.seq hmem).running hres
      obtain rfl : job.id = id := Option.some.inj (hown.symm.trans hid)
      have hself : Function.update s.runner.running job.id (some (job.enter .running)) job.id
          = some found := hfound
      rw [Function.update_self, Option.some.injEq] at hself
      have hhead := (h.head hqueue).1
      rw [← hself, Job.enter_seq] at hseq
      omega
  | @settle k verdict id job hk hid hrun =>
      intro hne
      exfalso
      obtain ⟨first, rest, hres⟩ := List.exists_cons_of_ne_nil hne
      obtain ⟨_, _, hset⟩ := haccounts.settles k hk
      have hself : ((s.finish id job verdict).record k (.ok job)).results k
          = first :: (rest ++ [.ok ()]) := by
        rw [← List.cons_append, ← hres]
        exact Function.update_self ..
      rw [hself] at hset
      cases hset.2 (.ok ()) (List.mem_append_right _ (List.mem_singleton_self _))
  | unknown _ hid hrun =>
      intro _ id' hid'
      obtain rfl := Option.some.inj (hid.symm.trans hid')
      exact hrun
  | @call id verdict job hrun =>
      exfalso
      obtain ⟨hlt, hown, hres⟩ := h.running id job hrun
      obtain ⟨id', found, hid', hfound, -⟩ :=
        (haccounts.settles job.seq (h.mem_taken.2 hlt)).running hres
      obtain rfl := Option.some.inj (hown.symm.trans hid')
      rw [show (s.finish id job verdict).runner.running id = none from Function.update_self ..]
        at hfound
      cases hfound
  | missed hrun => exact hrun

theorem tracked_init : init.Tracked where
  queue := rfl
  count := rfl
  taken := rfl
  pending := fun _ hjob => absurd hjob List.not_mem_nil
  running := fun _ _ hrun => by cases hrun
  dropped := fun _ hjob => absurd hjob List.not_mem_nil
  settled := fun _ hk => absurd hk (Nat.not_lt_zero _)
  untouched := fun _ _ => rfl

/-- **Every job is accounted for exactly as long as no call mixes up two jobs**: along every
    interleaving of calls, each job is pending, running or finished, jobs are dequeued in order, and
    their workers settle them once. -/
theorem accounts_iff_distinct {ls : List Label} {s' : Workload}
    (hrun : run step init ls = some s') :
    Throughout step Accounts init ls ↔ Along step Distinct init ls := by
  refine throughout_iff_along (I := Tracked) (fun s l s' h hacc hacc' hstep => ?_)
    (fun s l s' h hacc hstep => ?_) tracked_init ?_ hrun
  · have hstep := Step.of_step hstep
    exact (hstep.tracked h hacc.settles (hstep.distinct h hacc')).1
  · have hstep := Step.of_step hstep
    refine ⟨hstep.distinct h, fun hdistinct => ?_⟩
    obtain ⟨htracked, hset⟩ := hstep.tracked h hacc.settles hdistinct
    exact htracked.accounts hset
  · exact tracked_init.accounts fun _ hk => absurd hk List.not_mem_nil

/-- Two workers with two jobs, settled crosswise, one of them twice, and the id of the first job
    used again for a third one. -/
theorem accounts_iff_distinct_two :
    Throughout step Accounts init
      [.enqueue ⟨"a", "x", [], none⟩ "", .enqueue ⟨"", "y", [], none⟩ "b", .dequeue, .dequeue,
        .settle 1 .fail, .settle 0 .complete, .settle 0 .fail, .call "c" .complete,
        .enqueue ⟨"a", "z", [1], none⟩ "", .dequeue, .dequeue] :=
  (accounts_iff_distinct rfl).2 (by decide +kernel)

/-- Two jobs with one id are dequeued one after the other, and the first one is in no place. -/
theorem not_always_accounts :
    ¬ ∀ (ls : List Label) (s' : Workload), run step init ls = some s' →
      Throughout step Accounts init ls := by
  intro h
  have hrun := h [.enqueue ⟨"a", "x", [], none⟩ "", .enqueue ⟨"a", "y", [], none⟩ "", .dequeue,
    .dequeue] _ rfl
  obtain ⟨id, hid, job, hjob, hseq⟩ := (hrun.last rfl).settles 0 (by decide)
  obtain rfl := Option.some.inj hid
  obtain rfl := Option.some.inj hjob
  cases hseq

end Workload

end IdEffect.Jobs
