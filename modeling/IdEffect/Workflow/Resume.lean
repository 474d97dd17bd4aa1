import IdEffect.Lib.Transition
import IdEffect.Workflow.Journal

set_option autoImplicit false

/-! # Resuming a workflow

A workflow is a tree of `run_step_typed` calls. A process runs it micro-step by micro-step and may
crash between any two of them; it then starts again from the root, on the journal as it was left.

Two facts carry the argument. What has been executed since the last start is a part of the tree that
the journal replays without a change (`Replays`). And a commit does not change what a run from the
root results in (`run_commit`): up to the step that is committed the journal replays as before, and
from there on the run finds the output where it would have computed it. So every attempt, whichever
records it finds, results in what a run without a crash results in. -/

namespace IdEffect.Workflow

open Transition

variable {Ty J R : Type} {Val : Ty → Type}

/-! ## Programs -/

/-- `compute` is what the closure of a step returns; what comes next depends on the result of the
    call. -/
inductive Prog (Val : Ty → Type) (R : Type) where
  | done (result : R)
  | step (ty : Ty) (seq : ℕ) (compute : Except WorkflowError (Val ty))
      (next : Except WorkflowError (Val ty) → Prog Val R)

namespace Prog

/-- A run without a crash: one call after the other. -/
def run (serde : ∀ ty, Serde (Val ty) J) (id : String) : Prog Val R → Journal J → R × Journal J
  | .done result, journal => (result, journal)
  | .step ty seq compute next, journal =>
      let out := runStepTyped (serde ty) journal id seq compute
      run serde id (next out.1) out.2

/-- No path has a sequence number twice, or one of those in `seen`. -/
def Distinct : List ℕ → Prog Val R → Prop
  | _, .done _ => True
  | seen, .step _ seq _ next => seq ∉ seen ∧ ∀ out, Distinct (seq :: seen) (next out)

/-- The outputs of all steps round-trip. -/
def RoundTrips (serde : ∀ ty, Serde (Val ty) J) : Prog Val R → Prop
  | .done _ => True
  | .step ty _ compute next =>
      (∀ value, compute = .ok value → (serde ty).RoundTrips value)
        ∧ ∀ out, RoundTrips serde (next out)

end Prog

/-! ## Processes -/

/-- A call of `run_step_typed`, and what comes after it. -/
structure Call (Val : Ty → Type) (R : Type) where
  ty : Ty
  seq : ℕ
  compute : Except WorkflowError (Val ty)
  next : Except WorkflowError (Val ty) → Prog Val R

/-- Where an attempt is: at the root of what is left of the program, or inside a call. The row that
    SQLite has inserted is not in the tables before its transaction is committed. -/
inductive Phase (Val : Ty → Type) (J R : Type) where
  | ready (prog : Prog Val R)
  | registered (call : Call Val R)
  | computing (call : Call Val R)
  | computed (call : Call Val R) (value : Val call.ty)
  | encoded (call : Call Val R) (value : Val call.ty) (json : J)
  | inserted (call : Call Val R) (value : Val call.ty) (json : J)
  | committed (call : Call Val R) (value : Val call.ty)

/-- `before` is the journal that the last call found, `ran` lists the steps whose closure was
    called, over all attempts. -/
structure Process (Val : Ty → Type) (J R : Type) where
  journal : Journal J
  phase : Phase Val J R
  before : Journal J
  ran : List ℕ

inductive Label where
  | tick
  | crash
  deriving DecidableEq, Repr

def Process.start (prog : Prog Val R) (journal : Journal J) : Process Val J R :=
  ⟨journal, .ready prog, journal, []⟩

/-- Record an output. The call has found its workflow registered, and that it stays. -/
def Journal.record (journal : Journal J) (id : String) (seq : ℕ) (json : J) : Journal J :=
  if h : id ∈ journal.registered then journal.insert id seq json h else journal

section Step

variable (backend : Backend) (serde : ∀ ty, Serde (Val ty) J) (id : String) (prog : Prog Val R)

def Process.tick (s : Process Val J R) : Option (Process Val J R) :=
  match s.phase with
  | .ready (.done _) => none
  | .ready (.step ty seq compute next) =>
      if hasWorkflow s.journal id then
        some { s with phase := .registered ⟨ty, seq, compute, next⟩, before := s.journal }
      else
        some { s with phase := .ready (next (.error (.unknownWorkflow id))), before := s.journal }
  | .registered call =>
      match s.journal.get id call.seq with
      | some json => some { s with phase := .ready (call.next (decodeOutput (serde call.ty) json)) }
      | none => some { s with phase := .computing call, ran := call.seq :: s.ran }
  | .computing call =>
      match call.compute with
      | .error e => some { s with phase := .ready (call.next (.error e)) }
      | .ok value => some { s with phase := .computed call value }
  | .computed call value =>
      match encodeOutput (serde call.ty) value with
      | .error e => some { s with phase := .ready (call.next (.error e)) }
      | .ok json => some { s with phase := .encoded call value json }
  | .encoded call value json =>
      match backend with
      | .stub =>
          some { s with
            journal := s.journal.record id call.seq json, phase := .committed call value }
      | .sqlite => some { s with phase := .inserted call value json }
  | .inserted call value json =>
      some { s with journal := s.journal.record id call.seq json, phase := .committed call value }
  | .committed call value => some { s with phase := .ready (call.next (.ok value)) }

/-- A crash leaves the journal, and the next attempt starts from the root. -/
def Process.step (s : Process Val J R) : Label → Option (Process Val J R)
  | .tick => s.tick backend serde id
  | .crash => some { s with phase := .ready prog }

end Step

def Call.prog (call : Call Val R) : Prog Val R := .step call.ty call.seq call.compute call.next

/-- What a tick does: a call begins, goes on or returns with the journal as it is, or it commits. -/
inductive Process.Step (backend : Backend) (serde : ∀ ty, Serde (Val ty) J) (id : String)
    (s : Process Val J R) : Process Val J R → Prop where
  | begun {call : Call Val R} (hphase : s.phase = .ready call.prog)
      (hreg : id ∈ s.journal.registered) :
      Step backend serde id s { s with phase := .registered call, before := s.journal }
  | unknown {call : Call Val R} (hphase : s.phase = .ready call.prog)
      (hreg : id ∉ s.journal.registered) :
      Step backend serde id s { s with
        phase := .ready (call.next (.error (.unknownWorkflow id))), before := s.journal }
  | found {call : Call Val R} {json : J} (hphase : s.phase = .registered call)
      (hget : s.journal.get id call.seq = some json) :
      Step backend serde id s { s with
        phase := .ready (call.next (decodeOutput (serde call.ty) json)) }
  | called {call : Call Val R} (hphase : s.phase = .registered call)
      (hnone : s.journal.get id call.seq = none) :
      Step backend serde id s { s with phase := .computing call, ran := call.seq :: s.ran }
  | failed {call : Call Val R} {e : WorkflowError} (hphase : s.phase = .computing call)
      (hcompute : call.compute = .error e) :
      Step backend serde id s { s with phase := .ready (call.next (.error e)) }
  | computed {call : Call Val R} {value : Val call.ty} (hphase : s.phase = .computing call)
      (hcompute : call.compute = .ok value) :
      Step backend serde id s { s with phase := .computed call value }
  | unencodable {call : Call Val R} {value : Val call.ty} {e : WorkflowError}
      (hphase : s.phase = .computed call value)
      (hencode : encodeOutput (serde call.ty) value = .error e) :
      Step backend serde id s { s with phase := .ready (call.next (.error e)) }
  | encoded {call : Call Val R} {value : Val call.ty} {json : J}
      (hphase : s.phase = .computed call value)
      (hencode : encodeOutput (serde call.ty) value = .ok json) :
      Step backend serde id s { s with phase := .encoded call value json }
  | inserted {call : Call Val R} {value : Val call.ty} {json : J} (hbackend : backend = .sqlite)
      (hphase : s.phase = .encoded call value json) :
      Step backend serde id s { s with phase := .inserted call value json }
  | committed {call : Call Val R} {value : Val call.ty} {json : J}
      (hphase : backend = .stub ∧ s.phase = .encoded call value json
        ∨ s.phase = .inserted call value json) :
      Step backend serde id s { s with
        journal := s.journal.record id call.seq json, phase := .committed call value }
  | returned {call : Call Val R} {value : Val call.ty} (hphase : s.phase = .committed call value) :
      Step backend serde id s { s with phase := .ready (call.next (.ok value)) }

theorem Process.Step.of_tick {backend : Backend} {serde : ∀ ty, Serde (Val ty) J} {id : String}
    {s s' : Process Val J R} (h : s.tick backend serde id = some s') :
    s.Step backend serde id s' := by
  obtain ⟨journal, phase, before, ran⟩ := s
  cases phase with
  | ready rest =>
      cases rest with
      | done result => cases h
      | step ty seq compute next =>
          simp only [Process.tick, hasWorkflow, decide_eq_true_eq] at h
          split_ifs at h with hreg
          · obtain rfl := Option.some.inj h
            exact @begun _ _ _ _ _ _ _ _ ⟨ty, seq, compute, next⟩ rfl hreg
          · obtain rfl := Option.some.inj h
            exact @unknown _ _ _ _ _ _ _ _ ⟨ty, seq, compute, next⟩ rfl hreg
  | registered call =>
      simp only [Process.tick] at h
      cases hget : journal.get id call.seq with
      | some json =>
          rw [hget] at h
          obtain rfl := Option.some.inj h
          exact .found rfl hget
      | none =>
          rw [hget] at h
          obtain rfl := Option.some.inj h
          exact .called rfl hget
  | computing call =>
      simp only [Process.tick] at h
      cases hcompute : call.compute with
      | error e =>
          rw [hcompute] at h
          obtain rfl := Option.some.inj h
          exact .failed rfl hcompute
      | ok value =>
          rw [hcompute] at h
          obtain rfl := Option.some.inj h
          exact .computed rfl hcompute
  | computed call value =>
      simp only [Process.tick] at h
      cases hencode : encodeOutput (serde call.ty) value with
      | error e =>
          rw [hencode] at h
          obtain rfl := Option.some.inj h
          exact .unencodable rfl hencode
      | ok json =>
          rw [hencode] at h
          obtain rfl := Option.some.inj h
          exact .encoded rfl hencode
  | encoded call value json =>
      cases backend with
      | stub =>
          obtain rfl := Option.some.inj h
          exact .committed (.inl ⟨rfl, rfl⟩)
      | sqlite =>
          obtain rfl := Option.some.inj h
          exact .inserted rfl rfl
  | inserted call value json =>
      obtain rfl := Option.some.inj h
      exact .committed (.inr rfl)
  | committed call value =>
      obtain rfl := Option.some.inj h
      exact .returned rfl

/-! ## Replaying -/

/-- From `prog` to what is left of it, `rest`, every call is answered from the journal, or fails:
    the journal is left as it is. -/
inductive Replays (serde : ∀ ty, Serde (Val ty) J) (id : String) (journal : Journal J) :
    Prog Val R → Prog Val R → Prop where
  | refl (prog : Prog Val R) : Replays serde id journal prog prog
  | step {ty : Ty} {seq : ℕ} {compute out : Except WorkflowError (Val ty)}
      {next : Except WorkflowError (Val ty) → Prog Val R} {rest : Prog Val R}
      (hcall : runStepTyped (serde ty) journal id seq compute = (out, journal))
      (h : Replays serde id journal (next out) rest) :
      Replays serde id journal (.step ty seq compute next) rest

section Replays

variable {serde : ∀ ty, Serde (Val ty) J} {id : String} {journal : Journal J}
variable {prog rest : Prog Val R} {call : Call Val R}

theorem Replays.snoc {out : Except WorkflowError (Val call.ty)}
    (h : Replays serde id journal prog call.prog)
    (hcall : runStepTyped (serde call.ty) journal id call.seq call.compute = (out, journal)) :
    Replays serde id journal prog (call.next out) := by
  generalize hrest : call.prog = rest at h
  induction h with
  | refl prog =>
      subst hrest
      exact .step hcall (.refl _)
  | step hfirst _ ih => exact .step hfirst (ih hrest)

/-- A run goes through what is replayed. -/
theorem Replays.run_eq (h : Replays serde id journal prog rest) :
    prog.run serde id journal = rest.run serde id journal := by
  induction h with
  | refl prog => rfl
  | step hcall _ ih => rw [Prog.run, hcall, ih]

theorem Replays.seq_notMem {seen : List ℕ} (h : Replays serde id journal prog call.prog)
    (hdistinct : prog.Distinct seen) : call.seq ∉ seen := by
  generalize hrest : call.prog = rest at h
  induction h generalizing seen with
  | refl prog =>
      subst hrest
      exact hdistinct.1
  | step _ _ ih =>
      exact fun hmem => ih (hdistinct.2 _) hrest (List.mem_cons_of_mem _ hmem)

theorem Replays.roundTrips (h : Replays serde id journal prog call.prog)
    (hprog : prog.RoundTrips serde) {value : Val call.ty} (hvalue : call.compute = .ok value) :
    (serde call.ty).RoundTrips value := by
  generalize hrest : call.prog = rest at h
  induction h with
  | refl prog =>
      subst hrest
      exact hprog.1 value hvalue
  | step _ _ ih => exact ih (hprog.2 _) hrest

/-- What comes before a step is replayed as well when the step is recorded. -/
theorem Replays.insert {seen : List ℕ} (h : Replays serde id journal prog call.prog)
    (hdistinct : prog.Distinct seen) (hreg : id ∈ journal.registered) (json : J) :
    Replays serde id (journal.insert id call.seq json hreg) prog call.prog := by
  generalize hrest : call.prog = rest at h
  induction h generalizing seen with
  | refl prog => exact .refl prog
  | step hcall h ih =>
      have hne := (hrest ▸ h : Replays _ _ _ _ call.prog).seq_notMem (hdistinct.2 _)
      refine .step (runStepTyped_insert hreg (fun heq => hne ?_) hcall) (ih (hdistinct.2 _) hrest)
      rw [heq]
      exact List.mem_cons_self ..

/-- **A commit** does not change what a run from the root results in. -/
theorem run_commit {value : Val call.ty} {json : J} (h : Replays serde id journal prog call.prog)
    (hdistinct : prog.Distinct []) (hreg : id ∈ journal.registered)
    (hnone : journal.get id call.seq = none) (hvalue : call.compute = .ok value)
    (hencode : encodeOutput (serde call.ty) value = .ok json)
    (hdecode : decodeOutput (serde call.ty) json = .ok value) :
    Replays serde id (journal.insert id call.seq json hreg) prog (call.next (.ok value))
      ∧ prog.run serde id (journal.insert id call.seq json hreg) = prog.run serde id journal := by
  have hfound : runStepTyped (serde call.ty) (journal.insert id call.seq json hreg) id call.seq
      call.compute = (.ok value, journal.insert id call.seq json hreg) := by
    rw [← hdecode]
    refine runStepTyped_recorded hreg ?_
    rw [Journal.get_insert, if_pos rfl]
  have hreplays := (h.insert hdistinct hreg json).snoc hfound
  refine ⟨hreplays, ?_⟩
  -- both runs reach the step, and go on from its value with its output recorded
  rw [hreplays.run_eq, h.run_eq, Call.prog, Prog.run,
    runStepTyped_computed hreg hnone hvalue hencode]

end Replays

/-! ## What a process knows -/

/-- What is left of the program. -/
def Phase.rest : Phase Val J R → Prog Val R
  | .ready prog => prog
  | .registered call | .computing call | .computed call _ | .encoded call _ _
  | .inserted call _ _ => call.prog
  | .committed call value => call.next (.ok value)

/-- The call that has begun and not committed. -/
def Phase.uncommitted : Phase Val J R → Option (Call Val R)
  | .ready _ | .committed _ _ => none
  | .registered call | .computing call | .computed call _ | .encoded call _ _
  | .inserted call _ _ => some call

/-- What a call has found out so far. -/
def Phase.Knows (serde : ∀ ty, Serde (Val ty) J) (id : String) (journal : Journal J) :
    Phase Val J R → Prop
  | .ready _ | .committed _ _ => True
  | .registered _ => id ∈ journal.registered
  | .computing call => id ∈ journal.registered ∧ journal.get id call.seq = none
  | .computed call value =>
      id ∈ journal.registered ∧ journal.get id call.seq = none ∧ call.compute = .ok value
  | .encoded call value json | .inserted call value json =>
      id ∈ journal.registered ∧ journal.get id call.seq = none ∧ call.compute = .ok value
        ∧ encodeOutput (serde call.ty) value = .ok json

/-- A process that runs `prog` and began on the journal `first`. -/
structure Process.Valid (serde : ∀ ty, Serde (Val ty) J) (id : String) (prog : Prog Val R)
    (first : Journal J) (s : Process Val J R) : Prop where
  same : prog.run serde id s.journal = prog.run serde id first
  replays : Replays serde id s.journal prog s.phase.rest
  knows : s.phase.Knows serde id s.journal
  before : ∀ call, s.phase.uncommitted = some call → s.journal = s.before

section Runs

variable {backend : Backend} {serde : ∀ ty, Serde (Val ty) J} {id : String} {prog : Prog Val R}
variable {first : Journal J} {s s' : Process Val J R}

theorem Process.Valid.replays_at {phase : Phase Val J R} (h : s.Valid serde id prog first)
    (hphase : s.phase = phase) : Replays serde id s.journal prog phase.rest := hphase ▸ h.replays

theorem Process.Valid.knows_at {phase : Phase Val J R} (h : s.Valid serde id prog first)
    (hphase : s.phase = phase) : phase.Knows serde id s.journal := hphase ▸ h.knows

/-- The call that steps goes on, or returns an error, with the journal as it is. -/
theorem Process.Valid.move {phase phase' : Phase Val J R} {ran : List ℕ}
    (h : s.Valid serde id prog first) (hphase : s.phase = phase) {call : Call Val R}
    (hcall : phase.uncommitted = some call) (hreplays : Replays serde id s.journal prog phase'.rest)
    (hknows : phase'.Knows serde id s.journal) :
    Process.Valid serde id prog first ⟨s.journal, phase', s.before, ran⟩ :=
  ⟨h.same, hreplays, hknows, fun _ _ => h.before call (hphase ▸ hcall)⟩

theorem Process.Valid.encoded {call : Call Val R} {value : Val call.ty} {json : J}
    (h : s.Valid serde id prog first)
    (hphase : s.phase = .encoded call value json ∨ s.phase = .inserted call value json) :
    Replays serde id s.journal prog call.prog ∧ id ∈ s.journal.registered
      ∧ s.journal.get id call.seq = none ∧ call.compute = .ok value
      ∧ encodeOutput (serde call.ty) value = .ok json := by
  obtain hphase | hphase := hphase
  · exact ⟨h.replays_at hphase, h.knows_at hphase⟩
  · exact ⟨h.replays_at hphase, h.knows_at hphase⟩

theorem Process.Valid.commit {call : Call Val R} {value : Val call.ty} {json : J}
    (h : s.Valid serde id prog first) (hdistinct : prog.Distinct [])
    (htrips : prog.RoundTrips serde)
    (hphase : s.phase = .encoded call value json ∨ s.phase = .inserted call value json) :
    Process.Valid serde id prog first
      ⟨s.journal.record id call.seq json, .committed call value, s.before, s.ran⟩ := by
  obtain ⟨hreplays, hreg, hnone, hvalue, hencode⟩ := h.encoded hphase
  obtain ⟨json', hencode', hdecode⟩ :=
    encodeOutput_of_roundTrips (hreplays.roundTrips htrips hvalue)
  obtain rfl := Except.ok.inj (hencode'.symm.trans hencode)
  obtain ⟨hnext, hrun⟩ := run_commit hreplays hdistinct hreg hnone hvalue hencode hdecode
  rw [Journal.record, dif_pos hreg]
  exact ⟨hrun.trans h.same, hnext, trivial, fun call' hcall' => by cases hcall'⟩

theorem Process.Valid.tick (hdistinct : prog.Distinct []) (htrips : prog.RoundTrips serde)
    (h : s.Valid serde id prog first) (hstep : s.tick backend serde id = some s') :
    s'.Valid serde id prog first := by
  cases Process.Step.of_tick hstep with
  | begun hphase hreg =>
      have hreplays := h.replays_at hphase
      exact ⟨h.same, hreplays, hreg, fun _ _ => rfl⟩
  | unknown hphase hreg =>
      have hreplays := h.replays_at hphase
      exact ⟨h.same, hreplays.snoc (runStepTyped_unregistered hreg), trivial, fun _ _ => rfl⟩
  | found hphase hget =>
      have hreplays := h.replays_at hphase
      have hreg := h.knows_at hphase
      exact h.move hphase rfl (hreplays.snoc (runStepTyped_recorded hreg hget)) trivial
  | called hphase hnone =>
      have hreplays := h.replays_at hphase
      exact h.move hphase rfl hreplays ⟨h.knows_at hphase, hnone⟩
  | failed hphase hcompute =>
      have hreplays := h.replays_at hphase
      obtain ⟨hreg, hnone⟩ := h.knows_at hphase
      exact h.move hphase rfl (hreplays.snoc (runStepTyped_failed hreg hnone hcompute)) trivial
  | computed hphase hcompute =>
      have hreplays := h.replays_at hphase
      obtain ⟨hreg, hnone⟩ := h.knows_at hphase
      exact h.move hphase rfl hreplays ⟨hreg, hnone, hcompute⟩
  | unencodable hphase hencode =>
      have hreplays := h.replays_at hphase
      obtain ⟨hreg, hnone, hcompute⟩ := h.knows_at hphase
      have hcall := runStepTyped_unencodable hreg hnone hcompute hencode
      exact h.move hphase rfl (hreplays.snoc hcall) trivial
  | encoded hphase hencode =>
      have hreplays := h.replays_at hphase
      obtain ⟨hreg, hnone, hcompute⟩ := h.knows_at hphase
      exact h.move hphase rfl hreplays ⟨hreg, hnone, hcompute, hencode⟩
  | inserted _ hphase =>
      have hreplays := h.replays_at hphase
      have hknows := h.knows_at hphase
      exact h.move hphase rfl hreplays hknows
  | committed hphase => exact h.commit hdistinct htrips (hphase.imp_left And.right)
  | returned hphase =>
      have hreplays := h.replays_at hphase
      exact ⟨h.same, hreplays, trivial, fun _ hcall => by cases hcall⟩

theorem Process.Valid.step (hdistinct : prog.Distinct []) (htrips : prog.RoundTrips serde)
    {a : Label} (h : s.Valid serde id prog first)
    (hstep : s.step backend serde id prog a = some s') : s'.Valid serde id prog first := by
  cases a with
  | tick => exact h.tick hdistinct htrips hstep
  | crash =>
      obtain rfl := Option.some.inj hstep
      exact ⟨h.same, .refl prog, trivial, fun _ hcall => by cases hcall⟩

theorem Process.Valid.run (hdistinct : prog.Distinct []) (htrips : prog.RoundTrips serde)
    {ls : List Label} (h : s.Valid serde id prog first)
    (hrun : Transition.run (Process.step backend serde id prog) s ls = some s') :
    s'.Valid serde id prog first :=
  run_invariant (fun _ _ _ hs hstep => Process.Valid.step hdistinct htrips hs hstep) h hrun

theorem Process.valid_start : (Process.start prog first).Valid serde id prog first :=
  ⟨rfl, .refl prog, trivial, fun _ hcall => by cases hcall⟩

/-- A process that is done has the result, and the journal, of a run without a crash. -/
theorem Process.Valid.result {result : R} (h : s.Valid serde id prog first)
    (hdone : s.phase = .ready (.done result)) :
    prog.run serde id first = (result, s.journal) := by
  have hreplays := h.replays
  rw [hdone] at hreplays
  rw [← h.same, hreplays.run_eq]
  rfl

/-! ## Steps that record or compute -/

/-- The commit of a successfully computed output. -/
def Commits (serde : ∀ ty, Serde (Val ty) J) (id : String) (s s' : Process Val J R) : Prop :=
  ∃ (call : Call Val R) (value : Val call.ty) (json : J), s.phase.uncommitted = some call
    ∧ s'.phase = .committed call value ∧ call.compute = .ok value
    ∧ encodeOutput (serde call.ty) value = .ok json ∧ s.journal.get id call.seq = none
    ∧ s'.journal = s.journal.record id call.seq json

/-- A closure is called only for a step that is not recorded. -/
def Computes (id : String) (s s' : Process Val J R) : Prop :=
  ∃ seq, s.journal.get id seq = none ∧ s'.ran = seq :: s.ran

/-- **What a step can do**: change the journal by a commit, or call a closure, or neither. -/
theorem Process.Valid.effect {a : Label} (h : s.Valid serde id prog first)
    (hstep : s.step backend serde id prog a = some s') :
    (s'.journal = s.journal ∧ (s'.ran = s.ran ∨ Computes id s s'))
      ∨ (s'.ran = s.ran ∧ Commits serde id s s') := by
  cases a with
  | crash =>
      obtain rfl := Option.some.inj hstep
      exact .inl ⟨rfl, .inl rfl⟩
  | tick =>
      cases Process.Step.of_tick hstep with
      | @called call hphase hnone => exact .inl ⟨rfl, .inr ⟨call.seq, hnone, rfl⟩⟩
      | @committed call value json hphase =>
          obtain ⟨-, -, hnone, hvalue, hencode⟩ := h.encoded (hphase.imp_left And.right)
          have hcall : s.phase.uncommitted = some call := by
            obtain ⟨-, hphase⟩ | hphase := hphase
            · rw [hphase, Phase.uncommitted]
            · rw [hphase, Phase.uncommitted]
          exact .inr ⟨rfl, call, value, json, hcall, rfl, hvalue, hencode, hnone, rfl⟩
      | begun _ _ | unknown _ _ | found _ _ | failed _ _ | computed _ _ | unencodable _ _
      | encoded _ _ | inserted _ _ | returned _ => exact .inl ⟨rfl, .inl rfl⟩

theorem Journal.get_record_of_some {journal : Journal J} {seq seq' : ℕ} {json json' : J}
    (hnone : journal.get id seq = none) (hsome : journal.get id seq' = some json') :
    (journal.record id seq json).get id seq' = some json' := by
  have hne : seq' ≠ seq := by
    rintro rfl
    rw [hnone] at hsome
    cases hsome
  rw [Journal.record]
  split_ifs with hreg
  · rw [Journal.get_insert, if_neg hne, hsome]
  · exact hsome

/-- A recorded output stays, and its closure is not called again: in a step. -/
theorem Process.Valid.recorded_step {a : Label} {seq : ℕ} {json : J}
    (h : s.Valid serde id prog first) (hjson : s.journal.get id seq = some json)
    (hstep : s.step backend serde id prog a = some s') :
    s'.journal.get id seq = some json ∧ s'.ran.count seq = s.ran.count seq := by
  rcases h.effect hstep with ⟨hjournal, hran | ⟨seq', hnone, hran⟩⟩
    | ⟨hran, call, value, json', -, -, -, -, hnone, hjournal⟩
  · rw [hjournal, hran]
    exact ⟨hjson, rfl⟩
  · have hne : seq' ≠ seq := by
      rintro rfl
      rw [hnone] at hjson
      cases hjson
    rw [hjournal, hran, List.count_cons_of_ne hne]
    exact ⟨hjson, rfl⟩
  · rw [hjournal, hran]
    exact ⟨Journal.get_record_of_some hnone hjson, rfl⟩

/-- And in a run. -/
theorem Process.Valid.recorded (hdistinct : prog.Distinct []) (htrips : prog.RoundTrips serde)
    {ls : List Label} {seq : ℕ} {json : J} (h : s.Valid serde id prog first)
    (hjson : s.journal.get id seq = some json)
    (hrun : Transition.run (Process.step backend serde id prog) s ls = some s') :
    s'.journal.get id seq = some json ∧ s'.ran.count seq = s.ran.count seq := by
  have hkeeps : ∀ (m : Process Val J R) a m',
      (m.Valid serde id prog first ∧ m.journal.get id seq = some json
        ∧ m.ran.count seq = s.ran.count seq) → m.step backend serde id prog a = some m' →
      m'.Valid serde id prog first ∧ m'.journal.get id seq = some json
        ∧ m'.ran.count seq = s.ran.count seq := by
    rintro m a m' ⟨hm, hget, hcount⟩ hstep
    obtain ⟨hget', hcount'⟩ := hm.recorded_step hget hstep
    exact ⟨hm.step hdistinct htrips hstep, hget', hcount'.trans hcount⟩
  exact (run_invariant hkeeps ⟨h, hjson, rfl⟩ hrun).2

/-! ## Every attempt can finish -/

/-- Some number of steps without a crash. -/
def Ticks (backend : Backend) (serde : ∀ ty, Serde (Val ty) J) (id : String) (prog : Prog Val R)
    (s s' : Process Val J R) : Prop :=
  ∃ n, Transition.run (Process.step backend serde id prog) s (List.replicate n .tick) = some s'

theorem Ticks.refl : Ticks backend serde id prog s s := ⟨0, rfl⟩

theorem Ticks.head {m : Process Val J R} (hstep : s.tick backend serde id = some m)
    (h : Ticks backend serde id prog m s') : Ticks backend serde id prog s s' := by
  obtain ⟨n, hn⟩ := h
  refine ⟨n + 1, ?_⟩
  rw [List.replicate_succ]
  exact run_cons_eq_some.mpr ⟨m, hstep, hn⟩

theorem Ticks.trans {m : Process Val J R} (h : Ticks backend serde id prog s m)
    (h' : Ticks backend serde id prog m s') : Ticks backend serde id prog s s' := by
  obtain ⟨n, hn⟩ := h
  induction n generalizing s with
  | zero =>
      obtain rfl := Option.some.inj hn
      exact h'
  | succ n ih =>
      rw [List.replicate_succ] at hn
      obtain ⟨k, hk, hrest⟩ := run_cons_eq_some.mp hn
      exact .head hk (ih hrest)

/-- The call in progress comes to its end. -/
def Returns (backend : Backend) (serde : ∀ ty, Serde (Val ty) J) (id : String)
    (prog : Prog Val R) (call : Call Val R) (s : Process Val J R) : Prop :=
  ∃ s' out, Ticks backend serde id prog s s' ∧ s'.phase = .ready (call.next out)

theorem Returns.head {m : Process Val J R} {call : Call Val R}
    (hstep : s.tick backend serde id = some m) (h : Returns backend serde id prog call m) :
    Returns backend serde id prog call s := by
  obtain ⟨s', out, hticks, hphase⟩ := h
  exact ⟨s', out, .head hstep hticks, hphase⟩

theorem Returns.last {m : Process Val J R} {call : Call Val R}
    {out : Except WorkflowError (Val call.ty)} (hstep : s.tick backend serde id = some m)
    (hphase : m.phase = .ready (call.next out)) : Returns backend serde id prog call s :=
  ⟨m, out, .head hstep .refl, hphase⟩

section Returns

variable {journal before : Journal J} {ran : List ℕ} (call : Call Val R)

theorem returns_committed (value : Val call.ty) :
    Returns backend serde id prog call ⟨journal, .committed call value, before, ran⟩ :=
  .last rfl rfl

theorem returns_inserted (value : Val call.ty) (json : J) :
    Returns backend serde id prog call ⟨journal, .inserted call value json, before, ran⟩ :=
  .head rfl (returns_committed call value)

theorem returns_encoded (value : Val call.ty) (json : J) :
    Returns backend serde id prog call ⟨journal, .encoded call value json, before, ran⟩ := by
  cases backend with
  | stub => exact .head rfl (returns_committed call value)
  | sqlite => exact .head rfl (returns_inserted call value json)

theorem returns_computed (value : Val call.ty) :
    Returns backend serde id prog call ⟨journal, .computed call value, before, ran⟩ := by
  cases hencode : encodeOutput (serde call.ty) value with
  | error e => exact .last (by simp only [Process.tick, hencode]; rfl) rfl
  | ok json => exact .head (by simp only [Process.tick, hencode]; rfl) (returns_encoded call _ json)

theorem returns_computing :
    Returns backend serde id prog call ⟨journal, .computing call, before, ran⟩ := by
  cases hcompute : call.compute with
  | error e => exact .last (by simp only [Process.tick, hcompute]; rfl) rfl
  | ok value => exact .head (by simp only [Process.tick, hcompute]; rfl) (returns_computed call _)

theorem returns_registered :
    Returns backend serde id prog call ⟨journal, .registered call, before, ran⟩ := by
  cases hget : journal.get id call.seq with
  | some json => exact .last (by simp only [Process.tick, hget]; rfl) rfl
  | none => exact .head (by simp only [Process.tick, hget]; rfl) (returns_computing call)

end Returns

/-- From the root of any program, by recursion on it. -/
theorem ticks_ready (rest : Prog Val R) (journal before : Journal J) (ran : List ℕ) :
    ∃ s' result, Ticks backend serde id prog ⟨journal, .ready rest, before, ran⟩ s'
      ∧ s'.phase = .ready (.done result) := by
  induction rest generalizing journal before ran with
  | done result => exact ⟨_, result, .refl, rfl⟩
  | step ty seq compute next ih =>
      by_cases hreg : id ∈ journal.registered
      · have hfirst : Process.tick backend serde id
            ⟨journal, .ready (.step ty seq compute next), before, ran⟩
            = some ⟨journal, .registered ⟨ty, seq, compute, next⟩, journal, ran⟩ := by
          simp only [Process.tick, hasWorkflow, decide_eq_true hreg, if_true]
        obtain ⟨⟨journal', phase', before', ran'⟩, out, hticks, hphase⟩ :=
          @returns_registered _ _ _ _ backend serde id prog journal journal ran
            ⟨ty, seq, compute, next⟩
        obtain rfl : phase' = .ready (next out) := hphase
        obtain ⟨s', result, hrest, hdone⟩ := ih out journal' before' ran'
        exact ⟨s', result, .head hfirst (hticks.trans hrest), hdone⟩
      · obtain ⟨s', result, hrest, hdone⟩ :=
          ih (.error (.unknownWorkflow id)) journal journal ran
        refine ⟨s', result, .head ?_ hrest, hdone⟩
        simp only [Process.tick, hasWorkflow, decide_eq_false hreg, Bool.false_eq_true, if_false]

theorem ticks_done (s : Process Val J R) :
    ∃ s' result, Ticks backend serde id prog s s' ∧ s'.phase = .ready (.done result) := by
  obtain ⟨journal, phase, before, ran⟩ := s
  have hreturn : ∀ {call : Call Val R}, Returns backend serde id prog call
      ⟨journal, phase, before, ran⟩ → ∃ s' result, Ticks backend serde id prog
        ⟨journal, phase, before, ran⟩ s' ∧ s'.phase = .ready (.done result) := by
    rintro call ⟨⟨journal', phase', before', ran'⟩, out, hticks, hphase⟩
    obtain rfl : phase' = .ready (call.next out) := hphase
    obtain ⟨s', result, hrest, hdone⟩ := ticks_ready (call.next out) journal' before' ran'
    exact ⟨s', result, hticks.trans hrest, hdone⟩
  cases phase with
  | ready rest => exact ticks_ready rest journal before ran
  | registered call => exact hreturn (returns_registered call)
  | computing call => exact hreturn (returns_computing call)
  | computed call value => exact hreturn (returns_computed call value)
  | encoded call value json => exact hreturn (returns_encoded call value json)
  | inserted call value json => exact hreturn (returns_inserted call value json)
  | committed call value => exact hreturn (returns_committed call value)

end Runs

/-! ## Resuming -/

/-- A state that a process running `prog` got into, after any crashes. If it is done, it has the
    result and the journal of a run without a crash, and without further crashes it gets done. A
    recorded output stays, and its closure is not called again. The journal changes by commits of
    successfully computed outputs only, and a call that ends in another way, by a crash or an error
    or with what was recorded, leaves the journal it found. -/
structure Resumes (backend : Backend) (serde : ∀ ty, Serde (Val ty) J) (id : String)
    (prog : Prog Val R) (first : Journal J) (s : Process Val J R) : Prop where
  result : ∀ result, s.phase = .ready (.done result) →
    prog.run serde id first = (result, s.journal)
  finishes : ∃ s', Ticks backend serde id prog s s'
    ∧ s'.phase = .ready (.done (prog.run serde id first).1)
  recorded : ∀ ls s' seq json, run (Process.step backend serde id prog) s ls = some s' →
    s.journal.get id seq = some json →
    s'.journal.get id seq = some json ∧ s'.ran.count seq = s.ran.count seq
  changes : ∀ a s', s.step backend serde id prog a = some s' →
    s'.journal = s.journal ∨ Commits serde id s s'
  untouched : ∀ a s' call, s.phase.uncommitted = some call →
    s.step backend serde id prog a = some s' → s'.journal = s.before ∨ Commits serde id s s'

/-- **Resuming equals running once**, for every program whose paths have distinct sequence numbers
    and whose outputs round-trip, on either journal, whatever it held at first, and for every
    sequence of micro-steps and crashes. -/
theorem resume_eq_run (backend : Backend) (serde : ∀ ty, Serde (Val ty) J) (id : String)
    (prog : Prog Val R) (first : Journal J) (hdistinct : prog.Distinct [])
    (htrips : prog.RoundTrips serde) (ls : List Label) (s : Process Val J R)
    (hrun : run (Process.step backend serde id prog) (.start prog first) ls = some s) :
    Resumes backend serde id prog first s := by
  have hs := Process.valid_start.run hdistinct htrips hrun
  have hchanges : ∀ {a s'}, s.step backend serde id prog a = some s' →
      s'.journal = s.journal ∨ Commits serde id s s' := fun hstep =>
    (hs.effect hstep).imp And.left And.right
  refine ⟨fun _ => hs.result, ?_, fun _ _ _ _ hls hjson =>
    hs.recorded hdistinct htrips hjson hls, fun _ _ => hchanges, fun a s' call hcall hstep => ?_⟩
  · obtain ⟨s', result, ⟨n, hn⟩, hdone⟩ :=
      @ticks_done _ _ _ _ backend serde id prog s
    refine ⟨s', ⟨n, hn⟩, ?_⟩
    rw [(hs.run hdistinct htrips hn).result hdone]
    exact hdone
  · rw [← hs.before call hcall]
    exact hchanges hstep

/-- Two steps, the second on the output of the first. -/
def twoSteps : Prog (fun _ : Unit => Bool) (Except WorkflowError Bool) :=
  .step () 0 (.ok true) fun
    | .ok first => .step () 1 (.ok (!first)) .done
    | .error e => .done (.error e)

/-- A crash after the first commit, with the second output inserted but not committed. -/
def crashed : List Label := List.replicate 12 .tick ++ [.crash]

theorem resume_eq_run_crashed :
    ∃ s, run (Process.step .sqlite (fun _ => Serde.bool) "w" twoSteps)
        (.start twoSteps ⟨{"w"}, fun _ => .empty, fun _ _ => rfl⟩) crashed = some s
      ∧ s.journal.get "w" 0 = some "true" ∧ s.journal.get "w" 1 = none
      ∧ Resumes .sqlite (fun _ => Serde.bool) "w" twoSteps
        ⟨{"w"}, fun _ => .empty, fun _ _ => rfl⟩ s := by
  have hlast : (run (Process.step .sqlite (fun _ => Serde.bool) "w" twoSteps)
      (.start twoSteps ⟨{"w"}, fun _ => .empty, fun _ _ => rfl⟩) crashed).map
        (fun s => (s.journal.get "w" 0, s.journal.get "w" 1)) = some (some "true", none) := by
    decide +kernel
  obtain ⟨s, hrun, hget⟩ := exists_run _ hlast
  obtain ⟨hfirst, hsecond⟩ := Prod.mk.inj hget
  refine ⟨s, hrun, hfirst, hsecond, resume_eq_run .sqlite _ "w" twoSteps _ ?_ ?_ crashed s hrun⟩
  · refine ⟨List.not_mem_nil, fun out => ?_⟩
    cases out with
    | error e => trivial
    | ok b => exact ⟨by decide, fun _ => trivial⟩
  · refine ⟨fun b _ => Serde.bool_roundTrips b, fun out => ?_⟩
    cases out with
    | error e => trivial
    | ok b => exact ⟨fun b _ => Serde.bool_roundTrips b, fun _ => trivial⟩

end IdEffect.Workflow
