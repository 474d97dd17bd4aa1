import Mathlib.Data.Finset.Insert
import IdEffect.Lib.Assoc
import IdEffect.Lib.Serde
import IdEffect.Parse.Json

set_option autoImplicit false

/-! # Step journals

A journal keeps the outputs of completed steps under the id of their workflow and a sequence number.
`NetworkJournalStub` and `DurableWorkflowLog` answer the same calls on it; they differ in how they
count (`Backend.count`) and in how a call goes on step by step, which is the matter of
`Workflow.Resume`. The calls here are whole calls, on a database and a lock that work.

What a call of `run_step_typed` answers depends on the record of its own step only
(`runStepTyped_insert`), and once its output is recorded, it answers with the recorded one and
changes nothing (`runStepTyped_recorded`). -/

namespace IdEffect.Workflow

variable {J T : Type}

inductive WorkflowError where
  | json (message : String)
  | invalidWorkflowId
  | workflowAlreadyExists (id : String)
  | unknownWorkflow (id : String)
  deriving DecidableEq, Repr

/-- The two implementations of `StepJournal`. -/
inductive Backend where
  | stub
  | sqlite
  deriving DecidableEq, Repr

/-- The registered workflows, and the outputs of completed steps; of a workflow that is not
    registered there are none. -/
structure Journal (J : Type) where
  registered : Finset String
  steps : String → Assoc.Map ℕ J
  closed : ∀ id, id ∉ registered → steps id = .empty

namespace Journal

@[ext] theorem ext {journal journal' : Journal J}
    (hregistered : journal.registered = journal'.registered)
    (hsteps : journal.steps = journal'.steps) : journal = journal' := by
  cases journal
  cases journal'
  cases hregistered
  cases hsteps
  rfl

def empty : Journal J := ⟨∅, fun _ => .empty, fun _ _ => rfl⟩

/-- The output of a step, if there is one. -/
def get (journal : Journal J) (id : String) (seq : ℕ) : Option J := (journal.steps id).get seq

/-- Record the output of a step of a registered workflow. -/
def insert (journal : Journal J) (id : String) (seq : ℕ) (json : J)
    (h : id ∈ journal.registered) : Journal J where
  registered := journal.registered
  steps := Function.update journal.steps id ((journal.steps id).insert seq json)
  closed id' hid' := by
    have hne : id' ≠ id := fun heq => hid' (heq ▸ h)
    rw [Function.update_of_ne hne]
    exact journal.closed id' hid'

theorem get_insert (journal : Journal J) (id : String) (seq seq' : ℕ) (json : J)
    (h : id ∈ journal.registered) :
    (journal.insert id seq json h).get id seq' = if seq' = seq then some json
      else journal.get id seq' := by
  simp only [get, insert, Function.update_self]
  exact Assoc.get_insert ..

end Journal

/-! ## The calls -/

def registerWorkflow (journal : Journal J) (id : String) :
    Except WorkflowError Unit × Journal J :=
  if id.toList.all Parse.isWhitespace then (.error .invalidWorkflowId, journal)
  else if id ∈ journal.registered then (.error (.workflowAlreadyExists id), journal)
  else
    (.ok (), ⟨Insert.insert id journal.registered, journal.steps, fun id' hid' =>
      journal.closed id' fun h => hid' (Finset.mem_insert_of_mem h)⟩)

def hasWorkflow (journal : Journal J) (id : String) : Bool := id ∈ journal.registered

def completedJson (journal : Journal J) (id : String) (seq : ℕ) :
    Except WorkflowError (Option J) :=
  if hasWorkflow journal id then .ok (journal.get id seq) else .error (.unknownWorkflow id)

/-- The number of records as a `u32`: the stub cuts it off, SQLite stops at the largest. -/
def Backend.count : Backend → ℕ → ℕ
  | .stub, n => n % 2 ^ 32
  | .sqlite, n => min n (2 ^ 32 - 1)

def completedStepCount (backend : Backend) (journal : Journal J) (id : String) :
    Except WorkflowError ℕ :=
  if hasWorkflow journal id then .ok (backend.count (journal.steps id).entries.length)
  else .error (.unknownWorkflow id)

/-- A recorded output as the value it stands for. -/
def decodeOutput (serde : Serde T J) (json : J) : Except WorkflowError T :=
  (serde.decode json).mapError .json

def encodeOutput (serde : Serde T J) (value : T) : Except WorkflowError J :=
  (serde.encode value).mapError .json

/-- `compute` is what the closure returns, should it be called. -/
def runStepTyped (serde : Serde T J) (journal : Journal J) (id : String) (seq : ℕ)
    (compute : Except WorkflowError T) : Except WorkflowError T × Journal J :=
  if h : id ∈ journal.registered then
    match journal.get id seq with
    | some json => (decodeOutput serde json, journal)
    | none =>
        match compute with
        | .error e => (.error e, journal)
        | .ok value =>
            match encodeOutput serde value with
            | .error e => (.error e, journal)
            | .ok json => (.ok value, journal.insert id seq json h)
  else (.error (.unknownWorkflow id), journal)

/-! ## What a call does -/

/-- A workflow that has just been registered has no steps. -/
theorem registerWorkflow_ok {journal journal' : Journal J} {id : String}
    (h : registerWorkflow journal id = (.ok (), journal')) :
    id ∈ journal'.registered ∧ journal'.steps id = .empty := by
  rw [registerWorkflow] at h
  split at h
  · cases (Prod.mk.inj h).1
  · split at h
    · cases (Prod.mk.inj h).1
    · next hreg =>
        obtain rfl := (Prod.mk.inj h).2
        exact ⟨Finset.mem_insert_self .., journal.closed id hreg⟩

section RunStepTyped

variable {serde : Serde T J} {journal : Journal J} {id : String} {seq : ℕ}
variable {compute : Except WorkflowError T}

theorem runStepTyped_unregistered (h : id ∉ journal.registered) :
    runStepTyped serde journal id seq compute = (.error (.unknownWorkflow id), journal) := by
  rw [runStepTyped, dif_neg h]

/-- A recorded step answers with what is recorded. -/
theorem runStepTyped_recorded {json : J} (h : id ∈ journal.registered)
    (hjson : journal.get id seq = some json) :
    runStepTyped serde journal id seq compute = (decodeOutput serde json, journal) := by
  rw [runStepTyped, dif_pos h, hjson]

theorem runStepTyped_failed {e : WorkflowError} (h : id ∈ journal.registered)
    (hnone : journal.get id seq = none) (hcompute : compute = .error e) :
    runStepTyped serde journal id seq compute = (.error e, journal) := by
  rw [runStepTyped, dif_pos h, hnone, hcompute]

theorem runStepTyped_unencodable {value : T} {e : WorkflowError} (h : id ∈ journal.registered)
    (hnone : journal.get id seq = none) (hcompute : compute = .ok value)
    (hencode : encodeOutput serde value = .error e) :
    runStepTyped serde journal id seq compute = (.error e, journal) := by
  rw [runStepTyped, dif_pos h, hnone, hcompute]
  simp only [hencode]

theorem runStepTyped_computed {value : T} {json : J} (h : id ∈ journal.registered)
    (hnone : journal.get id seq = none) (hcompute : compute = .ok value)
    (hencode : encodeOutput serde value = .ok json) :
    runStepTyped serde journal id seq compute = (.ok value, journal.insert id seq json h) := by
  rw [runStepTyped, dif_pos h, hnone, hcompute]
  simp only [hencode]

/-- What a call answers depends on the record of its own step only. -/
theorem runStepTyped_insert {seq' : ℕ} {json : J} {out : Except WorkflowError T}
    (h : id ∈ journal.registered) (hne : seq ≠ seq')
    (hcall : runStepTyped serde journal id seq compute = (out, journal)) :
    runStepTyped serde (journal.insert id seq' json h) id seq compute
      = (out, journal.insert id seq' json h) := by
  have hget : (journal.insert id seq' json h).get id seq = journal.get id seq := by
    rw [Journal.get_insert, if_neg hne]
  have hreg : id ∈ (journal.insert id seq' json h).registered := h
  cases hrec : journal.get id seq with
  | some json' =>
      rw [runStepTyped_recorded h hrec] at hcall
      rw [runStepTyped_recorded hreg (hget.trans hrec), (Prod.mk.inj hcall).1]
  | none =>
      have hnone := hget.trans hrec
      cases hcompute : compute with
      | error e =>
          rw [runStepTyped_failed h hrec hcompute] at hcall
          rw [runStepTyped_failed hreg hnone rfl, ← (Prod.mk.inj hcall).1]
      | ok value =>
          cases hencode : encodeOutput serde value with
          | error e =>
              rw [runStepTyped_unencodable h hrec hcompute hencode] at hcall
              rw [runStepTyped_unencodable hreg hnone rfl hencode, ← (Prod.mk.inj hcall).1]
          | ok json' =>
              -- the call would have recorded its output
              rw [runStepTyped_computed h hrec hcompute hencode] at hcall
              have hinsert := congrArg (fun j => j.get id seq) (Prod.mk.inj hcall).2
              simp only [Journal.get_insert, if_true, hrec] at hinsert
              cases hinsert

end RunStepTyped

/-- An output that round-trips is encoded, and decodes to itself. -/
theorem encodeOutput_of_roundTrips {serde : Serde T J} {value : T} (h : serde.RoundTrips value) :
    ∃ json, encodeOutput serde value = .ok json ∧ decodeOutput serde json = .ok value := by
  obtain ⟨json, hencode, hdecode⟩ := h
  exact ⟨json, by rw [encodeOutput, hencode]; rfl, by rw [decodeOutput, hdecode]; rfl⟩

end IdEffect.Workflow
