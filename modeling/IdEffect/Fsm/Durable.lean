import Mathlib.Data.List.AList
import IdEffect.Lib.Transition
import IdEffect.Workflow.Journal

set_option autoImplicit false

/-! # Durable state machines

A state machine whose snapshots are kept in a step journal. `step_durable` takes the next sequence
number from the journal and the state from the machine it is given. Several machines may work on one
log, each with a state of its own, so the two need not belong together.

What a call does with a log of `n + 1` snapshots is said once (`stepDurable_cases`): it fails and
changes nothing, or answers with a snapshot that is there, or records the next one. The log is a run
of the table exactly as long as every call that records takes the edge that leaves the last recorded
state (`Follows`); the `u32` of the sequence numbers is part of that condition. -/

namespace IdEffect.Fsm

open Workflow Transition

variable {S E J : Type}

/-! ## Tables and machines -/

/-- The edges, by state and event. -/
structure TransitionTable (S E : Type) where
  edges : AList fun _ : S × E => S

namespace TransitionTable

variable [DecidableEq S] [DecidableEq E]

def new : TransitionTable S E := ⟨∅⟩

def on (table : TransitionTable S E) (source : S) (event : E) (target : S) : TransitionTable S E :=
  ⟨table.edges.insert (source, event) target⟩

def next (table : TransitionTable S E) (source : S) (event : E) : Option S :=
  table.edges.lookup (source, event)

end TransitionTable

inductive FsmError (S E : Type) where
  | noTransition (state : S) (event : E)

structure StateMachine (S E : Type) where
  initial : S
  current : S
  table : TransitionTable S E

namespace StateMachine

def new (initial : S) (table : TransitionTable S E) : StateMachine S E := ⟨initial, initial, table⟩

def state (machine : StateMachine S E) : S := machine.current

def setState (machine : StateMachine S E) (state : S) : StateMachine S E :=
  { machine with current := state }

def step [DecidableEq S] [DecidableEq E] (machine : StateMachine S E) (event : E) :
    Except (FsmError S E) S × StateMachine S E :=
  match machine.table.next machine.current event with
  | some target => (.ok target, { machine with current := target })
  | none => (.error (.noTransition machine.current event), machine)

end StateMachine

inductive WorkflowFsmError (S E : Type) where
  | workflow (e : WorkflowError)
  | transition (e : FsmError S E)

structure FsmSnapshot (S : Type) where
  state : S
  seq : ℕ
  deriving DecidableEq, Repr

/-! ## The calls -/

section Calls

variable [DecidableEq S] [DecidableEq E] (backend : Backend) (serde : Serde (FsmSnapshot S) J)

def registerFsm (journal : Journal J) (id : String) (machine : StateMachine S E) :
    Except (WorkflowFsmError S E) (FsmSnapshot S) × Journal J :=
  match registerWorkflow journal id with
  | (.error e, journal) => (.error (.workflow e), journal)
  | (.ok _, journal) =>
      let snapshot := ⟨machine.state, 0⟩
      match runStepTyped serde journal id 0 (.ok snapshot) with
      | (.error e, journal) => (.error (.workflow e), journal)
      | (.ok _, journal) => (.ok snapshot, journal)

def stepDurable (journal : Journal J) (id : String) (machine : StateMachine S E) (event : E) :
    Except (WorkflowFsmError S E) (FsmSnapshot S) × Journal J × StateMachine S E :=
  if hasWorkflow journal id then
    match completedStepCount backend journal id with
    | .error e => (.error (.workflow e), journal, machine)
    | .ok nextSeq =>
        match machine.table.next machine.state event with
        | none => (.error (.transition (.noTransition machine.state event)), journal, machine)
        | some pendingState =>
            match runStepTyped serde journal id nextSeq (.ok ⟨pendingState, nextSeq⟩) with
            | (.error e, journal) => (.error (.workflow e), journal, machine)
            | (.ok snapshot, journal) => (.ok snapshot, journal, machine.setState snapshot.state)
  else (.error (.workflow (.unknownWorkflow id)), journal, machine)

def restoreState (journal : Journal J) (id : String) (machine : StateMachine S E) :
    Except (WorkflowFsmError S E) (FsmSnapshot S) × StateMachine S E :=
  match completedStepCount backend journal id with
  | .error e => (.error (.workflow e), machine)
  | .ok 0 => (.error (.workflow (.unknownWorkflow id)), machine)
  | .ok (latestSeq + 1) =>
      match completedJson journal id latestSeq with
      | .error e => (.error (.workflow e), machine)
      | .ok none => (.error (.workflow .invalidWorkflowId), machine)
      | .ok (some json) =>
          match decodeOutput serde json with
          | .error e => (.error (.workflow e), machine)
          | .ok snapshot => (.ok snapshot, machine.setState snapshot.state)

end Calls

/-! ## Machines on one log -/

/-- `events` are those of the calls that recorded a snapshot, in their order. -/
structure Sys (S E J : Type) where
  journal : Journal J
  machines : ℕ → StateMachine S E
  events : List E

inductive Label (E : Type) where
  | stepDurable (machine : ℕ) (event : E)
  | restoreState (machine : ℕ)
  deriving DecidableEq, Repr

section System

variable [DecidableEq S] [DecidableEq E] (backend : Backend) (serde : Serde (FsmSnapshot S) J)
variable (id : String)

/-- The number of snapshots in the log. -/
def logLength (journal : Journal J) (id : String) : ℕ := (journal.steps id).entries.length

def Sys.step (s : Sys S E J) : Label E → Option (Sys S E J)
  | .stepDurable m event =>
      let out := Fsm.stepDurable backend serde s.journal id (s.machines m) event
      some
        { journal := out.2.1
          machines := Function.update s.machines m out.2.2
          events := if logLength out.2.1 id = logLength s.journal id then s.events
            else s.events ++ [event] }
  | .restoreState m =>
      some { s with
        machines := Function.update s.machines m
          (Fsm.restoreState backend serde s.journal id (s.machines m)).2 }

/-- Machines over one table, after one of them has been registered. -/
def Started (table : TransitionTable S E) (s : Sys S E J) : Prop :=
  (∀ m, (s.machines m).table = table) ∧ s.events = []
    ∧ ∃ journal m snapshot, registerFsm serde journal id (s.machines m) = (.ok snapshot, s.journal)

/-- The snapshot at a place of the log. -/
def snapshotAt (journal : Journal J) (seq : ℕ) : Option (FsmSnapshot S) :=
  (journal.get id seq).bind fun json => (serde.decode json).toOption

/-- The log is a run of the table: it has the sequence numbers up to the number of events and no
    others, each event leads from a snapshot to the next; a call that fails records nothing and
    leaves its machine, and to restore a machine sets it to the last recorded state. -/
structure LogIsRun (table : TransitionTable S E) (s : Sys S E J) : Prop where
  present : ∀ seq, (s.journal.get id seq).isSome ↔ seq ≤ s.events.length
  seqs : ∀ seq, seq ≤ s.events.length →
    ∃ snapshot, snapshotAt serde id s.journal seq = some snapshot ∧ snapshot.seq = seq
  chain : ∀ i event snapshot snapshot', s.events[i]? = some event →
    snapshotAt serde id s.journal i = some snapshot →
    snapshotAt serde id s.journal (i + 1) = some snapshot' →
    table.next snapshot.state event = some snapshot'.state
  stepFailed : ∀ m event e out, stepDurable backend serde s.journal id (s.machines m) event
    = (.error e, out) → out = (s.journal, s.machines m)
  restoreFailed : ∀ m e machine, restoreState backend serde s.journal id (s.machines m)
    = (.error e, machine) → machine = s.machines m
  restores : ∀ m last, snapshotAt serde id s.journal s.events.length = some last →
    ∃ snapshot, restoreState backend serde s.journal id (s.machines m)
      = (.ok snapshot, (s.machines m).setState last.state)

/-- A call that records takes the edge of the last recorded state, and leaves the log short enough
    for its length to be a `u32`; where SQLite stops counting, the state must be that of the
    snapshot before. -/
def Follows (table : TransitionTable S E) (s : Sys S E J) : Label E → Prop
  | .restoreState _ => True
  | .stepDurable m event => ∀ pending ∈ table.next (s.machines m).state event,
      s.events.length + 1 < 2 ^ 32 → ∀ last ∈ snapshotAt serde id s.journal s.events.length,
      table.next last.state event = some pending
        ∧ (s.events.length + 2 < 2 ^ 32 ∨ backend = .sqlite ∧ pending = last.state)

instance (table : TransitionTable S E) (s : Sys S E J) (a : Label E) :
    Decidable (Follows backend serde id table s a) :=
  match a with
  | .restoreState _ => inferInstanceAs (Decidable True)
  | .stepDurable _ _ => inferInstanceAs (Decidable (∀ pending ∈ _, _ → ∀ last ∈ _, _ ∧ _))

end System

/-! ## The log -/

/-- A log of `n + 1` snapshots, without a gap. -/
structure Logged (serde : Serde (FsmSnapshot S) J) (id : String) (journal : Journal J) (n : ℕ) :
    Prop where
  registered : id ∈ journal.registered
  short : n < 2 ^ 32
  keys : (journal.steps id).entries.map Prod.fst = List.range (n + 1)
  decodes : ∀ seq, seq ≤ n → ∃ state, snapshotAt serde id journal seq = some ⟨state, seq⟩

section Log

variable {backend : Backend} {serde : Serde (FsmSnapshot S) J} {id : String} {journal : Journal J}
variable {n : ℕ}

theorem Backend.count_of_lt {k : ℕ} (h : k < 2 ^ 32) : backend.count k = k := by
  cases backend with
  | stub => exact Nat.mod_eq_of_lt h
  | sqlite => exact min_eq_left (by omega)

theorem Logged.isSome_get (h : Logged serde id journal n) (seq : ℕ) :
    (journal.get id seq).isSome ↔ seq ≤ n := by
  rw [Journal.get, Assoc.Map.get, Assoc.isSome_get, h.keys, List.mem_range, Nat.lt_succ_iff]

theorem Logged.logLength (h : Logged serde id journal n) : logLength journal id = n + 1 := by
  rw [Fsm.logLength, ← List.length_map Prod.fst, h.keys, List.length_range]

theorem Logged.completedStepCount (h : Logged serde id journal n) :
    completedStepCount backend journal id = .ok (backend.count (n + 1)) := by
  rw [Workflow.completedStepCount, hasWorkflow, if_pos (decide_eq_true h.registered)]
  exact congrArg (fun k => Except.ok (backend.count k)) h.logLength

/-- What is recorded at a place can be read. -/
theorem Logged.read (h : Logged serde id journal n) {seq : ℕ} (hseq : seq ≤ n) :
    ∃ json state, journal.get id seq = some json
      ∧ snapshotAt serde id journal seq = some ⟨state, seq⟩
      ∧ decodeOutput serde json = .ok ⟨state, seq⟩ := by
  obtain ⟨state, hstate⟩ := h.decodes seq hseq
  obtain ⟨json, hjson, hdecode⟩ := Option.bind_eq_some_iff.mp hstate
  refine ⟨json, state, hjson, hstate, ?_⟩
  cases hsnapshot : serde.decode json with
  | error e =>
      rw [hsnapshot] at hdecode
      cases hdecode
  | ok snapshot =>
      rw [hsnapshot] at hdecode
      obtain rfl := Option.some.inj hdecode
      rw [decodeOutput, hsnapshot]
      rfl

theorem snapshotAt_insert {json : J} {snapshot : FsmSnapshot S} (hreg : id ∈ journal.registered)
    (hdecode : decodeOutput serde json = .ok snapshot) (seq seq' : ℕ) :
    snapshotAt serde id (journal.insert id seq json hreg) seq'
      = if seq' = seq then some snapshot else snapshotAt serde id journal seq' := by
  rw [snapshotAt, Journal.get_insert]
  split_ifs
  · cases hsnapshot : serde.decode json with
    | error e =>
        rw [decodeOutput, hsnapshot] at hdecode
        cases hdecode
    | ok snapshot' =>
        rw [decodeOutput, hsnapshot] at hdecode
        obtain rfl := Except.ok.inj hdecode
        rw [Option.bind_some, hsnapshot]
        rfl
  · rfl

/-- The next snapshot. -/
theorem Logged.snoc (h : Logged serde id journal n) {json : J} {state : S}
    (hshort : n + 1 < 2 ^ 32) (hdecode : decodeOutput serde json = .ok ⟨state, n + 1⟩) :
    Logged serde id (journal.insert id (n + 1) json h.registered) (n + 1) := by
  refine ⟨h.registered, hshort, ?_, fun seq hseq => ?_⟩
  · have hlast : ∀ p ∈ (journal.steps id).entries, p.1 < n + 1 := by
      intro p hp
      have hmem : p.1 ∈ (journal.steps id).entries.map Prod.fst := List.mem_map.mpr ⟨p, hp, rfl⟩
      rwa [h.keys, List.mem_range] at hmem
    simp only [Journal.insert, Function.update_self, Assoc.Map.insert]
    rw [Assoc.insert_of_forall_lt hlast, List.map_append, h.keys, List.range_succ (n := n + 1)]
    rfl
  · rw [snapshotAt_insert h.registered hdecode]
    split_ifs with heq
    · exact ⟨state, by rw [heq]⟩
    · exact h.decodes seq (by omega)

/-! ## What a call does -/

section Call

variable {table : TransitionTable S E} {machine : StateMachine S E} {event : E}

theorem restoreState_failed {e : WorkflowFsmError S E} {machine' : StateMachine S E}
    (hout : restoreState backend serde journal id machine = (.error e, machine')) :
    machine' = machine := by
  rw [restoreState] at hout
  split at hout
  · exact (Prod.mk.inj hout).2.symm
  · exact (Prod.mk.inj hout).2.symm
  · split at hout
    · exact (Prod.mk.inj hout).2.symm
    · exact (Prod.mk.inj hout).2.symm
    · split at hout
      · exact (Prod.mk.inj hout).2.symm
      · cases (Prod.mk.inj hout).1

/-- To restore a machine reads the snapshot that the count points at. -/
theorem restoreState_of_count (machine : StateMachine S E) (h : Logged serde id journal n)
    {latest : ℕ} {state : S}
    (hcount : backend.count (n + 1) = latest + 1) (hlatest : latest ≤ n)
    (hstate : snapshotAt serde id journal latest = some ⟨state, latest⟩) :
    restoreState backend serde journal id machine
      = (.ok ⟨state, latest⟩, machine.setState state) := by
  obtain ⟨json, state', hjson, hstate', hdecode⟩ := h.read hlatest
  obtain rfl : state' = state := by
    have hsnapshot := Option.some.inj (hstate'.symm.trans hstate)
    exact (FsmSnapshot.mk.inj hsnapshot).1
  have hcompleted : completedJson journal id latest = .ok (some json) := by
    rw [completedJson, hasWorkflow, if_pos (decide_eq_true h.registered), hjson]
  simp only [restoreState, h.completedStepCount, hcount, hcompleted, hdecode]

variable [DecidableEq S] [DecidableEq E]

/-- A call without an edge fails; with the `u32` used up it answers with what is there; else it
    records the next snapshot. -/
theorem stepDurable_cases (backend : Backend) (event : E)
    (hserde : ∀ snapshot, serde.RoundTrips snapshot) (h : Logged serde id journal n)
    (htable : machine.table = table) :
    (table.next machine.state event = none
      ∧ ∃ e, stepDurable backend serde journal id machine event = (.error e, journal, machine))
    ∨ (¬ n + 1 < 2 ^ 32 ∧ ∃ snapshot, stepDurable backend serde journal id machine event
        = (.ok snapshot, journal, machine.setState snapshot.state))
    ∨ ∃ pending json, table.next machine.state event = some pending ∧ n + 1 < 2 ^ 32
        ∧ decodeOutput serde json = .ok ⟨pending, n + 1⟩
        ∧ stepDurable backend serde journal id machine event
          = (.ok ⟨pending, n + 1⟩, journal.insert id (n + 1) json h.registered,
            machine.setState pending) := by
  have hstep : stepDurable backend serde journal id machine event
      = match table.next machine.state event with
        | none => (.error (.transition (.noTransition machine.state event)), journal, machine)
        | some pending =>
            match runStepTyped serde journal id (backend.count (n + 1))
                (.ok ⟨pending, backend.count (n + 1)⟩) with
            | (.error e, journal) => (.error (.workflow e), journal, machine)
            | (.ok snapshot, journal) =>
                (.ok snapshot, journal, machine.setState snapshot.state) := by
    rw [stepDurable, hasWorkflow, if_pos (decide_eq_true h.registered), h.completedStepCount,
      htable]
  cases hnext : table.next machine.state event with
  | none => exact .inl ⟨rfl, _, by rw [hstep, hnext]⟩
  | some pending =>
      refine .inr ?_
      rw [hnext] at hstep
      by_cases hshort : n + 1 < 2 ^ 32
      -- the place after the last is free
      · obtain ⟨json, hencode, hdecode⟩ := encodeOutput_of_roundTrips (hserde ⟨pending, n + 1⟩)
        have hnone : journal.get id (n + 1) = none := by
          rw [← Option.not_isSome_iff_eq_none, h.isSome_get]
          omega
        rw [Backend.count_of_lt hshort] at hstep
        simp only [runStepTyped_computed h.registered hnone rfl hencode] at hstep
        exact .inr ⟨pending, json, rfl, hshort, hdecode, hstep⟩
      -- the place that is counted is taken
      · have hle : backend.count (n + 1) ≤ n := by
          have hn := h.short
          cases backend with
          | stub =>
              rw [Backend.count]
              omega
          | sqlite => exact (min_le_right _ _).trans (by omega)
        obtain ⟨json, state, hjson, -, hdecode⟩ := h.read hle
        simp only [runStepTyped_recorded h.registered hjson, hdecode] at hstep
        exact .inl ⟨hshort, _, hstep⟩

/-- While the `u32` lasts, a machine moves as it does without a log. -/
theorem stepDurable_step {snapshot : FsmSnapshot S} {journal' : Journal J}
    {machine' : StateMachine S E} (hserde : ∀ snapshot, serde.RoundTrips snapshot)
    (h : Logged serde id journal n) (hshort : n + 1 < 2 ^ 32)
    (hout : stepDurable backend serde journal id machine event
      = (.ok snapshot, journal', machine')) :
    machine.step event = (.ok snapshot.state, machine') := by
  rcases stepDurable_cases backend event hserde h rfl with
    ⟨-, e, hstep⟩ | ⟨hlong, -⟩ | ⟨pending, json, hnext, -, -, hstep⟩
  · cases (Prod.mk.inj (hout.symm.trans hstep)).1
  · exact absurd hshort hlong
  · obtain ⟨hsnapshot, hrest⟩ := Prod.mk.inj (hout.symm.trans hstep)
    rw [Except.ok.inj hsnapshot, (Prod.mk.inj hrest).2]
    have hedge : machine.table.next machine.current event = some pending := hnext
    simp only [StateMachine.step, hedge]
    rfl

/-- A call that fails records nothing and leaves its machine. -/
theorem stepDurable_failed {e : WorkflowFsmError S E} {out : Journal J × StateMachine S E}
    (hserde : ∀ snapshot, serde.RoundTrips snapshot) (h : Logged serde id journal n)
    (hout : stepDurable backend serde journal id machine event = (.error e, out)) :
    out = (journal, machine) := by
  rcases stepDurable_cases backend event hserde h rfl with
    ⟨-, e', hstep⟩ | ⟨-, snapshot, hstep⟩ | ⟨pending, json, -, -, -, hstep⟩
  · exact (Prod.mk.inj (hout.symm.trans hstep)).2
  · cases (Prod.mk.inj (hout.symm.trans hstep)).1
  · cases (Prod.mk.inj (hout.symm.trans hstep)).1

end Call

/-- The last snapshot is what restoring reads: the count is exact, or SQLite has stopped counting
    one short of it, at a snapshot with the same state. -/
def Readable (backend : Backend) (serde : Serde (FsmSnapshot S) J) (id : String)
    (journal : Journal J) (n : ℕ) : Prop :=
  n + 1 < 2 ^ 32 ∨ backend = .sqlite ∧ ∀ last previous,
    snapshotAt serde id journal n = some last →
    snapshotAt serde id journal (n - 1) = some previous → last.state = previous.state

theorem restores_iff (h : Logged serde id journal n)
    (machine : StateMachine S E) :
    (∀ last, snapshotAt serde id journal n = some last →
      ∃ snapshot, restoreState backend serde journal id machine
        = (.ok snapshot, machine.setState last.state))
    ↔ Readable backend serde id journal n := by
  obtain ⟨state, hstate⟩ := h.decodes n le_rfl
  by_cases hshort : n + 1 < 2 ^ 32
  · refine ⟨fun _ => .inl hshort, fun _ last hlast => ?_⟩
    obtain rfl := Option.some.inj (hstate.symm.trans hlast)
    exact ⟨_, restoreState_of_count machine h (Backend.count_of_lt hshort) le_rfl hstate⟩
  · have hn := h.short
    have hn' : n + 1 = 2 ^ 32 := by omega
    cases backend with
    | stub =>
        -- the count is cut off to zero
        have hfails : restoreState .stub serde journal id machine
            = (.error (.workflow (.unknownWorkflow id)), machine) := by
          have hzero : Backend.count .stub (n + 1) = 0 := by
            rw [hn']
            rfl
          simp only [restoreState, h.completedStepCount, hzero]
        constructor
        · intro hrestores
          obtain ⟨snapshot, hok⟩ := hrestores _ hstate
          cases (Prod.mk.inj (hok.symm.trans hfails)).1
        · rintro (hlt | ⟨hsqlite, -⟩)
          · exact absurd hlt hshort
          · cases hsqlite
    | sqlite =>
        have hcount : Backend.count .sqlite (n + 1) = (n - 1) + 1 := by
          rw [Backend.count]
          omega
        obtain ⟨state', hstate'⟩ := h.decodes (n - 1) (Nat.sub_le ..)
        have hreads := restoreState_of_count machine h hcount (Nat.sub_le ..) hstate'
        constructor
        · intro hrestores
          refine .inr ⟨rfl, fun last previous hlast hprevious => ?_⟩
          obtain rfl := Option.some.inj (hstate'.symm.trans hprevious)
          obtain ⟨snapshot, hok⟩ := hrestores last hlast
          have hmachine := (Prod.mk.inj (hok.symm.trans hreads)).2
          exact congrArg StateMachine.current hmachine
        · rintro (hlt | ⟨-, hsame⟩) last hlast
          · exact absurd hlt hshort
          · rw [hsame last _ hlast hstate']
            exact ⟨_, hreads⟩

end Log

/-! ## Which interleavings keep the log -/

section Interleavings

variable {backend : Backend} {serde : Serde (FsmSnapshot S) J} {id : String}
variable {table : TransitionTable S E} {s s' : Sys S E J}

/-- Machines over one table, and a log with one snapshot more than events. -/
structure Sys.Valid (serde : Serde (FsmSnapshot S) J) (id : String) (table : TransitionTable S E)
    (s : Sys S E J) : Prop where
  tables : ∀ m, (s.machines m).table = table
  logged : Logged serde id s.journal s.events.length

theorem update_tables (h : ∀ m, (s.machines m).table = table) {m : ℕ} {machine : StateMachine S E}
    (hmachine : machine.table = table) (m' : ℕ) :
    (Function.update s.machines m machine m').table = table := by
  by_cases hm : m' = m
  · rw [hm, Function.update_self, hmachine]
  · rw [Function.update_of_ne hm, h]

theorem restoreState_table (journal : Journal J) (machine : StateMachine S E) :
    (restoreState backend serde journal id machine).2.table = machine.table := by
  rw [restoreState]
  split
  · rfl
  · rfl
  · split
    · rfl
    · rfl
    · split <;> rfl

/-- With one snapshot more. -/
theorem readable_snoc_iff {journal : Journal J} {n : ℕ} {json : J} {pending last : S}
    (h : Logged serde id journal n) (hdecode : decodeOutput serde json = .ok ⟨pending, n + 1⟩)
    (hlast : snapshotAt serde id journal n = some ⟨last, n⟩) :
    Readable backend serde id (journal.insert id (n + 1) json h.registered) (n + 1)
      ↔ n + 2 < 2 ^ 32 ∨ backend = .sqlite ∧ pending = last := by
  have hnew : snapshotAt serde id (journal.insert id (n + 1) json h.registered) (n + 1)
      = some ⟨pending, n + 1⟩ := by
    rw [snapshotAt_insert h.registered hdecode, if_pos rfl]
  have hold : snapshotAt serde id (journal.insert id (n + 1) json h.registered) (n + 1 - 1)
      = some ⟨last, n⟩ := by
    rw [Nat.add_sub_cancel, snapshotAt_insert h.registered hdecode, if_neg (by omega), hlast]
  refine or_congr_right (and_congr_right fun _ => ⟨fun hsame => hsame _ _ hnew hold, ?_⟩)
  rintro hsame a b ha hb
  obtain rfl := Option.some.inj (hnew.symm.trans ha)
  obtain rfl := Option.some.inj (hold.symm.trans hb)
  exact hsame

variable [DecidableEq S] [DecidableEq E]

/-- Each event leads from a snapshot to the next. -/
def Chained (serde : Serde (FsmSnapshot S) J) (id : String) (table : TransitionTable S E)
    (journal : Journal J) (events : List E) : Prop :=
  ∀ i event snapshot snapshot', events[i]? = some event →
    snapshotAt serde id journal i = some snapshot →
    snapshotAt serde id journal (i + 1) = some snapshot' →
    table.next snapshot.state event = some snapshot'.state

theorem Sys.Valid.logIsRun_iff (hserde : ∀ snapshot, serde.RoundTrips snapshot)
    (h : s.Valid serde id table) :
    LogIsRun backend serde id table s
      ↔ Chained serde id table s.journal s.events
        ∧ Readable backend serde id s.journal s.events.length := by
  constructor
  · exact fun hrun => ⟨hrun.chain, (restores_iff h.logged (s.machines 0)).mp (hrun.restores 0)⟩
  · rintro ⟨hchain, hread⟩
    refine ⟨h.logged.isSome_get, fun seq hseq => ?_, hchain,
      fun m event e out hout => stepDurable_failed hserde h.logged hout,
      fun m e machine hout => restoreState_failed hout,
      fun m => (restores_iff h.logged (s.machines m)).mpr hread⟩
    obtain ⟨state, hstate⟩ := h.logged.decodes seq hseq
    exact ⟨_, hstate, rfl⟩

/-- One event more, from the last snapshot to a new one. -/
theorem chained_snoc_iff {journal : Journal J} {events : List E} {event : E} {json : J}
    {pending last : S} (h : Logged serde id journal events.length)
    (hdecode : decodeOutput serde json = .ok ⟨pending, events.length + 1⟩)
    (hlast : snapshotAt serde id journal events.length = some ⟨last, events.length⟩) :
    Chained serde id table (journal.insert id (events.length + 1) json h.registered)
        (events ++ [event])
      ↔ Chained serde id table journal events ∧ table.next last event = some pending := by
  -- what was there before is read as before
  have hold : ∀ seq, seq ≤ events.length →
      snapshotAt serde id (journal.insert id (events.length + 1) json h.registered) seq
        = snapshotAt serde id journal seq := fun seq hseq => by
    rw [snapshotAt_insert h.registered hdecode, if_neg (by omega)]
  have hnew : snapshotAt serde id (journal.insert id (events.length + 1) json h.registered)
      (events.length + 1) = some ⟨pending, events.length + 1⟩ := by
    rw [snapshotAt_insert h.registered hdecode, if_pos rfl]
  constructor
  · intro hchain
    refine ⟨fun i e a b he ha hb => ?_, ?_⟩
    · have hi : i < events.length := (List.getElem?_eq_some_iff.mp he).1
      refine hchain i e a b ?_ ((hold i hi.le).trans ha) ((hold (i + 1) hi).trans hb)
      rw [List.getElem?_append_left hi, he]
    · refine hchain events.length event _ _ ?_ ((hold _ le_rfl).trans hlast) hnew
      rw [List.getElem?_append_right le_rfl, Nat.sub_self]
      rfl
  · rintro ⟨hchain, hedge⟩ i e a b he ha hb
    have hi : i < events.length + 1 := by
      have hlt := (List.getElem?_eq_some_iff.mp he).1
      rwa [List.length_append, List.length_singleton] at hlt
    rcases Nat.lt_succ_iff_lt_or_eq.mp hi with hi | rfl
    · rw [List.getElem?_append_left hi] at he
      rw [hold i hi.le] at ha
      rw [hold (i + 1) hi] at hb
      exact hchain i e a b he ha hb
    · rw [List.getElem?_append_right le_rfl, Nat.sub_self] at he
      rw [hold _ le_rfl, hlast] at ha
      rw [hnew] at hb
      obtain rfl := Option.some.inj he
      obtain rfl := Option.some.inj ha
      obtain rfl := Option.some.inj hb
      exact hedge

/-- A machine over the table changes its state, and the log stays. -/
theorem Sys.Valid.setMachine (backend : Backend) (hserde : ∀ snapshot, serde.RoundTrips snapshot)
    (h : s.Valid serde id table) (m : ℕ) {machine : StateMachine S E}
    (hmachine : machine.table = table) :
    Sys.Valid serde id table ⟨s.journal, Function.update s.machines m machine, s.events⟩
      ∧ (LogIsRun backend serde id table
          ⟨s.journal, Function.update s.machines m machine, s.events⟩
        ↔ LogIsRun backend serde id table s) := by
  have hvalid : Sys.Valid serde id table
      ⟨s.journal, Function.update s.machines m machine, s.events⟩ :=
    ⟨update_tables h.tables hmachine, h.logged⟩
  refine ⟨hvalid, ?_⟩
  rw [hvalid.logIsRun_iff hserde, h.logIsRun_iff hserde]

/-- A machine over the table changes its state, and a snapshot is recorded. -/
theorem Sys.Valid.record (backend : Backend) (hserde : ∀ snapshot, serde.RoundTrips snapshot)
    (h : s.Valid serde id table) (m : ℕ) {machine : StateMachine S E}
    (hmachine : machine.table = table) (event : E) {json : J} {pending last : S}
    (hshort : s.events.length + 1 < 2 ^ 32)
    (hdecode : decodeOutput serde json = .ok ⟨pending, s.events.length + 1⟩)
    (hlast : snapshotAt serde id s.journal s.events.length = some ⟨last, s.events.length⟩) :
    Sys.Valid serde id table
        ⟨s.journal.insert id (s.events.length + 1) json h.logged.registered,
          Function.update s.machines m machine, s.events ++ [event]⟩
      ∧ (LogIsRun backend serde id table
          ⟨s.journal.insert id (s.events.length + 1) json h.logged.registered,
            Function.update s.machines m machine, s.events ++ [event]⟩
        ↔ LogIsRun backend serde id table s ∧ table.next last event = some pending
          ∧ (s.events.length + 2 < 2 ^ 32 ∨ backend = .sqlite ∧ pending = last)) := by
  have hvalid : Sys.Valid serde id table
      ⟨s.journal.insert id (s.events.length + 1) json h.logged.registered,
        Function.update s.machines m machine, s.events ++ [event]⟩ := by
    refine ⟨update_tables h.tables hmachine, ?_⟩
    rw [List.length_append]
    exact h.logged.snoc hshort hdecode
  refine ⟨hvalid, ?_⟩
  have hread : Readable backend serde id s.journal s.events.length := .inl hshort
  rw [hvalid.logIsRun_iff hserde, h.logIsRun_iff hserde, chained_snoc_iff h.logged hdecode hlast,
    List.length_append, List.length_singleton, readable_snoc_iff h.logged hdecode hlast,
    and_iff_left hread, and_assoc]

/-- **A call** keeps the log valid, and a run of the table exactly when it follows. -/
theorem Sys.Valid.step (hserde : ∀ snapshot, serde.RoundTrips snapshot)
    (h : s.Valid serde id table) {a : Label E} (hstep : s.step backend serde id a = some s') :
    s'.Valid serde id table
      ∧ (LogIsRun backend serde id table s'
        ↔ LogIsRun backend serde id table s ∧ Follows backend serde id table s a) := by
  cases a with
  | restoreState m =>
      obtain rfl := Option.some.inj hstep
      obtain ⟨hvalid, hrun⟩ :=
        h.setMachine backend hserde m ((restoreState_table ..).trans (h.tables m))
      exact ⟨hvalid, hrun.trans (and_iff_left trivial).symm⟩
  | stepDurable m event =>
      obtain rfl := Option.some.inj hstep
      rcases stepDurable_cases backend event hserde h.logged (h.tables m) with
        ⟨hnone, e, hout⟩ | ⟨hlong, snapshot, hout⟩ | ⟨pending, json, hnext, hshort, hdecode, hout⟩
      · obtain ⟨hvalid, hrun⟩ := h.setMachine backend hserde m (h.tables m)
        simp only [hout, if_true]
        refine ⟨hvalid, hrun.trans (and_iff_left fun pending hpending => ?_).symm⟩
        rw [hnone] at hpending
        cases hpending
      · have htable : ((s.machines m).setState snapshot.state).table = table := h.tables m
        obtain ⟨hvalid, hrun⟩ := h.setMachine backend hserde m htable
        simp only [hout, if_true]
        exact ⟨hvalid, hrun.trans (and_iff_left fun _ _ hshort => absurd hshort hlong).symm⟩
      · have hgrew : logLength (s.journal.insert id (s.events.length + 1) json
            h.logged.registered) id ≠ logLength s.journal id := by
          rw [(h.logged.snoc hshort hdecode).logLength, h.logged.logLength]
          omega
        have htable : ((s.machines m).setState pending).table = table := h.tables m
        obtain ⟨last, hlast⟩ := h.logged.decodes _ le_rfl
        obtain ⟨hvalid, hrun⟩ := h.record backend hserde m htable event hshort hdecode hlast
        simp only [hout, if_neg hgrew]
        refine ⟨hvalid, hrun.trans (and_congr_right fun _ => ?_)⟩
        constructor
        · intro hf pending' hnext' _ last' hlast'
          obtain rfl := Option.some.inj (hnext.symm.trans hnext')
          obtain rfl := Option.some.inj (hlast.symm.trans hlast')
          exact hf
        · exact fun hf => hf pending hnext hshort _ hlast

/-- The log that registration leaves. -/
theorem Started.valid (backend : Backend) (hserde : ∀ snapshot, serde.RoundTrips snapshot)
    (h : Started serde id table s) :
    s.Valid serde id table ∧ LogIsRun backend serde id table s := by
  obtain ⟨htables, hevents, journal, m, snapshot, hregister⟩ := h
  have hlogged : Logged serde id s.journal 0 := by
    rw [registerFsm] at hregister
    cases hworkflow : registerWorkflow journal id with
    | mk result journal' =>
        cases result with
        | error e =>
            rw [hworkflow] at hregister
            cases (Prod.mk.inj hregister).1
        | ok u =>
            obtain ⟨hreg, hempty⟩ := registerWorkflow_ok hworkflow
            obtain ⟨json, hencode, hdecode⟩ :=
              encodeOutput_of_roundTrips (hserde ⟨(s.machines m).state, 0⟩)
            have hnone : journal'.get id 0 = none := by
              rw [Journal.get, hempty]
              rfl
            simp only [hworkflow, runStepTyped_computed hreg hnone rfl hencode] at hregister
            rw [← (Prod.mk.inj hregister).2]
            refine ⟨hreg, by omega, ?_, fun seq hseq => ⟨(s.machines m).state, ?_⟩⟩
            · simp only [Journal.insert, Function.update_self, hempty]
              rfl
            · obtain rfl := Nat.le_zero.mp hseq
              rw [snapshotAt_insert hreg hdecode, if_pos rfl]
  have hvalid : s.Valid serde id table := ⟨htables, by rw [hevents]; exact hlogged⟩
  refine ⟨hvalid, (hvalid.logIsRun_iff hserde).mpr ⟨fun i event _ _ he => ?_, .inl ?_⟩⟩
  · rw [hevents] at he
    cases he
  · rw [hevents, List.length_nil]
    omega

/-- **The log of a durable machine** is a run of its table exactly when every call that records
    takes the edge of the last recorded state. -/
theorem durable_log_iff (backend : Backend) (serde : Serde (FsmSnapshot S) J)
    (hserde : ∀ snapshot, serde.RoundTrips snapshot) (id : String) (table : TransitionTable S E)
    (start : Sys S E J) (hstart : Started serde id table start) (ls : List (Label E))
    (s : Sys S E J) (hrun : run (Sys.step backend serde id) start ls = some s) :
    LogIsRun backend serde id table s
      ↔ Along (Sys.step backend serde id) (Follows backend serde id table) start ls := by
  obtain ⟨hvalid, hlog⟩ := hstart.valid backend hserde
  rw [run_iff_along (I := Sys.Valid serde id table) (J := LogIsRun backend serde id table)
    (fun _ _ _ hs _ hstep => (hs.step hserde hstep).1)
    (fun _ _ _ hs _ hstep => (hs.step hserde hstep).2) hvalid (along_true ..) hrun]
  exact and_iff_right hlog

end Interleavings

/-- A door that is open (`true`) or not; an event says what it is to be. -/
def door : TransitionTable Bool Bool := (TransitionTable.new.on false true true).on true false false

/-- Machines that all begin with the door closed. -/
def doors : Sys Bool Bool (FsmSnapshot Bool) where
  journal := (registerFsm .identity .empty "door" (.new false door)).2
  machines _ := .new false door
  events := []

theorem doors_started : Started .identity "door" door doors :=
  ⟨fun _ => rfl, rfl, .empty, 0, ⟨false, 0⟩, Prod.ext (by rfl) rfl⟩

/-- The second machine does not know that the first has opened the door, and opens it again. -/
theorem stale_machine_breaks_log :
    ∃ s, run (Sys.step .stub .identity "door") doors [.stepDurable 0 true, .stepDurable 1 true]
        = some s
      ∧ ¬ LogIsRun .stub .identity "door" door s := by
  have hlast : (run (Sys.step .stub .identity "door") doors
      [.stepDurable 0 true, .stepDurable 1 true]).map (fun s => (s.events,
        snapshotAt .identity "door" s.journal 1, snapshotAt .identity "door" s.journal 2))
      = some ([true, true], some ⟨true, 1⟩, some ⟨true, 2⟩) := by decide +kernel
  obtain ⟨s, hrun, hlog⟩ := exists_run _ hlast
  simp only [Prod.mk.injEq] at hlog
  obtain ⟨hevents, hone, htwo⟩ := hlog
  refine ⟨s, hrun, fun h => ?_⟩
  have hedge := h.chain 1 true _ _ (by rw [hevents]; rfl) hone htwo
  exact absurd hedge (by decide)

/-- Had it been restored, it would have known. -/
theorem durable_log_iff_restored :
    ∃ s, run (Sys.step .stub .identity "door") doors
        [.stepDurable 0 true, .restoreState 1, .stepDurable 1 false] = some s
      ∧ s.events = [true, false] ∧ LogIsRun .stub .identity "door" door s := by
  have hlast : (run (Sys.step .stub .identity "door") doors
      [.stepDurable 0 true, .restoreState 1, .stepDurable 1 false]).map Sys.events
      = some [true, false] := by decide +kernel
  obtain ⟨s, hrun, hevents⟩ := exists_run _ hlast
  exact ⟨s, hrun, hevents, (durable_log_iff .stub .identity Serde.identity_roundTrips "door" door
    doors doors_started _ s hrun).mpr (by decide +kernel)⟩

end IdEffect.Fsm
