import IdEffect.Fsm.Durable

set_option autoImplicit false

/-! # Effects on transitions

`Interpreter::step` runs the effect that is registered for the state and the event, and only then
looks the edge up. An effect without an edge is run all the same, and one that fails keeps the
machine from the edge, so that the effects that are run are those of the transitions only where the
actions fit the table (`run_follows_iff`). -/

namespace IdEffect.Fsm

variable {S E A Err R W : Type}

/-- What a factory makes, run to its end: it may change the world. -/
abbrev TransitionEffect (A Err R W : Type) : Type := R → W → Except Err A × W

inductive RunError (S E Err : Type) where
  | transition (e : FsmError S E)
  | effect (e : Err)

/-- `ran` are the states and events whose effects were run, `taken` those of the transitions that
    the machine took. -/
structure Host (S E W : Type) where
  machine : StateMachine S E
  world : W
  ran : List (S × E)
  taken : List (S × E)

structure Interpreter (S E A Err R W : Type) where
  actions : AList fun _ : S × E => TransitionEffect A Err R W

namespace Host

def start (machine : StateMachine S E) (world : W) : Host S E W := ⟨machine, world, [], []⟩

def advance [DecidableEq S] [DecidableEq E] (host : Host S E W) (event : E) :
    Except (FsmError S E) S × Host S E W :=
  match host.machine.step event with
  | (.ok target, machine) =>
      (.ok target, { host with machine, taken := host.taken ++ [(host.machine.state, event)] })
  | (.error e, machine) => (.error e, { host with machine })

/-- The effect that is registered for the event was run. -/
def acted (host : Host S E W) (event : E) (world : W) : Host S E W :=
  { host with world, ran := host.ran ++ [(host.machine.state, event)] }

/-- The machine took the edge to `target`. -/
def moved (host : Host S E W) (event : E) (target : S) : Host S E W :=
  { host with
    machine := { host.machine with current := target }
    taken := host.taken ++ [(host.machine.state, event)] }

theorem advance_of_edge [DecidableEq S] [DecidableEq E] {host : Host S E W} {event : E} {target : S}
    (h : host.machine.table.next host.machine.state event = some target) :
    host.advance event = (.ok target, host.moved event target) := by
  rw [StateMachine.state] at h
  simp only [advance, StateMachine.step, h]
  rfl

theorem advance_of_none [DecidableEq S] [DecidableEq E] {host : Host S E W} {event : E}
    (h : host.machine.table.next host.machine.state event = none) :
    host.advance event = (.error (.noTransition host.machine.state event), host) := by
  rw [StateMachine.state] at h
  simp only [advance, StateMachine.step, h]
  rfl

end Host

namespace Interpreter

variable [DecidableEq S] [DecidableEq E]

def new : Interpreter S E A Err R W := ⟨∅⟩

def onTransition (interp : Interpreter S E A Err R W) (source : S) (event : E)
    (make : TransitionEffect A Err R W) : Interpreter S E A Err R W :=
  ⟨interp.actions.insert (source, event) make⟩

def step (interp : Interpreter S E A Err R W) (host : Host S E W) (event : E) (env : R) :
    Except (RunError S E Err) S × Host S E W :=
  match interp.actions.lookup (host.machine.state, event) with
  | none => ((host.advance event).1.mapError .transition, (host.advance event).2)
  | some make =>
      let (result, world) := make env host.world
      let host := host.acted event world
      match result with
      | .error e => (.error (.effect e), host)
      | .ok _ => ((host.advance event).1.mapError .transition, (host.advance event).2)

def run (interp : Interpreter S E A Err R W) (host : Host S E W) (events : List E) (env : R) :
    Except (RunError S E Err) S × Host S E W :=
  match events with
  | [] => (.ok host.machine.state, host)
  | event :: events =>
      match interp.step host event env with
      | (.error e, host) => (.error e, host)
      | (.ok _, host) => run interp host events env

/-- There is an effect for the state and the event. -/
def registers (interp : Interpreter S E A Err R W) (p : S × E) : Bool :=
  (interp.actions.lookup p).isSome

/-! ## What a step does -/

/-- The five ways a step can go: with or without an effect, with or without an edge, and with an
    effect that fails. -/
inductive Steps (interp : Interpreter S E A Err R W) (env : R) (host : Host S E W) (event : E) :
    Except (RunError S E Err) S × Host S E W → Prop
  | edge {target : S} (hact : interp.actions.lookup (host.machine.state, event) = none)
      (hnext : host.machine.table.next host.machine.state event = some target) :
      Steps interp env host event (.ok target, host.moved event target)
  | noEdge (hact : interp.actions.lookup (host.machine.state, event) = none)
      (hnext : host.machine.table.next host.machine.state event = none) :
      Steps interp env host event
        (.error (.transition (.noTransition host.machine.state event)), host)
  | actEdge {make : TransitionEffect A Err R W} {a : A} {target : S}
      (hact : interp.actions.lookup (host.machine.state, event) = some make)
      (hok : (make env host.world).1 = .ok a)
      (hnext : host.machine.table.next host.machine.state event = some target) :
      Steps interp env host event
        (.ok target, (host.acted event (make env host.world).2).moved event target)
  | actNoEdge {make : TransitionEffect A Err R W} {a : A}
      (hact : interp.actions.lookup (host.machine.state, event) = some make)
      (hok : (make env host.world).1 = .ok a)
      (hnext : host.machine.table.next host.machine.state event = none) :
      Steps interp env host event
        (.error (.transition (.noTransition host.machine.state event)),
          host.acted event (make env host.world).2)
  | actFails {make : TransitionEffect A Err R W} {e : Err}
      (hact : interp.actions.lookup (host.machine.state, event) = some make)
      (herr : (make env host.world).1 = .error e) :
      Steps interp env host event
        (.error (.effect e), host.acted event (make env host.world).2)

theorem step_spec (interp : Interpreter S E A Err R W) (env : R) (host : Host S E W) (event : E) :
    Steps interp env host event (interp.step host event env) := by
  rw [step]
  cases hact : interp.actions.lookup (host.machine.state, event) with
  | none =>
      cases hnext : host.machine.table.next host.machine.state event with
      | none =>
          rw [Host.advance_of_none hnext]
          exact .noEdge hact hnext
      | some target =>
          rw [Host.advance_of_edge hnext]
          exact .edge hact hnext
  | some make =>
      dsimp only
      cases hres : (make env host.world).1 with
      | error e => exact .actFails hact hres
      | ok a =>
          dsimp only
          -- the effect changes neither the machine nor its table
          cases hnext : host.machine.table.next host.machine.state event with
          | none =>
              have hacted : (host.acted event (make env host.world).2).machine.table.next
                  (host.acted event (make env host.world).2).machine.state event = none := hnext
              rw [Host.advance_of_none hacted]
              exact .actNoEdge hact hres hnext
          | some target =>
              have hacted : (host.acted event (make env host.world).2).machine.table.next
                  (host.acted event (make env host.world).2).machine.state event = some target :=
                hnext
              rw [Host.advance_of_edge hacted]
              exact .actEdge hact hres hnext

/-! ## Effects of transitions -/

/-- Wherever the run comes to, an effect that is registered has an edge, and succeeds. -/
def ActionsFit (interp : Interpreter S E A Err R W) (table : TransitionTable S E) (env : R) :
    S → W → List E → Prop
  | _, _, [] => True
  | s, w, event :: events =>
      match interp.actions.lookup (s, event), table.next s event with
      | none, none => True
      | none, some target => ActionsFit interp table env target w events
      | some _, none => False
      | some make, some target =>
          (∃ a, (make env w).1 = .ok a) ∧ ActionsFit interp table env target (make env w).2 events

/-- The effects that were run are those of the transitions, each once and in their order. -/
def Host.OfTransitions (interp : Interpreter S E A Err R W) (host : Host S E W) : Prop :=
  host.ran = host.taken.filter interp.registers

theorem registers_eq_true {interp : Interpreter S E A Err R W} {p : S × E}
    {make : TransitionEffect A Err R W} (h : interp.actions.lookup p = some make) :
    interp.registers p = true := by
  rw [registers, h]
  rfl

theorem ofTransitions_moved {interp : Interpreter S E A Err R W} {host : Host S E W} {event : E}
    (h : Host.OfTransitions interp host) (target : S)
    (hact : interp.actions.lookup (host.machine.state, event) = none) :
    Host.OfTransitions interp (host.moved event target) := by
  rw [Host.OfTransitions] at h ⊢
  have hfilter : interp.registers (host.machine.state, event) = false := by
    rw [registers, hact]
    rfl
  rw [Host.moved, List.filter_append, ← h, List.filter_singleton, hfilter]
  exact (List.append_nil _).symm

theorem ofTransitions_acted_moved {interp : Interpreter S E A Err R W} {host : Host S E W}
    {event : E} {make : TransitionEffect A Err R W} (h : Host.OfTransitions interp host)
    (target : S) (world : W)
    (hact : interp.actions.lookup (host.machine.state, event) = some make) :
    Host.OfTransitions interp ((host.acted event world).moved event target) := by
  rw [Host.OfTransitions] at h ⊢
  have hran : (host.acted event world).ran = host.ran ++ [(host.machine.state, event)] := rfl
  have htaken : ((host.acted event world).moved event target).taken
      = host.taken ++ [(host.machine.state, event)] := rfl
  rw [htaken, List.filter_append, ← h, List.filter_singleton, registers_eq_true hact]
  exact hran

/-- An effect without a transition is one too many. -/
theorem not_ofTransitions_acted {interp : Interpreter S E A Err R W} {host : Host S E W}
    (h : Host.OfTransitions interp host) (event : E) (world : W) :
    ¬ Host.OfTransitions interp (host.acted event world) := by
  intro hacted
  have hlen := congrArg List.length (hacted.trans h.symm)
  simp [Host.acted] at hlen

theorem run_ofTransitions_iff (interp : Interpreter S E A Err R W) (env : R) (events : List E)
    (host : Host S E W) (h : Host.OfTransitions interp host) :
    Host.OfTransitions interp (interp.run host events env).2
      ↔ ActionsFit interp host.machine.table env host.machine.state host.world events := by
  induction events generalizing host with
  | nil => exact iff_of_true h trivial
  | cons event events ih =>
      rw [run, ActionsFit]
      have hspec := step_spec interp env host event
      generalize interp.step host event env = r at hspec ⊢
      cases hspec with
      | edge hact hnext =>
          rw [hact, hnext]
          exact ih _ (ofTransitions_moved h _ hact)
      | noEdge hact hnext =>
          rw [hact, hnext]
          exact iff_of_true h trivial
      | actEdge hact hok hnext =>
          rw [hact, hnext]
          exact (ih _ (ofTransitions_acted_moved h _ _ hact)).trans (and_iff_right ⟨_, hok⟩).symm
      | actNoEdge hact hok hnext =>
          rw [hact, hnext]
          exact iff_of_false (not_ofTransitions_acted h event _) id
      | actFails hact herr =>
          refine iff_of_false (not_ofTransitions_acted h event _) fun hfit => ?_
          rw [hact] at hfit
          cases hnext : host.machine.table.next host.machine.state event with
          | none =>
              rw [hnext] at hfit
              exact hfit
          | some target =>
              rw [hnext] at hfit
              obtain ⟨⟨a, ha⟩, -⟩ := hfit
              cases ha.symm.trans herr

/-- A run that stops has taken the edges of the events before the one it stops at. -/
theorem run_stopped {interp : Interpreter S E A Err R W} {env : R} {events : List E}
    {host host' : Host S E W} {e : RunError S E Err}
    (h : interp.run host events env = (.error e, host')) :
    ∃ done failing rest, events = done ++ failing :: rest
      ∧ host'.taken.map Prod.snd = host.taken.map Prod.snd ++ done
      ∧ done.foldlM host.machine.table.next host.machine.state = some host'.machine.state := by
  induction events generalizing host with
  | nil => cases congrArg Prod.fst h
  | cons event events ih =>
      -- with or without an effect, the machine has taken the edge
      have later : ∀ {acted : Host S E W} {target : S},
          host.machine.table.next host.machine.state event = some target →
          acted.machine = host.machine → acted.taken = host.taken →
          interp.run (acted.moved event target) events env = (.error e, host') →
          ∃ done failing rest, event :: events = done ++ failing :: rest
            ∧ host'.taken.map Prod.snd = host.taken.map Prod.snd ++ done
            ∧ done.foldlM host.machine.table.next host.machine.state
              = some host'.machine.state := by
        intro acted target hnext hmachine htaken hrun
        obtain ⟨done, failing, rest, rfl, hdone, hstate⟩ := ih hrun
        refine ⟨event :: done, failing, rest, rfl, ?_, ?_⟩
        · rw [hdone, Host.moved, htaken, List.map_append, List.append_assoc]
          rfl
        · rw [List.foldlM_cons, hnext, ← hmachine]
          exact hstate
      rw [run] at h
      have hspec := step_spec interp env host event
      generalize interp.step host event env = r at hspec h
      cases hspec with
      | edge hact hnext => exact later hnext rfl rfl h
      | noEdge hact hnext =>
          obtain ⟨-, rfl⟩ := Prod.mk.inj h
          exact ⟨[], event, events, rfl, (List.append_nil _).symm, rfl⟩
      | actEdge hact hok hnext =>
          exact @later (host.acted event _) _ hnext rfl rfl h
      | actNoEdge hact hok hnext =>
          obtain ⟨-, rfl⟩ := Prod.mk.inj h
          exact ⟨[], event, events, rfl, (List.append_nil _).symm, rfl⟩
      | actFails hact herr =>
          obtain ⟨-, rfl⟩ := Prod.mk.inj h
          exact ⟨[], event, events, rfl, (List.append_nil _).symm, rfl⟩

/-- The effects follow the transitions; after an error the machine is where the events before the
    failing one have taken it. -/
structure Follows (interp : Interpreter S E A Err R W) (machine : StateMachine S E) (world : W)
    (events : List E) (env : R) : Prop where
  effects : Host.OfTransitions interp (interp.run (.start machine world) events env).2
  stopped : ∀ e host, interp.run (.start machine world) events env = (.error e, host) →
    ∃ done failing rest, events = done ++ failing :: rest
      ∧ host.taken.map Prod.snd = done
      ∧ done.foldlM machine.table.next machine.state = some host.machine.state

/-- **A run's effects follow its transitions exactly when, wherever the run comes to, a registered
    effect has an edge and succeeds.** -/
theorem run_follows_iff (interp : Interpreter S E A Err R W) (machine : StateMachine S E)
    (world : W) (events : List E) (env : R) :
    Follows interp machine world events env
      ↔ ActionsFit interp machine.table env machine.state world events := by
  have heffects := run_ofTransitions_iff interp env events (.start machine world) rfl
  exact ⟨fun h => heffects.mp h.effects,
    fun h => ⟨heffects.mpr h, fun e host hrun => run_stopped hrun⟩⟩

/-- A door that is opened twice: the second time there is no edge, and the effect is run. -/
theorem effect_without_edge :
    ¬ Follows (new.onTransition true () fun _ w => (.ok (), w) : Interpreter _ _ Unit Unit Unit _)
      (.new false (TransitionTable.new.on false () true)) () [(), ()] () := by
  intro h
  cases h.effects

end Interpreter

end IdEffect.Fsm
