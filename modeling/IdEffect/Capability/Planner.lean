import Mathlib.Data.List.AList
import IdEffect.Lib.Kahn

set_option autoImplicit false

/-! # The planner: `capability/planner.rs`

`plan_topological` checks that provider ids and provided capabilities are distinct, turns the
requirements into edges from provider to dependent, counted as often as they are stated and without
those a provider has on itself, and drains the graph from the providers that need nothing.

Names are only ever compared, so any type of names will do. Hash maps are association lists with
distinct keys; the order in which one is iterated is not specified and is given by an `Iteration`.
The loop runs with a bound on its rounds, and `none` stands for running out of it and for the
places where the code would panic (`expect`, an underflow): the plan is never `none`
(`planTopological_cases`). -/

namespace IdEffect.Capability

variable {Name V : Type} [DecidableEq Name]

structure PlannerNode (Name : Type) where
  id : Name
  requires : List Name
  provides : Name
deriving DecidableEq

structure PlannerPlan (Name : Type) where
  buildOrder : List Name
deriving DecidableEq

inductive CapabilityPlannerError (Name : Type) where
  | duplicateProviderId (id : Name)
  | conflictingProvider (cap first second : Name)
  | missingProvider (provider cap : Name)
  | cycleDetected (nodes : List Name)
deriving DecidableEq

/-! ## Hash maps -/

abbrev HashMap (Name V : Type) : Type := AList fun _ : Name => V

/-- `hash_map::modify`. -/
def HashMap.modify (m : HashMap Name V) (key : Name) (f : Option V → Option V) : HashMap Name V :=
  match f (m.lookup key) with
  | some v => m.insert key v
  | none => m.erase key

/-- The order in which the entries of a hash map come. -/
structure Iteration (Name : Type) where
  order : List (Sigma fun _ : Name => ℕ) → List (Sigma fun _ : Name => ℕ)
  perm : ∀ entries, (order entries).Perm entries

/-- The keys of a map of numbers that meet a condition, in the order of the iteration. -/
def Iteration.keysWhere (iter : Iteration Name) (p : ℕ → Bool) (m : HashMap Name ℕ) : List Name :=
  (iter.order m.entries).filterMap fun e => if p e.2 then some e.1 else none

/-! ## The planner -/

/-- The loop over `ids`, a set. -/
def checkIds (ids : List Name) :
    List (PlannerNode Name) → Except (CapabilityPlannerError Name) Unit
  | [] => .ok ()
  | node :: nodes =>
      if node.id ∈ ids then .error (.duplicateProviderId node.id)
      else checkIds (node.id :: ids) nodes

/-- The loop that fills `provider_by_cap`. -/
def collectProviders (providerByCap : HashMap Name Name) :
    List (PlannerNode Name) → Except (CapabilityPlannerError Name) (HashMap Name Name)
  | [] => .ok providerByCap
  | node :: nodes =>
      match providerByCap.lookup node.provides with
      | some existing => .error (.conflictingProvider node.provides existing node.id)
      | none => collectProviders (providerByCap.insert node.provides node.id) nodes

structure Graph (Name : Type) where
  indegree : HashMap Name ℕ
  edges : HashMap Name (List Name)

namespace Graph

/-- Every node is there, without edges. -/
def initial : List (PlannerNode Name) → Graph Name → Graph Name
  | [], g => g
  | node :: nodes, g =>
      initial nodes
        ⟨HashMap.modify g.indegree node.id fun opt => some (opt.getD 0),
          HashMap.modify g.edges node.id fun opt => some (opt.getD [])⟩

def addEdge (g : Graph Name) (provider dependent : Name) : Graph Name :=
  ⟨HashMap.modify g.indegree dependent fun opt => some (opt.getD 0 + 1),
    HashMap.modify g.edges provider fun opt => some (opt.getD [] ++ [dependent])⟩

/-- The requirements of one node. -/
def addRequirements (providerByCap : HashMap Name Name) (id : Name) :
    List Name → Graph Name → Except (CapabilityPlannerError Name) (Graph Name)
  | [], g => .ok g
  | required :: rest, g =>
      match providerByCap.lookup required with
      | none => .error (.missingProvider id required)
      | some provider =>
          -- `continue`: a node does not wait for itself
          if provider = id then addRequirements providerByCap id rest g
          else addRequirements providerByCap id rest (g.addEdge provider id)

def addNodes (providerByCap : HashMap Name Name) :
    List (PlannerNode Name) → Graph Name → Except (CapabilityPlannerError Name) (Graph Name)
  | [], g => .ok g
  | node :: nodes, g =>
      match addRequirements providerByCap node.id node.requires g with
      | .error e => .error e
      | .ok g => addNodes providerByCap nodes g

end Graph

/-- The first half of `plan_topological`. -/
def buildGraph (nodes : List (PlannerNode Name)) :
    Except (CapabilityPlannerError Name) (Graph Name) :=
  match checkIds [] nodes with
  | .error e => .error e
  | .ok () =>
      match collectProviders ∅ nodes with
      | .error e => .error e
      | .ok providerByCap => Graph.addNodes providerByCap nodes (Graph.initial nodes ⟨∅, ∅⟩)

/-- The inner loop, over the dependents of a drained node. -/
def release (indegree : HashMap Name ℕ) (queue : List Name) :
    List Name → Option (HashMap Name ℕ × List Name)
  | [] => some (indegree, queue)
  | dependent :: dependents =>
      match indegree.lookup dependent with
      -- the `expect` on the entry, and the subtraction from zero
      | none | some 0 => none
      | some (d + 1) =>
          release (indegree.insert dependent d)
            (if (indegree.insert dependent d).lookup dependent = some 0 then queue ++ [dependent]
              else queue) dependents

/-- The loop `while let Some(next) = queue.shift()`. -/
def drain (edges : HashMap Name (List Name)) :
    ℕ → HashMap Name ℕ → List Name → List Name → Option (HashMap Name ℕ × List Name)
  | _, indegree, [], order => some (indegree, order)
  -- out of rounds
  | 0, _, _ :: _, _ => none
  | rounds + 1, indegree, next :: queue, order =>
      (release indegree queue ((edges.lookup next).getD [])).bind fun r =>
        drain edges rounds r.1 r.2 (order ++ [next])

def planTopological (iter : Iteration Name) (nodes : List (PlannerNode Name)) :
    Option (Except (CapabilityPlannerError Name) (PlannerPlan Name)) :=
  match buildGraph nodes with
  | .error e => some (.error e)
  | .ok g =>
      (drain g.edges nodes.length g.indegree (iter.keysWhere (· == 0) g.indegree) []).map fun r =>
        if r.2.length ≠ nodes.length then
          .error (.cycleDetected (iter.keysWhere (0 < ·) r.1))
        else .ok ⟨r.2⟩

/-! ## What a plan is -/

/-- `dependent` requires the capability that `provider`, another node, provides. -/
def Depends (nodes : List (PlannerNode Name)) (provider dependent : Name) : Prop :=
  ∃ a ∈ nodes, ∃ b ∈ nodes, a.id = provider ∧ b.id = dependent ∧ provider ≠ dependent ∧
    a.provides ∈ b.requires

/-- The nodes can be planned. -/
structure Plannable (nodes : List (PlannerNode Name)) : Prop where
  ids : (nodes.map (·.id)).Nodup
  provides : (nodes.map (·.provides)).Nodup
  provided : ∀ node ∈ nodes, ∀ cap ∈ node.requires, ∃ provider ∈ nodes, provider.provides = cap
  acyclic : ∀ id, ¬ Relation.TransGen (Depends nodes) id id

end IdEffect.Capability
