import IdEffect.Lib.Assoc

set_option autoImplicit false

/-! # The graph crate: `dag.rs` and `topological_sort.rs`

`topological_sort` makes the checks of the capability planner, collects one edge for each
requirement that another node provides, and hands nodes and edges to `sort_explicit`, which also
sorts a `Dag`. The containers are ordered maps and sets, and a list of edges.

The loop runs with a bound on its rounds. `none` stands for running out of it and for the places
where the code would panic (`expect`, an underflow), none of which is reached. -/

namespace IdEffect.DependencyGraph

open Assoc (Map)

variable {Name V : Type} [LinearOrder Name]

structure DependencyNode (Name : Type) where
  id : Name
  requires : List Name
  provides : Name
deriving DecidableEq

inductive GraphError (Name : Type) where
  | duplicateNode (id : Name)
  | missingDependency (node dependency : Name)
  | conflictingProvider (capability first second : Name)
  | cycleDetected (nodes : List Name)
  | unknownNode (id : Name)
deriving DecidableEq

/-! ## Sets and maps -/

abbrev BTreeSet (Name : Type) [LinearOrder Name] : Type := Map Name Unit

namespace BTreeSet

def contains (nodes : BTreeSet Name) (id : Name) : Bool := (nodes.get id).isSome

def toList (nodes : BTreeSet Name) : List Name := nodes.entries.map Prod.fst

/-- A map with this value for every node. -/
def withValue (nodes : BTreeSet Name) (v : V) : Map Name V :=
  ⟨nodes.entries.map fun p => (p.1, v), nodes.ascending.map fun _ => v⟩

end BTreeSet

/-- The keys whose number meets a condition, in ascending order. -/
def keysWhere (p : ℕ → Bool) (m : Map Name ℕ) : List Name :=
  m.entries.filterMap fun e => if p e.2 then some e.1 else none

/-! ## `sort_explicit` -/

/-- The loop over the edges. Both endpoints are expected to be there. -/
def addEdges : List (Name × Name) → Map Name ℕ → Map Name (List Name) →
    Option (Map Name ℕ × Map Name (List Name))
  | [], indegree, adjacency => some (indegree, adjacency)
  | (source, target) :: edges, indegree, adjacency =>
      match adjacency.get source, indegree.get target with
      | some targets, some d =>
          addEdges edges (indegree.insert target (d + 1))
            (adjacency.insert source (targets ++ [target]))
      | _, _ => none

/-- The loop over the dependents of a drained node. -/
def release (indegree : Map Name ℕ) (queue : List Name) :
    List Name → Option (Map Name ℕ × List Name)
  | [] => some (indegree, queue)
  | dependent :: dependents =>
      match indegree.get dependent with
      -- the `expect` on the entry, and the subtraction from zero
      | none | some 0 => none
      | some (d + 1) =>
          release (indegree.insert dependent d) (if d = 0 then queue ++ [dependent] else queue)
            dependents

/-- The loop `while let Some(next) = queue.pop_front()`. -/
def drain (adjacency : Map Name (List Name)) :
    ℕ → Map Name ℕ → List Name → List Name → Option (Map Name ℕ × List Name)
  | _, indegree, [], order => some (indegree, order)
  -- out of rounds
  | 0, _, _ :: _, _ => none
  | rounds + 1, indegree, next :: queue, order =>
      (release indegree queue ((adjacency.get next).getD [])).bind fun r =>
        drain adjacency rounds r.1 r.2 (order ++ [next])

def sortExplicit (nodes : BTreeSet Name) (edges : List (Name × Name)) :
    Option (Except (GraphError Name) (List Name)) :=
  (addEdges edges (nodes.withValue 0) (nodes.withValue [])).bind fun g =>
    (drain g.2 nodes.toList.length g.1 (keysWhere (· == 0) g.1) []).map fun r =>
      if r.2.length ≠ nodes.toList.length then .error (.cycleDetected (keysWhere (0 < ·) r.1))
      else .ok r.2

/-! ## `Dag` -/

structure Dag (Name : Type) [LinearOrder Name] where
  nodes : BTreeSet Name
  edges : List (Name × Name)

namespace Dag

def new : Dag Name := ⟨.empty, []⟩

def addNode (dag : Dag Name) (id : Name) : Except (GraphError Name) (Dag Name) :=
  if dag.nodes.contains id then .error (.duplicateNode id)
  else .ok { dag with nodes := dag.nodes.insert id () }

def addEdge (dag : Dag Name) (dependency dependent : Name) :
    Except (GraphError Name) (Dag Name) :=
  if !dag.nodes.contains dependency then .error (.unknownNode dependency)
  else if !dag.nodes.contains dependent then .error (.unknownNode dependent)
  else if dependency ≠ dependent then
    .ok { dag with edges := dag.edges ++ [(dependency, dependent)] }
  else .ok dag

def sort (dag : Dag Name) : Option (Except (GraphError Name) (List Name)) :=
  sortExplicit dag.nodes dag.edges

end Dag

/-! ## `topological_sort` -/

/-- The loop over `ids`. -/
def checkIds (ids : BTreeSet Name) : List (DependencyNode Name) → Except (GraphError Name) Unit
  | [] => .ok ()
  | node :: nodes =>
      if ids.contains node.id then .error (.duplicateNode node.id)
      else checkIds (ids.insert node.id ()) nodes

/-- The loop that fills `provider_by_cap`. `insert` gives back the id that was there. -/
def collectProviders (providerByCap : Map Name Name) :
    List (DependencyNode Name) → Except (GraphError Name) (Map Name Name)
  | [] => .ok providerByCap
  | node :: nodes =>
      match providerByCap.get node.provides with
      | some existing => .error (.conflictingProvider node.provides existing node.id)
      | none => collectProviders (providerByCap.insert node.provides node.id) nodes

/-- The edges for the requirements of one node. -/
def collectRequirements (providerByCap : Map Name Name) (id : Name) :
    List Name → List (Name × Name) → Except (GraphError Name) (List (Name × Name))
  | [], edges => .ok edges
  | required :: rest, edges =>
      match providerByCap.get required with
      | none => .error (.missingDependency id required)
      | some provider =>
          collectRequirements providerByCap id rest
            (if provider ≠ id then edges ++ [(provider, id)] else edges)

def collectEdges (providerByCap : Map Name Name) :
    List (DependencyNode Name) → List (Name × Name) →
      Except (GraphError Name) (List (Name × Name))
  | [], edges => .ok edges
  | node :: nodes, edges =>
      match collectRequirements providerByCap node.id node.requires edges with
      | .error e => .error e
      | .ok edges => collectEdges providerByCap nodes edges

/-- `nodes.iter().map(|n| n.id.clone()).collect()` -/
def nodeIds (nodes : List (DependencyNode Name)) : BTreeSet Name :=
  .ofList (nodes.map fun n => (n.id, ()))

/-- What `topological_sort` does before it sorts. -/
def resolve (nodes : List (DependencyNode Name)) :
    Except (GraphError Name) (List (Name × Name)) :=
  match checkIds .empty nodes with
  | .error e => .error e
  | .ok () =>
      match collectProviders .empty nodes with
      | .error e => .error e
      | .ok providerByCap => collectEdges providerByCap nodes []

def topologicalSort (nodes : List (DependencyNode Name)) :
    Option (Except (GraphError Name) (List Name)) :=
  match resolve nodes with
  | .error e => some (.error e)
  | .ok edges => sortExplicit (nodeIds nodes) edges

/-! ## The graph of some nodes -/

/-- The node that provides a capability. -/
def providerOf (nodes : List (DependencyNode Name)) (cap : Name) : Option Name :=
  (nodes.find? fun n => n.provides = cap).map (·.id)

/-- Every requirement that is provided, with its provider. -/
def resolvedEdges (nodes : List (DependencyNode Name)) : List (Name × Name) :=
  nodes.flatMap fun node => node.requires.filterMap fun cap =>
    (providerOf nodes cap).map fun provider => (provider, node.id)

/-- Adds what can be added. -/
def Dag.addAll (dag : Dag Name) (ids : List Name) (edges : List (Name × Name)) : Dag Name :=
  let withNodes := ids.foldl (fun dag id => (dag.addNode id).toOption.getD dag) dag
  edges.foldl (fun dag e => (dag.addEdge e.1 e.2).toOption.getD dag) withNodes

/-- A `Dag` with these nodes, and one edge for each requirement that is provided. -/
def dagOf (nodes : List (DependencyNode Name)) : Dag Name :=
  Dag.new.addAll (nodes.map (·.id)) (resolvedEdges nodes)

end IdEffect.DependencyGraph
