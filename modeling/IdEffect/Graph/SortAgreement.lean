import IdEffect.Capability.PlannerCorrect
import IdEffect.Graph.SortExplicit

set_option autoImplicit false

/-! # The two sorters agree

`topological_sort` of the graph crate and `plan_topological` go through the same nodes in the same
order when they check them, so they fail alike (`resolve_same`). Once both have the edges they drain
the same graph, from queues in different orders, and what can be drained does not depend on that
order (`Kahn.Inv.mem_order_iff`). A `Dag` with an edge for each requirement that is provided has
these nodes and these edges. -/

namespace IdEffect.DependencyGraph

open Assoc (Map)
open Capability (PlannerNode CapabilityPlannerError PlannerPlan Iteration Depends Checked
  ProvidersFirst planTopological buildGraph)

variable {Name : Type} [LinearOrder Name]

/-- The same node for the planner. -/
def DependencyNode.planner (node : DependencyNode Name) : PlannerNode Name :=
  ⟨node.id, node.requires, node.provides⟩

/-- The same error of the graph crate, but for the order in which the nodes of a cycle come. -/
inductive SameError : CapabilityPlannerError Name → GraphError Name → Prop
  | duplicate (id : Name) : SameError (.duplicateProviderId id) (.duplicateNode id)
  | conflicting (cap first second : Name) :
      SameError (.conflictingProvider cap first second) (.conflictingProvider cap first second)
  | missing (node cap : Name) : SameError (.missingProvider node cap) (.missingDependency node cap)
  | cycle {nodes nodes' : List Name} (h : nodes.Perm nodes') :
      SameError (.cycleDetected nodes) (.cycleDetected nodes')

/-- Both succeed, with results that are related, or both fail alike. -/
inductive Same {α β : Type} (R : α → β → Prop) :
    Except (CapabilityPlannerError Name) α → Except (GraphError Name) β → Prop
  | ok {a : α} {b : β} (h : R a b) : Same R (.ok a) (.ok b)
  | error {e : CapabilityPlannerError Name} {e' : GraphError Name} (h : SameError e e') :
      Same R (.error e) (.error e')

/-! ## The checks -/

theorem checkIds_same (nodes : List (DependencyNode Name)) {ids : List Name} {ids' : BTreeSet Name}
    (h : ∀ id, id ∈ ids ↔ ids'.contains id = true) :
    Same (fun _ _ => True) (Capability.checkIds ids (nodes.map (·.planner)))
      (checkIds ids' nodes) := by
  induction nodes generalizing ids ids' with
  | nil => exact .ok trivial
  | cons node nodes ih =>
      rw [List.map_cons, Capability.checkIds, checkIds]
      by_cases hmem : node.id ∈ ids
      · rw [if_pos ((h node.id).mp hmem), if_pos (show node.planner.id ∈ ids from hmem)]
        exact .error (.duplicate node.id)
      · rw [if_neg (mt (h node.id).mpr hmem), if_neg (show node.planner.id ∉ ids from hmem)]
        refine ih fun id => ?_
        rw [List.mem_cons, h id, BTreeSet.contains, BTreeSet.contains, get_insert]
        by_cases hid : id = node.id
        · simp [hid, DependencyNode.planner]
        · simp [hid, DependencyNode.planner]

/-- The two maps of providers. -/
def SameLookups (m : Capability.HashMap Name Name) (m' : Map Name Name) : Prop :=
  ∀ key, m.lookup key = m'.get key

theorem collectProviders_same (nodes : List (DependencyNode Name))
    {m : Capability.HashMap Name Name} {m' : Map Name Name} (h : SameLookups m m') :
    Same SameLookups (Capability.collectProviders m (nodes.map (·.planner)))
      (collectProviders m' nodes) := by
  induction nodes generalizing m m' with
  | nil => exact .ok h
  | cons node nodes ih =>
      have hlookup : m.lookup node.planner.provides = m'.get node.provides := h node.provides
      rw [List.map_cons, Capability.collectProviders, collectProviders, hlookup]
      cases m'.get node.provides with
      | some existing => exact .error (.conflicting node.provides existing node.id)
      | none =>
          refine ih fun key => ?_
          rw [Capability.HashMap.lookup_insert, get_insert, h key]
          rfl

/-- The graph of the planner has the edges that are in the list. -/
def SameEdges (g : Capability.Graph Name) (edges : List (Name × Name)) : Prop :=
  g.succ = succOf edges

theorem SameEdges.addEdge {g : Capability.Graph Name} {edges : List (Name × Name)}
    (h : SameEdges g edges) (provider dependent : Name) :
    SameEdges (g.addEdge provider dependent) (edges ++ [(provider, dependent)]) := by
  rw [SameEdges, Capability.Graph.succ_addEdge, succOf_append, h]

theorem requirements_same {m : Capability.HashMap Name Name} {m' : Map Name Name}
    (hm : SameLookups m m') (id : Name) (requires : List Name) {g : Capability.Graph Name}
    {edges : List (Name × Name)} (h : SameEdges g edges) :
    Same SameEdges (Capability.Graph.addRequirements m id requires g)
      (collectRequirements m' id requires edges) := by
  induction requires generalizing g edges with
  | nil => exact .ok h
  | cons required rest ih =>
      rw [Capability.Graph.addRequirements, collectRequirements, hm required]
      cases m'.get required with
      | none => exact .error (.missing id required)
      | some provider =>
          dsimp only
          by_cases hself : provider = id
          · rw [if_pos hself, if_neg (not_not.mpr hself)]
            exact ih h
          · rw [if_neg hself, if_pos hself]
            exact ih (h.addEdge provider id)

theorem nodes_same {m : Capability.HashMap Name Name} {m' : Map Name Name} (hm : SameLookups m m')
    (nodes : List (DependencyNode Name)) {g : Capability.Graph Name} {edges : List (Name × Name)}
    (h : SameEdges g edges) :
    Same SameEdges (Capability.Graph.addNodes m (nodes.map (·.planner)) g)
      (collectEdges m' nodes edges) := by
  induction nodes generalizing g edges with
  | nil => exact .ok h
  | cons node nodes ih =>
      have hnode := requirements_same hm node.id node.requires h
      rw [List.map_cons, Capability.Graph.addNodes, collectEdges]
      have hplanner : Capability.Graph.addRequirements m node.planner.id node.planner.requires g
          = Capability.Graph.addRequirements m node.id node.requires g := rfl
      rw [hplanner]
      generalize Capability.Graph.addRequirements m node.id node.requires g = planned at hnode ⊢
      generalize collectRequirements m' node.id node.requires edges = collected at hnode ⊢
      cases hnode with
      | ok h => exact ih h
      | error e => exact .error e

theorem resolve_same (nodes : List (DependencyNode Name)) :
    Same SameEdges (buildGraph (nodes.map (·.planner))) (resolve nodes) := by
  have hids : ∀ id : Name, id ∈ ([] : List Name) ↔ BTreeSet.contains .empty id = true :=
    fun id => by simp [BTreeSet.contains, Map.get, Map.empty]
  have hlookups : SameLookups (∅ : Capability.HashMap Name Name) .empty := fun key => by
    simp [Map.get, Map.empty]
  have hedges : SameEdges (Capability.Graph.initial (nodes.map (·.planner)) ⟨∅, ∅⟩) [] :=
    funext fun v => Capability.Graph.succ_initial _ v
  have hchecked := checkIds_same nodes hids
  have hproviders := collectProviders_same nodes hlookups
  rw [buildGraph, resolve]
  generalize Capability.checkIds [] (nodes.map (·.planner)) = checked at hchecked ⊢
  generalize checkIds .empty nodes = checked' at hchecked ⊢
  cases hchecked with
  | error e => exact .error e
  | ok _ =>
      dsimp only
      generalize Capability.collectProviders ∅ (nodes.map (·.planner)) = providers at hproviders ⊢
      generalize collectProviders .empty nodes = providers' at hproviders ⊢
      cases hproviders with
      | error e => exact .error e
      | ok hm => exact nodes_same hm nodes hedges

/-! ## Both orders -/

theorem mem_keys_insert (w key : Name) (entries : List (Name × Unit)) :
    w ∈ (Assoc.insert key () entries).map Prod.fst ↔ w = key ∨ w ∈ entries.map Prod.fst := by
  rw [← Assoc.isSome_get, Assoc.get_insert, ← Assoc.isSome_get]
  by_cases hw : w = key
  · simp [hw]
  · simp [hw]

theorem mem_keys_foldl (w : Name) (ids : List Name) (entries : List (Name × Unit)) :
    w ∈ (ids.foldl (fun m id => Assoc.insert id () m) entries).map Prod.fst
      ↔ w ∈ entries.map Prod.fst ∨ w ∈ ids := by
  induction ids generalizing entries with
  | nil => simp
  | cons id ids ih =>
      rw [List.foldl_cons, ih, mem_keys_insert, List.mem_cons, or_comm (a := w = id), or_assoc]

theorem entries_nodeIds (nodes : List (DependencyNode Name)) : (nodeIds nodes).entries
    = (nodes.map (·.id)).foldl (fun m id => Assoc.insert id () m) [] := by
  simp [nodeIds, Map.ofList, Assoc.ofList, List.foldl_map]

theorem toList_nodeIds (nodes : List (DependencyNode Name)) (w : Name) :
    w ∈ (nodeIds nodes).toList ↔ w ∈ nodes.map (·.id) := by
  rw [BTreeSet.toList, entries_nodeIds, mem_keys_foldl]
  simp

/-- What is drained from the graph of the dependencies. -/
def Drained (nodes : List (DependencyNode Name)) (order : List Name) : Prop :=
  order.Nodup ∧ ∀ w, w ∈ order ↔ w ∈ nodes.map (·.id)
    ∧ Acc (Depends (nodes.map (·.planner))) w

omit [LinearOrder Name] in
theorem Drained.perm {nodes : List (DependencyNode Name)} {order order' : List Name}
    (h : Drained nodes order) (h' : Drained nodes order') : order.Perm order' :=
  (List.perm_ext_iff_of_nodup h.1 h'.1).mpr fun w => (h.2 w).trans (h'.2 w).symm

theorem drained_of_inv {nodes : List (DependencyNode Name)} {vs order : List Name}
    {succ : Name → List Name} {deg : Name → ℕ} (h : Kahn.Inv vs succ deg [] order)
    (hvs : ∀ w, w ∈ vs ↔ w ∈ nodes.map (·.id))
    (hedge : Kahn.Edge vs succ = Depends (nodes.map (·.planner))) : Drained nodes order := by
  refine ⟨h.order_nodup, fun w => ⟨fun hw => ?_, fun hw => ?_⟩⟩
  · have hmem := h.order_subset hw
    exact ⟨(hvs w).mp hmem, hedge ▸ (h.mem_order_iff hmem).mp hw⟩
  · exact (h.mem_order_iff ((hvs w).mpr hw.1)).mpr (hedge ▸ hw.2)

/-- The nodes that are reported: those that still wait for others. -/
theorem reported_of_inv {nodes : List (DependencyNode Name)} {vs order reported : List Name}
    {succ : Name → List Name} {deg : Name → ℕ} (h : Kahn.Inv vs succ deg [] order)
    (hvs : ∀ w, w ∈ vs ↔ w ∈ nodes.map (·.id))
    (hreported : ∀ w, w ∈ reported ↔ w ∈ vs ∧ decide (0 < deg w) = true) (w : Name) :
    w ∈ reported ↔ w ∈ nodes.map (·.id) ∧ w ∉ order := by
  rw [hreported, hvs, decide_eq_true_iff]
  refine and_congr_right fun hw => ?_
  rw [h.mem_order ((hvs w).mpr hw)]
  omega

/-- Both have every node once and the providers before their dependents. -/
def BothSorted (nodes : List (DependencyNode Name)) (plan : PlannerPlan Name)
    (order : List Name) : Prop :=
  plan.buildOrder.Perm (nodes.map (·.id)) ∧ order.Perm (nodes.map (·.id))
    ∧ ProvidersFirst (nodes.map (·.planner)) plan.buildOrder
    ∧ ProvidersFirst (nodes.map (·.planner)) order

omit [LinearOrder Name] in
theorem map_planner_id (nodes : List (DependencyNode Name)) :
    (nodes.map (·.planner)).map (·.id) = nodes.map (·.id) := by
  simp [DependencyNode.planner]

theorem providersFirst_of_inv {nodes : List (DependencyNode Name)} {vs order : List Name}
    {succ : Name → List Name} {deg : Name → ℕ} (h : Kahn.Inv vs succ deg [] order)
    (hedge : Kahn.Edge vs succ = Depends (nodes.map (·.planner)))
    (hall : ∀ w ∈ nodes.map (·.id), w ∈ order) :
    ProvidersFirst (nodes.map (·.planner)) order := by
  intro a ha b hb hreq hne
  have hb' : b.id ∈ order := by
    refine hall b.id ?_
    rw [← map_planner_id]
    exact List.mem_map_of_mem hb
  have hedge' : Kahn.Edge vs succ a.id b.id := by
    rw [hedge]
    exact ⟨a, ha, b, hb, rfl, rfl, hne, hreq⟩
  exact (h.idxOf_lt hb' hedge').2

section Built

variable {nodes : List (DependencyNode Name)} {g : Capability.Graph Name}
  {edges : List (Name × Name)}

/-- What the planner's graph is built of. -/
theorem built_of_buildGraph (hbuild : buildGraph (nodes.map (·.planner)) = .ok g) :
    Checked (nodes.map (·.planner)) ∧ g.Counted (nodes.map (·.id))
      ∧ Kahn.Edge (nodes.map (·.id)) g.succ = Depends (nodes.map (·.planner)) := by
  rcases Capability.buildGraph_cases (nodes.map (·.planner)) with
    ⟨g', hok, hchecked, hcounted, hedge⟩ | ⟨e, herr, -⟩
  · obtain rfl : g' = g := Except.ok.inj (hok.symm.trans hbuild)
    rw [map_planner_id] at hcounted hedge
    exact ⟨hchecked, hcounted, hedge⟩
  · cases herr.symm.trans hbuild

/-- The collected edges are those of the planner's graph. -/
theorem edge_succOf (hbuild : buildGraph (nodes.map (·.planner)) = .ok g)
    (hsame : SameEdges g edges) :
    Kahn.Edge (nodeIds nodes).toList (succOf edges) = Depends (nodes.map (·.planner)) := by
  obtain ⟨-, -, hedge⟩ := built_of_buildGraph hbuild
  rw [← hedge, ← hsame]
  funext v w
  rw [Kahn.Edge, Kahn.Edge, toList_nodeIds]

theorem ends_mem (hbuild : buildGraph (nodes.map (·.planner)) = .ok g)
    (hsame : SameEdges g edges) {e : Name × Name} (he : e ∈ edges) :
    e.1 ∈ (nodeIds nodes).toList ∧ e.2 ∈ (nodeIds nodes).toList := by
  obtain ⟨-, hcounted, hedge⟩ := built_of_buildGraph hbuild
  have hw : e.2 ∈ g.succ e.1 := by
    rw [hsame]
    exact mem_succOf.mpr he
  have hv : e.1 ∈ nodes.map (·.id) := by
    by_contra hnot
    have hnone := hcounted.edges e.1
    rw [if_neg hnot] at hnone
    rw [Capability.Graph.succ, hnone] at hw
    cases hw
  have hdep : Depends (nodes.map (·.planner)) e.1 e.2 := by
    rw [← hedge]
    exact ⟨hv, hw⟩
  have hmem := hdep.mem_ids
  rw [map_planner_id] at hmem
  exact ⟨(toList_nodeIds nodes _).mpr hv, (toList_nodeIds nodes _).mpr hmem⟩

theorem length_nodeIds (hids : (nodes.map (·.id)).Nodup) :
    (nodeIds nodes).toList.length = nodes.length := by
  have hperm : (nodeIds nodes).toList.Perm (nodes.map (·.id)) :=
    (List.perm_ext_iff_of_nodup (nodeIds nodes).nodup_toList hids).mpr (toList_nodeIds nodes)
  rw [hperm.length_eq, List.length_map]

end Built

theorem sortExplicit_same (iter : Iteration Name) {nodes : List (DependencyNode Name)}
    {g : Capability.Graph Name} {edges : List (Name × Name)}
    (hbuild : buildGraph (nodes.map (·.planner)) = .ok g) (hresolve : resolve nodes = .ok edges)
    (hsame : SameEdges g edges) :
    ∃ planned sorted, planTopological iter (nodes.map (·.planner)) = some planned
      ∧ topologicalSort nodes = some sorted ∧ Same (BothSorted nodes) planned sorted := by
  obtain ⟨hchecked, hcounted, hedge⟩ := built_of_buildGraph hbuild
  have hids : (nodes.map (·.id)).Nodup := by
    rw [← map_planner_id]
    exact hchecked.ids
  have hedge' := edge_succOf hbuild hsame
  obtain ⟨deg, order, indegree, hinv, htab, hplan⟩ :=
    Capability.planTopological_of_buildGraph iter hbuild
      (by rwa [map_planner_id]) (by rwa [map_planner_id]) (by rwa [map_planner_id])
  obtain ⟨deg', order', indegree', hinv', htab', hsort⟩ :=
    sortExplicit_spec (nodeIds nodes) fun e he => ends_mem hbuild hsame he
  rw [map_planner_id] at hinv htab
  have hperm : order.Perm order' := (drained_of_inv hinv (fun _ => Iff.rfl) hedge).perm
    (drained_of_inv hinv' (toList_nodeIds nodes) hedge')
  refine ⟨_, _, hplan, by rw [topologicalSort, hresolve]; exact hsort, ?_⟩
  rw [length_nodeIds hids, ← hperm.length_eq, List.length_map]
  by_cases hlen : order.length = nodes.length
  · rw [if_neg (not_not.mpr hlen), if_neg (not_not.mpr hlen)]
    have hsub : order.Subperm (nodes.map (·.id)) := hinv.order_nodup.subperm hinv.order_subset
    have hall : order.Perm (nodes.map (·.id)) :=
      hsub.perm_of_length_le (by rw [hlen, List.length_map])
    refine .ok ⟨hall, hperm.symm.trans hall, ?_, ?_⟩
    · exact providersFirst_of_inv hinv hedge fun w hw => hall.mem_iff.mpr hw
    · exact providersFirst_of_inv hinv' hedge' fun w hw =>
        (hperm.symm.trans hall).mem_iff.mpr hw
  · rw [if_pos hlen, if_pos hlen]
    refine .error (.cycle ((List.perm_ext_iff_of_nodup ?_ ?_).mpr fun w => ?_))
    · exact iter.keysWhere_nodup _ _
    · exact nodup_keysWhere _ _
    · have hleft := reported_of_inv hinv (fun _ => Iff.rfl)
        (fun w => iter.mem_keysWhere (0 < ·) htab) w
      have hright := reported_of_inv hinv' (toList_nodeIds nodes)
        (fun w => mem_keysWhere (0 < ·) htab') w
      rw [hleft, hright, hperm.mem_iff]

/-! ## The `Dag` of the nodes -/

theorem addNode_nodes (dag : Dag Name) (id : Name) :
    (dag.addNode id).toOption.getD dag = { dag with nodes := dag.nodes.insert id () } := by
  rw [Dag.addNode]
  split
  · next h =>
    -- an id that is there is inserted to no effect
    have hget : dag.nodes.get id = some () := Option.isSome_iff_exists.mp h |>.choose_spec
    have hself : dag.nodes.insert id () = dag.nodes :=
      Map.ext (dag.nodes.ascending.insert_self hget)
    simp [Except.toOption, hself]
  · rfl

theorem foldl_addNode (ids : List Name) (dag : Dag Name) :
    ids.foldl (fun dag id => (dag.addNode id).toOption.getD dag) dag
      = { dag with nodes := ids.foldl (fun m id => m.insert id ()) dag.nodes } := by
  induction ids generalizing dag with
  | nil => rfl
  | cons id ids ih => rw [List.foldl_cons, ih, addNode_nodes, List.foldl_cons]

theorem foldl_insert_entries (ids : List Name) (m : BTreeSet Name) :
    (ids.foldl (fun m id => m.insert id ()) m).entries
      = ids.foldl (fun m id => Assoc.insert id () m) m.entries := by
  induction ids generalizing m with
  | nil => rfl
  | cons id ids ih => rw [List.foldl_cons, ih, List.foldl_cons, Map.insert]

theorem foldl_addEdge (edges : List (Name × Name)) (dag : Dag Name)
    (h : ∀ e ∈ edges, dag.nodes.contains e.1 = true ∧ dag.nodes.contains e.2 = true) :
    edges.foldl (fun dag e => (dag.addEdge e.1 e.2).toOption.getD dag) dag
      = { dag with edges := dag.edges ++ edges.filter fun e => e.1 ≠ e.2 } := by
  induction edges generalizing dag with
  | nil => simp
  | cons e edges ih =>
      rw [List.forall_mem_cons] at h
      have hstep : (dag.addEdge e.1 e.2).toOption.getD dag
          = { dag with edges := dag.edges ++ [e].filter fun e => e.1 ≠ e.2 } := by
        rw [Dag.addEdge, h.1.1, h.1.2]
        by_cases hne : e.1 = e.2
        · simp [hne, Except.toOption]
        · simp [hne, Except.toOption]
      rw [List.foldl_cons, hstep,
        ih { dag with edges := dag.edges ++ [e].filter fun e => e.1 ≠ e.2 } h.2]
      simp only [List.append_assoc, ← List.filter_append, List.singleton_append]

theorem mem_resolvedEdges {nodes : List (DependencyNode Name)} {e : Name × Name}
    (h : e ∈ resolvedEdges nodes) : e.1 ∈ nodes.map (·.id) ∧ e.2 ∈ nodes.map (·.id) := by
  simp only [resolvedEdges, providerOf, List.mem_flatMap, List.mem_filterMap, Option.map_map,
    Option.map_eq_some_iff, Function.comp_apply] at h
  obtain ⟨node, hnode, cap, -, provider, hfind, rfl⟩ := h
  exact ⟨List.mem_map_of_mem (List.mem_of_find?_eq_some hfind), List.mem_map_of_mem hnode⟩

theorem dagOf_eq (nodes : List (DependencyNode Name)) :
    dagOf nodes = ⟨nodeIds nodes, (resolvedEdges nodes).filter fun e => e.1 ≠ e.2⟩ := by
  have hnodes : (nodes.map (·.id)).foldl (fun m id => m.insert id ()) .empty = nodeIds nodes := by
    apply Map.ext
    rw [foldl_insert_entries, entries_nodeIds]
    rfl
  rw [dagOf, Dag.addAll, foldl_addNode]
  dsimp only [Dag.new]
  rw [hnodes, foldl_addEdge]
  · rfl
  · intro e he
    obtain ⟨hsource, htarget⟩ := mem_resolvedEdges he
    rw [BTreeSet.contains_iff, BTreeSet.contains_iff, toList_nodeIds, toList_nodeIds]
    exact ⟨hsource, htarget⟩

theorem providerOf_snoc (seen : List (DependencyNode Name)) (node : DependencyNode Name)
    (cap : Name) : providerOf (seen ++ [node]) cap
      = (providerOf seen cap).or (if node.provides = cap then some node.id else none) := by
  rw [providerOf, List.find?_append, providerOf]
  cases seen.find? fun n => n.provides = cap with
  | some n => rfl
  | none =>
      by_cases hcap : node.provides = cap
      · simp [hcap]
      · simp [hcap]

/-- Without a conflict the map has the provider of every capability. -/
theorem collectProviders_eq {nodes seen : List (DependencyNode Name)} {m m' : Map Name Name}
    (h : collectProviders m nodes = .ok m') (hm : ∀ cap, m.get cap = providerOf seen cap)
    (cap : Name) : m'.get cap = providerOf (seen ++ nodes) cap := by
  induction nodes generalizing seen m with
  | nil =>
      cases h
      rw [hm, List.append_nil]
  | cons node nodes ih =>
      rw [collectProviders] at h
      split at h
      · cases h
      · next hnone =>
        have hsplit : seen ++ node :: nodes = (seen ++ [node]) ++ nodes := by simp
        rw [hsplit]
        refine ih h fun key => ?_
        rw [get_insert, providerOf_snoc, hm]
        by_cases hkey : key = node.provides
        · subst hkey
          rw [hm] at hnone
          simp [hnone]
        · simp [hkey, Ne.symm hkey]

theorem collectRequirements_eq {m : Map Name Name} {id : Name} {requires : List Name}
    {edges edges' : List (Name × Name)}
    (h : collectRequirements m id requires edges = .ok edges') :
    edges' = edges ++ (requires.filterMap fun cap =>
      (m.get cap).map fun provider => (provider, id)).filter fun e => e.1 ≠ e.2 := by
  induction requires generalizing edges with
  | nil =>
      cases h
      simp
  | cons required rest ih =>
      rw [collectRequirements] at h
      split at h
      · cases h
      · next provider hget =>
        rw [ih h]
        by_cases hne : provider = id
        · simp [hget, hne]
        · simp [hget, hne]

theorem collectEdges_eq {m : Map Name Name} {nodes : List (DependencyNode Name)}
    {edges edges' : List (Name × Name)} (h : collectEdges m nodes edges = .ok edges') :
    edges' = edges ++ (nodes.flatMap fun node => node.requires.filterMap fun cap =>
      (m.get cap).map fun provider => (provider, node.id)).filter fun e => e.1 ≠ e.2 := by
  induction nodes generalizing edges with
  | nil =>
      cases h
      simp
  | cons node nodes ih =>
      rw [collectEdges] at h
      split at h
      · cases h
      · next hnode => rw [ih h, collectRequirements_eq hnode, List.flatMap_cons, List.filter_append,
          List.append_assoc]

theorem resolve_eq {nodes : List (DependencyNode Name)} {edges : List (Name × Name)}
    (h : resolve nodes = .ok edges) :
    edges = (resolvedEdges nodes).filter fun e => e.1 ≠ e.2 := by
  rw [resolve] at h
  split at h
  · cases h
  · split at h
    · cases h
    · next hproviders =>
      have hget : ∀ cap, _ = providerOf ([] ++ nodes) cap :=
        collectProviders_eq hproviders fun cap => rfl
      rw [collectEdges_eq h, List.nil_append, resolvedEdges]
      simp only [hget, List.nil_append]

/-- If nothing but a cycle can be wrong, the two sorts are one. -/
theorem sort_dagOf {nodes : List (DependencyNode Name)} {edges : List (Name × Name)}
    (h : resolve nodes = .ok edges) : (dagOf nodes).sort = topologicalSort nodes := by
  rw [topologicalSort, h, dagOf_eq, Dag.sort, resolve_eq h]

theorem resolve_error_ne_cycle {nodes : List (DependencyNode Name)} {e : GraphError Name}
    (h : resolve nodes = .error e) (ids : List Name) : e ≠ .cycleDetected ids := by
  have hsame := resolve_same nodes
  rw [h] at hsame
  generalize hbuild : buildGraph (nodes.map (·.planner)) = built at hsame
  cases hsame with
  | error hsame =>
      rintro rfl
      cases hsame
      rcases Capability.buildGraph_cases (nodes.map (·.planner)) with
        ⟨g, hok, -⟩ | ⟨e', herr, -, hne⟩
      · cases hbuild.symm.trans hok
      · exact hne _ (Except.error.inj (herr.symm.trans hbuild))

/-- The planner and the sorter of the graph crate succeed on the same nodes, with orders that are
    right, and fail alike. Unless the sorter reports something other than a cycle, `Dag::sort` does
    the very same on the graph with an edge for each requirement that is provided. -/
theorem sorters_agree (iter : Iteration Name) (nodes : List (DependencyNode Name)) :
    ∃ planned sorted, planTopological iter (nodes.map (·.planner)) = some planned
      ∧ topologicalSort nodes = some sorted ∧ Same (BothSorted nodes) planned sorted
      ∧ ((∃ e, sorted = .error e ∧ ∀ ids, e ≠ .cycleDetected ids)
        ∨ (dagOf nodes).sort = some sorted) := by
  have hsame := resolve_same nodes
  generalize hbuild : buildGraph (nodes.map (·.planner)) = built at hsame
  generalize hresolve : resolve nodes = resolved at hsame
  cases hsame with
  | ok h =>
      obtain ⟨planned, sorted, hplan, hsort, hboth⟩ := sortExplicit_same iter hbuild hresolve h
      exact ⟨planned, sorted, hplan, hsort, hboth, .inr (by rw [sort_dagOf hresolve, hsort])⟩
  | @error e e' h =>
      refine ⟨.error e, .error e', ?_, ?_, .error h, .inl ⟨e', rfl, ?_⟩⟩
      · rw [planTopological, hbuild]
      · rw [topologicalSort, hresolve]
      · exact resolve_error_ne_cycle hresolve

/-- Where a requirement is not provided, no edge stands for it, and the `Dag` is sorted. -/
theorem missing_dependency_sorts :
    topologicalSort [DependencyNode.mk 1 [0] 2] = some (.error (.missingDependency 1 0))
      ∧ (dagOf [DependencyNode.mk 1 [0] 2]).edges = []
      ∧ (dagOf [DependencyNode.mk 1 [0] 2]).sort = some (.ok [1]) := by
  decide

end IdEffect.DependencyGraph
