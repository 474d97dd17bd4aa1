import IdEffect.Capability.PlannerCorrect

set_option autoImplicit false

/-! # Providers and their graph: `capability/{id,env,provider,graph}.rs`

A provider makes the value of a capability out of the environment of those made before it. The graph
plans the providers by the names of their capabilities and runs them in that order.

`Key` is the type of the key types and `Val k` the type of the values of a key `k`, so that an
environment, which is a map from the `TypeId` of keys, needs no downcast. A capability is named by
its key type and a variant; keys and providers are taken with the methods that derive their ids from
these (`CapabilityKey::id`, `ProviderSpec::provides`), which nothing overrides. How std prints a
`TypeId` is left open (`debug`), and so is the order in which the planner iterates its hash maps.
Refresh intervals, which are read and dropped, are left out. -/

namespace IdEffect.Capability

variable {Key : Type} [DecidableEq Key] {Val : Key → Type}

/-! ## Environments -/

structure CapabilityId (Key : Type) where
  typeId : Key
  variant : Option String
deriving DecidableEq

/-- A value put behind an `Arc` of its own; `node` is the position of the provider that did it. -/
structure Cell (V : Type) where
  node : ℕ
  value : V
deriving DecidableEq

/-- The cells of an `Env`, by the type of the key alone. -/
abbrev Env (Val : Key → Type) : Type := AList fun key => Cell (Val key)

structure ProviderError where
  provider : String
  message : String
deriving DecidableEq

/-! ## Providers -/

structure ProviderSpec (Val : Key → Type) where
  key : Key
  providerId : String
  variant : Option String := none
  requires : List (CapabilityId Key) := []
  capName : String
  provide : Env Val → Except ProviderError (Val key)
  /-- The effect, run in the environment it was made for. -/
  provideEffect : Env Val → Except ProviderError (Val key) := provide
  effectfulBuild : Bool := false
  optionalRequires : List (CapabilityId Key) := []
  shared : Bool := false

def ProviderSpec.provides (spec : ProviderSpec Val) : CapabilityId Key := ⟨spec.key, spec.variant⟩

/-- `Provider<P>` with its two cells. -/
structure Provider (Val : Key → Type) where
  spec : ProviderSpec Val
  output : Option (Val spec.key) := none
  shared : Option (Val spec.key) := none

namespace Provider

/-- The value is recorded and put into a clone of the environment. -/
def store (p : Provider Val) (idx : ℕ) (deps : Env Val) (value : Val p.spec.key) :
    Env Val × Provider Val :=
  (deps.insert p.spec.key ⟨idx, value⟩, { p with output := some value })

def build (p : Provider Val) (idx : ℕ) (deps : Env Val) :
    Except ProviderError (Env Val × Provider Val) :=
  if p.spec.shared then
    -- what a shared provider made once is used again
    match p.shared with
    | some value => .ok (p.store idx deps value)
    | none =>
        match p.spec.provide deps with
        | .error e => .error e
        | .ok built => .ok ({ p with shared := some built }.store idx deps built)
  else
    match p.spec.provide deps with
    | .error e => .error e
    | .ok value => .ok (p.store idx deps value)

def buildEffect (p : Provider Val) (idx : ℕ) (deps : Env Val) :
    Except ProviderError (Env Val × Provider Val) :=
  match p.spec.provideEffect deps with
  | .error e => .error e
  | .ok value => .ok (p.store idx deps value)

/-- The build of a node, as `build_from` chooses it. -/
def buildNode (p : Provider Val) (idx : ℕ) (deps : Env Val) :
    Except ProviderError (Env Val × Provider Val) :=
  if p.spec.effectfulBuild then p.buildEffect idx deps else p.build idx deps

end Provider

/-! ## Planning -/

def plannerCapKey (cap : CapabilityId Key) (name : String) : String :=
  match cap.variant with
  | some v => name ++ ":" ++ v
  | none => name

namespace CapabilityGraph

def checkProviderConflicts (providerByCap : HashMap (CapabilityId Key) (String × String)) :
    List (Provider Val) → Except (CapabilityPlannerError String) Unit
  | [] => .ok ()
  | node :: nodes =>
      match providerByCap.lookup node.spec.provides with
      | some (firstId, firstName) =>
          .error (.conflictingProvider firstName firstId node.spec.providerId)
      | none =>
          checkProviderConflicts
            (providerByCap.insert node.spec.provides (node.spec.providerId, node.spec.capName))
            nodes

/-- The loop that fills `cap_name_by_id`. -/
def capNameById (nodes : List (Provider Val)) : HashMap (CapabilityId Key) String :=
  nodes.foldl
    (fun names node =>
      names.insert node.spec.provides (plannerCapKey node.spec.provides node.spec.capName)) ∅

/-- The requirements that count: those that are provided, and those that are not optional. -/
def requirements (nodes : List (Provider Val)) (spec : ProviderSpec Val) :
    List (CapabilityId Key) :=
  spec.requires.filter fun cap =>
    decide (cap ∈ nodes.map (·.spec.provides)) || !decide (cap ∈ spec.optionalRequires)

/-- The name by which a required capability is looked for. -/
def requiredName (debug : CapabilityId Key → String) (nodes : List (Provider Val))
    (cap : CapabilityId Key) : String :=
  ((capNameById nodes).lookup cap).getD (plannerCapKey cap (debug cap))

def plannerNode (debug : CapabilityId Key → String) (nodes : List (Provider Val))
    (spec : ProviderSpec Val) : PlannerNode String where
  id := spec.providerId
  requires := (requirements nodes spec).map (requiredName debug nodes)
  provides := plannerCapKey spec.provides spec.capName

def plannerNodes (debug : CapabilityId Key → String) (nodes : List (Provider Val)) :
    List (PlannerNode String) :=
  nodes.map fun node => plannerNode debug nodes node.spec

/-- `none` where the code would panic. -/
def plan (iter : Iteration String) (debug : CapabilityId Key → String)
    (nodes : List (Provider Val)) : Option (Except (CapabilityPlannerError String) (List ℕ)) :=
  match checkProviderConflicts ∅ nodes with
  | .error e => some (.error e)
  | .ok () =>
      match planTopological iter (plannerNodes debug nodes) with
      | none => none
      | some (.error e) => some (.error e)
      | some (.ok plan) =>
          -- the position of the first node with that id, which is expected to be there
          (plan.buildOrder.mapM fun id => nodes.findIdx? fun n => n.spec.providerId == id).map .ok

/-! ## Building -/

/-- A build that has come to an end. The list `built` has the positions of the providers whose build
    succeeded, in that order and with the environment each was built against. -/
structure Building (Val : Key → Type) where
  result : Except (CapabilityPlannerError String) (Env Val)
  nodes : List (Provider Val)
  built : List (ℕ × Env Val)

def mapProviderErr (provider : String) (e : ProviderError) : CapabilityPlannerError String :=
  .missingProvider provider e.message

/-- The loop of `build_from`. -/
def buildLoop : List ℕ → Env Val → List (Provider Val) → Option (Building Val)
  | [], env, nodes => some ⟨.ok env, nodes, []⟩
  | idx :: order, env, nodes =>
      match nodes[idx]? with
      | none => none
      | some node =>
          match node.buildNode idx env with
          -- the nodes built so far keep their outputs
          | .error e => some ⟨.error (mapProviderErr node.spec.providerId e), nodes, []⟩
          | .ok (env', node') =>
              (buildLoop order env' (nodes.set idx node')).map fun b =>
                { b with built := (idx, env) :: b.built }

def buildFrom (iter : Iteration String) (debug : CapabilityId Key → String)
    (nodes : List (Provider Val)) (env : Env Val) : Option (Building Val) :=
  match plan iter debug nodes with
  | none => none
  | some (.error e) => some ⟨.error e, nodes, []⟩
  | some (.ok order) => buildLoop order env nodes

def build (iter : Iteration String) (debug : CapabilityId Key → String)
    (nodes : List (Provider Val)) : Option (Building Val) :=
  buildFrom iter debug nodes ∅

/-! ## What a plan of a graph is -/

section planning

variable {nodes : List (Provider Val)}

theorem checkProviderConflicts_ok
    {providerByCap : HashMap (CapabilityId Key) (String × String)}
    (h : checkProviderConflicts providerByCap nodes = .ok ()) :
    (nodes.map (·.spec.provides)).Nodup ∧
      ∀ node ∈ nodes, providerByCap.lookup node.spec.provides = none := by
  induction nodes generalizing providerByCap with
  | nil => exact ⟨List.nodup_nil, by simp⟩
  | cons node nodes ih =>
      rw [checkProviderConflicts] at h
      split at h
      · cases h
      · rename_i hnone
        obtain ⟨hnodup, hfresh⟩ := ih h
        have hne : ∀ n ∈ nodes, n.spec.provides ≠ node.spec.provides ∧
            providerByCap.lookup n.spec.provides = none := by
          intro n hn
          have hn := hfresh n hn
          rw [HashMap.lookup_insert] at hn
          split at hn
          · cases hn
          · exact ⟨‹_›, hn⟩
        constructor
        · rw [List.map_cons, List.nodup_cons, List.mem_map]
          exact ⟨fun ⟨n, hn, heq⟩ => (hne n hn).1 heq, hnodup⟩
        · exact List.forall_mem_cons.2 ⟨hnone, fun n hn => (hne n hn).2⟩

theorem lookup_foldl_names {names : HashMap (CapabilityId Key) String} {cap : CapabilityId Key}
    (hcap : cap ∉ nodes.map (·.spec.provides)) :
    (nodes.foldl (fun names node => names.insert node.spec.provides
      (plannerCapKey node.spec.provides node.spec.capName)) names).lookup cap =
        names.lookup cap := by
  induction nodes generalizing names with
  | nil => rfl
  | cons node nodes ih =>
      rw [List.map_cons, List.mem_cons, not_or] at hcap
      rw [List.foldl_cons, ih hcap.2, HashMap.lookup_insert, if_neg hcap.1]

theorem lookup_capNameById (hnodup : (nodes.map (·.spec.provides)).Nodup) {node : Provider Val}
    (hnode : node ∈ nodes) : (capNameById nodes).lookup node.spec.provides =
      some (plannerCapKey node.spec.provides node.spec.capName) := by
  rw [capNameById]
  generalize (∅ : HashMap (CapabilityId Key) String) = names
  induction nodes generalizing names with
  | nil => cases hnode
  | cons n nodes ih =>
      rw [List.map_cons, List.nodup_cons] at hnodup
      rw [List.foldl_cons]
      rcases List.mem_cons.1 hnode with rfl | hnode
      · rw [lookup_foldl_names hnodup.1, HashMap.lookup_insert, if_pos rfl]
      · exact ih hnodup.2 hnode _

/-- A requirement is looked for by the name under which it is provided. -/
theorem requiredName_provides (debug : CapabilityId Key → String)
    (hnodup : (nodes.map (·.spec.provides)).Nodup) {node : Provider Val} (hnode : node ∈ nodes) :
    requiredName debug nodes node.spec.provides = (plannerNode debug nodes node.spec).provides := by
  rw [requiredName, lookup_capNameById hnodup hnode, Option.getD_some, plannerNode]

/-- Before a provider is built come the other providers of what it requires. -/
def DependenciesFirst (nodes : List (Provider Val)) (order : List ℕ) : Prop :=
  ∀ before i after, order = before ++ i :: after → ∀ j p q, nodes[i]? = some p →
    nodes[j]? = some q → j ≠ i → q.spec.provides ∈ p.spec.requires → j ∈ before

omit [DecidableEq Key] in
/-- The position of each id of the plan. -/
theorem mapM_findIdx {ids : List String} (hids : ∀ id ∈ ids, id ∈ nodes.map (·.spec.providerId)) :
    (ids.mapM fun id => nodes.findIdx? fun n => n.spec.providerId == id) =
      some (ids.map fun id => (nodes.map (·.spec.providerId)).idxOf id) := by
  induction ids with
  | nil => rfl
  | cons id ids ih =>
      rw [List.forall_mem_cons] at hids
      have hfind : (nodes.findIdx? fun n => n.spec.providerId == id) =
          some ((nodes.map (·.spec.providerId)).idxOf id) := by
        have hmap := List.findIdx?_map (p := (· == id)) (f := fun n : Provider Val =>
          n.spec.providerId) (l := nodes)
        have hlt := List.idxOf_lt_length_of_mem hids.1
        rw [Function.comp_def] at hmap
        rw [← hmap]
        exact List.findIdx?_eq_some_iff_findIdx_eq.2 ⟨hlt, rfl⟩
      rw [List.mapM_cons, hfind, ih hids.2]
      rfl

theorem map_idxOf_self {ids : List String} (hids : ids.Nodup) :
    ids.map (fun id => ids.idxOf id) = List.range ids.length := by
  refine List.ext_getElem (by simp) fun i hi _ => ?_
  rw [List.length_map] at hi
  rw [List.getElem_map, List.getElem_range]
  exact List.get_idxOf hids ⟨i, hi⟩

theorem plannerNodes_ids (debug : CapabilityId Key → String) (nodes : List (Provider Val)) :
    (plannerNodes debug nodes).map (·.id) = nodes.map (·.spec.providerId) := by
  rw [plannerNodes, List.map_map]
  rfl

theorem plannerNode_requires (debug : CapabilityId Key → String)
    (hcaps : (nodes.map (·.spec.provides)).Nodup) {p q : Provider Val} (hq : q ∈ nodes)
    (hreq : q.spec.provides ∈ p.spec.requires) :
    (plannerNode debug nodes q.spec).provides ∈ (plannerNode debug nodes p.spec).requires := by
  have hprovided : q.spec.provides ∈ nodes.map (·.spec.provides) := List.mem_map.2 ⟨q, hq, rfl⟩
  rw [← requiredName_provides debug hcaps hq]
  refine List.mem_map_of_mem (List.mem_filter.2 ⟨hreq, ?_⟩)
  simp [hprovided]

theorem mem_of_idxOf_lt {before after : List String} {a b : String} (hb : b ∉ before)
    (hlt : (before ++ b :: after).idxOf a < (before ++ b :: after).idxOf b) : a ∈ before := by
  by_contra ha
  rw [List.idxOf_append_of_notMem ha, List.idxOf_append_of_notMem hb, List.idxOf_cons_self] at hlt
  omega

omit [DecidableEq Key] in
theorem idxOf_providerId (hids : (nodes.map (·.spec.providerId)).Nodup) {j : ℕ} {q : Provider Val}
    (hq : nodes[j]? = some q) : (nodes.map (·.spec.providerId)).idxOf q.spec.providerId = j := by
  obtain ⟨hj, rfl⟩ := List.getElem?_eq_some_iff.1 hq
  have hget := List.get_idxOf hids ⟨j, by simpa using hj⟩
  simpa using hget

/-- The plan for the names, as positions. -/
theorem dependenciesFirst_of_providersFirst (debug : CapabilityId Key → String)
    (hcaps : (nodes.map (·.spec.provides)).Nodup) (hids : (nodes.map (·.spec.providerId)).Nodup)
    {ids : List String} (hperm : ids.Perm (nodes.map (·.spec.providerId)))
    (hfirst : ProvidersFirst (plannerNodes debug nodes) ids) :
    DependenciesFirst nodes (ids.map fun id => (nodes.map (·.spec.providerId)).idxOf id) := by
  intro before i after horder j p q hp hq hne hreq
  obtain ⟨ids₁, ids₂, rfl, hbefore, hrest⟩ := List.map_eq_append_iff.1 horder
  obtain ⟨id, ids₃, rfl, hid, -⟩ := List.map_eq_cons_iff.1 hrest
  -- the id at this place is that of the node
  have hmem : id ∈ nodes.map (·.spec.providerId) := hperm.mem_iff.1 (by simp)
  have heq : id = p.spec.providerId := by
    refine (List.idxOf_inj hmem).1 ?_
    rw [hid, idxOf_providerId hids hp]
  subst heq
  have hnot : p.spec.providerId ∉ ids₁ := by
    have hnodup := hperm.nodup_iff.2 hids
    rw [List.nodup_append'] at hnodup
    exact fun hin => hnodup.2.2 hin List.mem_cons_self
  have hdiff : q.spec.providerId ≠ p.spec.providerId := by
    intro h
    exact hne (by rw [← idxOf_providerId hids hq, ← idxOf_providerId hids hp, h])
  have hlt := hfirst _ (List.mem_map.2 ⟨q, List.mem_of_getElem? hq, rfl⟩) _
    (List.mem_map.2 ⟨p, List.mem_of_getElem? hp, rfl⟩)
    (plannerNode_requires debug hcaps (List.mem_of_getElem? hq) hreq) hdiff
  rw [← hbefore, ← idxOf_providerId hids hq]
  exact List.mem_map.2 ⟨_, mem_of_idxOf_lt hnot hlt, rfl⟩

/-- A plan has every position once, and dependencies first. -/
theorem plan_cases (iter : Iteration String) (debug : CapabilityId Key → String)
    (nodes : List (Provider Val)) :
    (∃ order, plan iter debug nodes = some (.ok order) ∧
        order.Perm (List.range nodes.length) ∧ DependenciesFirst nodes order) ∨
      ∃ e, plan iter debug nodes = some (.error e) := by
  rw [plan]
  cases hcheck : checkProviderConflicts ∅ nodes with
  | error e => exact Or.inr ⟨e, rfl⟩
  | ok =>
      obtain ⟨hcaps, -⟩ := checkProviderConflicts_ok hcheck
      rcases planTopological_cases iter (plannerNodes debug nodes) with
        ⟨found, hplan, hplannable, hperm, hfirst⟩ | ⟨e, hplan, -⟩
      · have hids := hplannable.ids
        rw [plannerNodes_ids] at hperm hids
        have hmap := mapM_findIdx fun id hid => hperm.mem_iff.1 hid
        have hrange := hperm.map fun id => (nodes.map (·.spec.providerId)).idxOf id
        rw [map_idxOf_self hids, List.length_map] at hrange
        refine Or.inl ⟨_, ?_, hrange,
          dependenciesFirst_of_providersFirst debug hcaps hids hperm hfirst⟩
        rw [hplan]
        simp only [hmap, Option.map_some]
      · exact Or.inr ⟨e, by rw [hplan]⟩

end planning

end CapabilityGraph

end IdEffect.Capability
