import IdEffect.Capability.GraphBuild

set_option autoImplicit false

/-! # Layers: `Env::scoped`

`scoped` builds providers on a clone of an environment. The providers are planned as if there were
no environment: what they require must be among what they provide, even if the parent has it. Where
the plan is found the child has all that the parent has (`scoped_layers_iff`). -/

namespace IdEffect.Capability

open CapabilityGraph

variable {Key : Type} [DecidableEq Key] {Val : Key → Type}

/-- `Env::scoped`. An environment is passed by its value, so that the parent stays what it is. -/
def Env.scoped (iter : Iteration String) (debug : CapabilityId Key → String) (parent : Env Val)
    (providers : List (Provider Val)) : Option (Building Val) :=
  buildFrom iter debug providers parent

namespace CapabilityGraph

variable {iter : Iteration String} {debug : CapabilityId Key → String} {parent : Env Val}
  {nodes : List (Provider Val)}

/-! ## When a graph can be planned -/

theorem checkProviderConflicts_of_nodup
    {providerByCap : HashMap (CapabilityId Key) (String × String)}
    (hnodup : (nodes.map (·.spec.provides)).Nodup)
    (hfresh : ∀ node ∈ nodes, providerByCap.lookup node.spec.provides = none) :
    checkProviderConflicts providerByCap nodes = .ok () := by
  induction nodes generalizing providerByCap with
  | nil => rfl
  | cons node nodes ih =>
      rw [List.map_cons, List.nodup_cons] at hnodup
      rw [List.forall_mem_cons] at hfresh
      rw [checkProviderConflicts, hfresh.1]
      refine ih hnodup.2 fun n hn => ?_
      rw [HashMap.lookup_insert, if_neg, hfresh.2 n hn]
      intro heq
      exact hnodup.1 (heq ▸ List.mem_map_of_mem hn)

/-- A plan is found if the two checks are passed and the names can be planned. -/
theorem plan_ok_iff : (∃ order, plan iter debug nodes = some (.ok order)) ↔
    (nodes.map (·.spec.provides)).Nodup ∧ Plannable (plannerNodes debug nodes) := by
  constructor
  · rintro ⟨order, hplan⟩
    rw [plan] at hplan
    split at hplan
    · cases hplan
    · next hcheck =>
        refine ⟨(checkProviderConflicts_ok hcheck).1, ?_⟩
        rcases planTopological_cases iter (plannerNodes debug nodes) with
          ⟨_, -, hplannable, -⟩ | ⟨e, herr, -⟩
        · exact hplannable
        · rw [herr] at hplan
          cases hplan
  · rintro ⟨hcaps, hplannable⟩
    rcases plan_cases iter debug nodes with ⟨order, hplan, -⟩ | ⟨e, hplan⟩
    · exact ⟨order, hplan⟩
    · exfalso
      rw [plan, checkProviderConflicts_of_nodup hcaps fun node _ => AList.lookup_empty _] at hplan
      rcases planTopological_cases iter (plannerNodes debug nodes) with
        ⟨found, hfound, -⟩ | ⟨e', -, hnot, -⟩
      · rw [hfound] at hplan
        obtain ⟨order, -, heq⟩ := Option.map_eq_some_iff.1 hplan
        cases heq
      · exact hnot hplannable

/-- No two providers share an id, a capability or the name of one, and none waits for itself. -/
structure Coherent (debug : CapabilityId Key → String) (nodes : List (Provider Val)) : Prop where
  ids : (nodes.map (·.spec.providerId)).Nodup
  caps : (nodes.map (·.spec.provides)).Nodup
  names : ((plannerNodes debug nodes).map (·.provides)).Nodup
  acyclic : ∀ id, ¬ Relation.TransGen (Depends (plannerNodes debug nodes)) id id

/-- Whatever a provider requires is provided in the list, or is optional, or is printed like the
    name of something in the list. -/
def Closed (debug : CapabilityId Key → String) (nodes : List (Provider Val)) : Prop :=
  ∀ node ∈ nodes, ∀ cap ∈ node.spec.requires, cap ∈ nodes.map (·.spec.provides) ∨
    cap ∈ node.spec.optionalRequires ∨
    ∃ other ∈ nodes, plannerCapKey other.spec.provides other.spec.capName =
      plannerCapKey cap (debug cap)

theorem requiredName_of_not_provided {cap : CapabilityId Key}
    (hcap : cap ∉ nodes.map (·.spec.provides)) :
    requiredName debug nodes cap = plannerCapKey cap (debug cap) := by
  rw [requiredName, capNameById, lookup_foldl_names hcap]
  rfl

/-- The planner finds a provider for every name exactly if the list is closed. -/
theorem provided_iff_closed (hcaps : (nodes.map (·.spec.provides)).Nodup) :
    (∀ node ∈ plannerNodes debug nodes, ∀ name ∈ node.requires,
      ∃ provider ∈ plannerNodes debug nodes, provider.provides = name) ↔ Closed debug nodes := by
  have hname (cap : CapabilityId Key) (hcap : cap ∈ nodes.map (·.spec.provides)) :
      ∃ other ∈ nodes, plannerCapKey other.spec.provides other.spec.capName =
        requiredName debug nodes cap := by
    obtain ⟨other, hother, rfl⟩ := List.mem_map.1 hcap
    exact ⟨other, hother, (requiredName_provides debug hcaps hother).symm⟩
  unfold plannerNodes plannerNode
  simp only [List.forall_mem_map]
  simp only [List.mem_map, exists_exists_and_eq_and]
  constructor
  · intro h node hnode cap hreq
    by_cases hcap : cap ∈ nodes.map (·.spec.provides)
    · exact .inl hcap
    · by_cases hopt : cap ∈ node.spec.optionalRequires
      · exact .inr (.inl hopt)
      · have hfound := h node hnode cap (List.mem_filter.2 ⟨hreq, by simp [hopt]⟩)
        rw [requiredName_of_not_provided hcap] at hfound
        exact .inr (.inr hfound)
  · intro h node hnode cap hmem
    obtain ⟨hreq, hcounts⟩ := List.mem_filter.1 hmem
    by_cases hcap : cap ∈ nodes.map (·.spec.provides)
    · exact hname cap hcap
    · rw [requiredName_of_not_provided hcap]
      rcases h node hnode cap hreq with hlisted | hopt | hprinted
      · exact absurd hlisted hcap
      · simp [hcap, hopt] at hcounts
      · exact hprinted

theorem plannable_iff_closed (h : Coherent debug nodes) :
    Plannable (plannerNodes debug nodes) ↔ Closed debug nodes := by
  rw [← provided_iff_closed h.caps]
  constructor
  · exact Plannable.provided
  · intro hprovided
    exact ⟨by rw [plannerNodes_ids]; exact h.ids, h.names, hprovided, h.acyclic⟩

/-! ## What a build on top of an environment keeps -/

section loop

variable {order : List ℕ} {env env' : Env Val} {b : Building Val}

/-- A cell that no provider writes is left alone. -/
theorem buildLoop_lookup (h : buildLoop order env nodes = some b) (hok : b.result = .ok env')
    {key : Key} (hkey : key ∉ nodes.map (·.spec.key)) : env'.lookup key = env.lookup key := by
  induction order generalizing env nodes b with
  | nil =>
      cases h
      cases hok
      rfl
  | cons idx order ih =>
      obtain ⟨node, hnode, ⟨e, -, rfl⟩ | ⟨value, shared, b', -, hb', rfl⟩⟩ := buildLoop_cons h
      · cases hok
      · have hne : key ≠ node.spec.key := by
          rintro rfl
          exact hkey (List.mem_map_of_mem (List.mem_of_getElem? hnode))
        have hspecs := map_spec_set hnode (some value) shared
        have hkeys : (nodes.set idx ⟨node.spec, some value, shared⟩).map (·.spec.key) =
            nodes.map (·.spec.key) := by
          have hmap := congrArg (List.map ProviderSpec.key) hspecs
          simpa only [List.map_map, Function.comp_def] using hmap
        rw [ih hb' hok (hkeys ▸ hkey), AList.lookup_insert_ne hne]

end loop

/-! ## Layers -/

theorem coherent_singleton (debug : CapabilityId Key → String) (node : Provider Val) :
    Coherent debug [node] where
  ids := by simp
  caps := by simp
  names := by simp [plannerNodes]
  acyclic := by
    intro id hcycle
    obtain ⟨v, -, a, ha, b, hb, rfl, rfl, hne, -⟩ := Relation.TransGen.tail'_iff.1 hcycle
    rw [plannerNodes, List.map_singleton, List.mem_singleton] at ha hb
    rw [ha, hb] at hne
    exact hne rfl

/-- No build fails, in whatever order the dependencies allow. -/
def BuildsSucceed (parent : Env Val) (nodes : List (Provider Val)) : Prop :=
  ∀ order, order.Perm (List.range nodes.length) → DependenciesFirst nodes order →
    ∃ b env, buildLoop order parent nodes = some b ∧ b.result = .ok env

/-- `node` can be built wherever it finds the parent and the other providers of what it requires. -/
def BuildsOn (parent : Env Val) (nodes : List (Provider Val)) (idx : ℕ) (node : Provider Val) :
    Prop :=
  ∀ deps : Env Val, (∀ key ∈ parent, key ∈ deps) →
    (∀ j q, nodes[j]? = some q → j ≠ idx → q.spec.provides ∈ node.spec.requires →
      q.spec.key ∈ deps) →
    ∃ out, node.buildNode idx deps = .ok out

/-- The loop comes through if what is left of it is still to be built and what came before is
    there. -/
theorem buildLoop_ok_of_buildsOn
    (hnode : ∀ idx node, nodes[idx]? = some node → BuildsOn parent nodes idx node)
    {before order : List ℕ} {env : Env Val} {current : List (Provider Val)}
    (hcurrent : ∀ idx ∈ order, current[idx]? = nodes[idx]?)
    (hlt : ∀ idx ∈ order, idx < nodes.length) (hnodup : order.Nodup)
    (hfirst : DependenciesFirst nodes (before ++ order)) (hparent : ∀ key ∈ parent, key ∈ env)
    (hbefore : ∀ j ∈ before, ∀ q, nodes[j]? = some q → q.spec.key ∈ env) :
    ∃ b env', buildLoop order env current = some b ∧ b.result = .ok env' := by
  induction order generalizing before env current with
  | nil => exact ⟨_, env, rfl, rfl⟩
  | cons idx order ih =>
      rw [List.forall_mem_cons] at hcurrent hlt
      rw [List.nodup_cons] at hnodup
      have hget := List.getElem?_eq_getElem hlt.1
      obtain ⟨⟨env₁, node₁⟩, hbuild⟩ := hnode idx _ hget env hparent fun j q hq hne hreq =>
        hbefore j (hfirst before idx order rfl j _ q hget hq hne hreq) q hq
      obtain ⟨value, shared, rfl, rfl⟩ := Provider.buildNode_ok hbuild
      have hrest : ∃ b env', buildLoop order (env.insert nodes[idx].spec.key ⟨idx, value⟩)
          (current.set idx ⟨nodes[idx].spec, some value, shared⟩) = some b ∧
            b.result = .ok env' := by
        apply @ih (before ++ [idx])
        · intro j hj
          have hne : idx ≠ j := fun heq => hnodup.1 (heq ▸ hj)
          rw [List.getElem?_set_ne hne, hcurrent.2 j hj]
        · exact hlt.2
        · exact hnodup.2
        · rw [List.append_assoc]
          exact hfirst
        · intro key hkey
          exact (AList.mem_insert _).2 (.inr (hparent key hkey))
        · intro j hj q hq
          rcases List.mem_append.1 hj with hj | hj
          · exact (AList.mem_insert _).2 (.inr (hbefore j hj q hq))
          · rw [List.mem_singleton.1 hj, hget] at hq
            cases hq
            exact (AList.mem_insert _).2 (.inl rfl)
      obtain ⟨b, env', hloop, hok⟩ := hrest
      refine ⟨{ b with built := (idx, env) :: b.built }, env', ?_, hok⟩
      rw [buildLoop, hcurrent.1, hget]
      simp only [hbuild, hloop, Option.map_some]

theorem buildsSucceed_of_buildsOn
    (hnode : ∀ idx node, nodes[idx]? = some node → BuildsOn parent nodes idx node) :
    BuildsSucceed parent nodes := by
  intro order hperm hfirst
  have hstart : DependenciesFirst nodes ([] ++ order) := hfirst
  refine buildLoop_ok_of_buildsOn hnode (fun _ _ => rfl) ?_ (hperm.nodup_iff.2 List.nodup_range)
    hstart (fun _ hkey => hkey) (by simp)
  intro idx hidx
  exact List.mem_range.1 (hperm.mem_iff.1 hidx)

/-- The build succeeds, and the child has what the parent has, except where the list provides
    something else. -/
def Layers (parent : Env Val) (nodes : List (Provider Val)) (out : Option (Building Val)) : Prop :=
  ∃ b env, out = some b ∧ b.result = .ok env ∧ (∀ key ∈ parent, key ∈ env) ∧
    ∀ key, key ∉ nodes.map (·.spec.key) → env.lookup key = parent.lookup key

/-- **Scoped environments.** Providers that can be built are layered on the parent exactly if the
    list is closed, whatever the parent has. -/
theorem scoped_layers_iff (iter : Iteration String) (debug : CapabilityId Key → String)
    (parent : Env Val) (nodes : List (Provider Val)) (hlist : Coherent debug nodes)
    (hbuilds : BuildsSucceed parent nodes) :
    Layers parent nodes (parent.scoped iter debug nodes) ↔ Closed debug nodes := by
  rw [← plannable_iff_closed hlist]
  unfold Env.scoped buildFrom
  constructor
  · rintro ⟨b, env, hrun, hok, -, -⟩
    cases hplan : plan iter debug nodes with
    | none =>
        rw [hplan] at hrun
        cases hrun
    | some out =>
        cases out with
        | error e =>
            rw [hplan] at hrun
            cases hrun
            cases hok
        | ok order => exact (plan_ok_iff.1 ⟨order, hplan⟩).2
  · intro hplannable
    obtain ⟨order, hplan⟩ : ∃ order, plan iter debug nodes = some (.ok order) :=
      plan_ok_iff.2 ⟨hlist.caps, hplannable⟩
    rcases plan_cases iter debug nodes with ⟨order', hplan', hperm, hfirst⟩ | ⟨e, herr⟩
    · rw [hplan']
      obtain ⟨b, env, hloop, hok⟩ := hbuilds order' hperm hfirst
      refine ⟨b, env, hloop, hok, ?_, ?_⟩
      · intro key hkey
        exact (buildLoop_keys hloop rfl hok key).2 (.inl hkey)
      · intro key hkey
        exact buildLoop_lookup hloop hok hkey
    · rw [herr] at hplan
      cases hplan

/-- What the parent has is enough for whatever is required and not provided in the list. -/
def InListOrParent (parent : Env Val) (nodes : List (Provider Val)) : Prop :=
  ∀ node ∈ nodes, ∀ cap ∈ node.spec.requires, cap ∈ nodes.map (·.spec.provides) ∨
    cap.typeId ∈ parent

/-- An environment with the configuration. -/
def configured : Env fun _ : Bool => ℕ := (∅ : Env fun _ : Bool => ℕ).insert false ⟨0, 7⟩

theorem scoped_layers_config : Layers configured [⟨config, none, none⟩]
    (configured.scoped asStored (fun _ => "") [⟨config, none, none⟩]) := by
  refine (scoped_layers_iff asStored (fun _ => "") configured _ (coherent_singleton _ _) ?_).2 ?_
  · apply buildsSucceed_of_buildsOn
    intro idx node hnode deps _ _
    obtain rfl : node = ⟨config, none, none⟩ :=
      List.mem_singleton.1 (List.mem_of_getElem? hnode)
    exact ⟨_, rfl⟩
  · intro node hnode cap hcap
    rw [List.mem_singleton.1 hnode] at hcap
    cases hcap

theorem db_buildsOn (idx : ℕ) (nodes : List (Provider fun _ : Bool => ℕ)) :
    BuildsOn configured nodes idx ⟨db, none, none⟩ := by
  intro deps hparent _
  have hkey : false ∈ deps := hparent false (by decide)
  obtain ⟨cell, hcell⟩ := Option.isSome_iff_exists.1 (AList.lookup_isSome.2 hkey)
  have hlookup : deps.lookup false = some cell := hcell
  refine ⟨(deps.insert true ⟨idx, cell.value + 1⟩, ⟨db, some (cell.value + 1), none⟩), ?_⟩
  simp [Provider.buildNode, Provider.build, Provider.store, db, hlookup]

/-- The database needs the configuration, which only the parent has. -/
theorem scoped_not_layers :
    ¬ ∀ (parent : Env fun _ : Bool => ℕ) (nodes : List (Provider fun _ : Bool => ℕ)),
      Coherent (fun _ => "") nodes → InListOrParent parent nodes → BuildsSucceed parent nodes →
        Layers parent nodes (parent.scoped asStored (fun _ => "") nodes) := by
  intro h
  have hrequires : InListOrParent configured [⟨db, none, none⟩] := by
    intro node hnode cap hcap
    rw [List.mem_singleton.1 hnode] at hcap
    rw [List.mem_singleton.1 hcap]
    exact .inr (by decide)
  have hbuilds : BuildsSucceed configured [⟨db, none, none⟩] := by
    apply buildsSucceed_of_buildsOn
    intro idx node hnode
    obtain rfl : node = ⟨db, none, none⟩ := List.mem_singleton.1 (List.mem_of_getElem? hnode)
    exact db_buildsOn idx _
  obtain ⟨b, env, hrun, hok, -⟩ := h _ _ (coherent_singleton _ _) hrequires hbuilds
  cases hrun
  cases hok

end CapabilityGraph

end IdEffect.Capability
