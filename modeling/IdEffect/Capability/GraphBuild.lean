import IdEffect.Capability.Graph

set_option autoImplicit false

/-! # What a build leaves behind

Providers are planned by capability, that is by key type and variant, but an environment has one
cell for each key type. So the values of two variants of one key are put into the same cell, and the
provider built last is the one that is found (`variant_overwritten`). Apart from that a build does
what the plan is for: every provider finds what it requires, and its own value stays
(`retrievable_iff`). -/

namespace IdEffect.Capability

variable {Key : Type} [DecidableEq Key] {Val : Key → Type}

theorem Provider.buildNode_ok {p p' : Provider Val} {idx : ℕ} {deps env : Env Val}
    (h : p.buildNode idx deps = .ok (env, p')) :
    ∃ value shared, env = deps.insert p.spec.key ⟨idx, value⟩ ∧
      p' = ⟨p.spec, some value, shared⟩ := by
  rw [buildNode] at h
  split at h
  · rw [buildEffect] at h
    split at h
    · cases h
    · cases h
      exact ⟨_, _, rfl, rfl⟩
  · rw [build] at h
    split at h
    · split at h
      · cases h
        exact ⟨_, _, rfl, rfl⟩
      · split at h
        · cases h
        · cases h
          exact ⟨_, _, rfl, rfl⟩
    · split at h
      · cases h
      · cases h
        exact ⟨_, _, rfl, rfl⟩

namespace CapabilityGraph

section loop

variable {order : List ℕ} {idx : ℕ} {env env' : Env Val} {nodes : List (Provider Val)}
  {b : Building Val}

/-! ## One round of the loop -/

/-- The node is built and the loop goes on, or its build fails and the loop ends. -/
theorem buildLoop_cons (h : buildLoop (idx :: order) env nodes = some b) :
    ∃ node, nodes[idx]? = some node ∧
      ((∃ e, node.buildNode idx env = .error e ∧
          b = ⟨.error (mapProviderErr node.spec.providerId e), nodes, []⟩) ∨
        ∃ value shared b', node.buildNode idx env =
            .ok (env.insert node.spec.key ⟨idx, value⟩, ⟨node.spec, some value, shared⟩) ∧
          buildLoop order (env.insert node.spec.key ⟨idx, value⟩)
            (nodes.set idx ⟨node.spec, some value, shared⟩) = some b' ∧
          b = { b' with built := (idx, env) :: b'.built }) := by
  rw [buildLoop] at h
  split at h
  · cases h
  · rename_i node hnode
    refine ⟨node, hnode, ?_⟩
    split at h
    · rename_i e herr
      cases h
      exact Or.inl ⟨e, herr, rfl⟩
    · rename_i env₁ node₁ hok
      obtain ⟨value, shared, rfl, rfl⟩ := Provider.buildNode_ok hok
      obtain ⟨b', hb', rfl⟩ := Option.map_eq_some_iff.1 h
      exact Or.inr ⟨value, shared, b', hok, hb', rfl⟩

omit [DecidableEq Key] in
theorem map_spec_set {node : Provider Val} (hnode : nodes[idx]? = some node)
    (output shared : Option (Val node.spec.key)) :
    (nodes.set idx ⟨node.spec, output, shared⟩).map (·.spec) = nodes.map (·.spec) := by
  obtain ⟨hlt, heq⟩ := List.getElem?_eq_some_iff.1 hnode
  have hspec : node.spec = (nodes.map (·.spec)).get ⟨idx, by rwa [List.length_map]⟩ := by
    rw [List.get_eq_getElem, List.getElem_map, heq]
  rw [List.map_set, hspec, List.get_eq_getElem, List.set_getElem_self]

/-- A cell for the provider at position `j`. -/
def Held (specs : List (ProviderSpec Val)) (env : Env Val) (j : ℕ) : Prop :=
  ∃ spec, specs[j]? = some spec ∧ ∃ value, env.lookup spec.key = some ⟨j, value⟩

/-- The cell at position `j` has the output that the provider recorded. -/
def Kept (nodes : List (Provider Val)) (env : Env Val) (j : ℕ) : Prop :=
  ∃ p, nodes[j]? = some p ∧ ∃ value, p.output = some value ∧
    env.lookup p.spec.key = some ⟨j, value⟩

omit [DecidableEq Key] in
theorem key_ne {specs : List (ProviderSpec Val)} (hkeys : (specs.map (·.key)).Nodup) {i j : ℕ}
    {p q : ProviderSpec Val} (hp : specs[i]? = some p) (hq : specs[j]? = some q) (hne : i ≠ j) :
    p.key ≠ q.key := by
  intro h
  have hi : (specs.map (·.key))[i]? = some p.key := by rw [List.getElem?_map, hp]; rfl
  have hj : (specs.map (·.key))[j]? = some p.key := by rw [List.getElem?_map, hq, h]; rfl
  obtain ⟨hlt, -⟩ := List.getElem?_eq_some_iff.1 hi
  exact hne ((List.getElem?_inj hlt hkeys).1 (hi.trans hj.symm))

/-- Building one provider does not touch the cells of the others if no two have the same key. -/
theorem Held.insert {specs : List (ProviderSpec Val)} (hkeys : (specs.map (·.key)).Nodup) {j : ℕ}
    (h : Held specs env j) {spec : ProviderSpec Val} (hspec : specs[idx]? = some spec)
    (hne : idx ≠ j) (value : Val spec.key) : Held specs (env.insert spec.key ⟨idx, value⟩) j := by
  obtain ⟨spec', hspec', value', hlookup⟩ := h
  refine ⟨spec', hspec', value', ?_⟩
  rw [AList.lookup_insert_ne (key_ne hkeys hspec' hspec hne.symm), hlookup]

theorem Held.insert_self {specs : List (ProviderSpec Val)} {spec : ProviderSpec Val}
    (hspec : specs[idx]? = some spec) (value : Val spec.key) :
    Held specs (env.insert spec.key ⟨idx, value⟩) idx :=
  ⟨spec, hspec, value, AList.lookup_insert _⟩

/-! ## The loop -/

theorem buildLoop_isSome (horder : ∀ i ∈ order, i < nodes.length) :
    ∃ b, buildLoop order env nodes = some b := by
  induction order generalizing env nodes with
  | nil => exact ⟨_, rfl⟩
  | cons idx order ih =>
      rw [List.forall_mem_cons] at horder
      rw [buildLoop, List.getElem?_eq_getElem horder.1]
      dsimp only
      split
      · exact ⟨_, rfl⟩
      · rename_i env₁ node₁ _
        obtain ⟨b, hb⟩ : ∃ b, buildLoop order env₁ (nodes.set idx node₁) = some b :=
          ih (by simpa using horder.2)
        exact ⟨_, by rw [hb, Option.map_some]⟩

theorem buildLoop_specs (h : buildLoop order env nodes = some b) :
    b.nodes.map (·.spec) = nodes.map (·.spec) := by
  induction order generalizing env nodes b with
  | nil =>
      cases h
      rfl
  | cons idx order ih =>
      obtain ⟨node, hnode, ⟨e, -, rfl⟩ | ⟨value, shared, b', -, hb', rfl⟩⟩ := buildLoop_cons h
      · rfl
      · exact (ih hb').trans (map_spec_set hnode _ _)

/-- If the loop comes through, every node was built. -/
theorem buildLoop_built (h : buildLoop order env nodes = some b) (hok : b.result = .ok env') :
    b.built.map (·.1) = order := by
  induction order generalizing env nodes b with
  | nil =>
      cases h
      rfl
  | cons idx order ih =>
      obtain ⟨node, hnode, ⟨e, -, rfl⟩ | ⟨value, shared, b', -, hb', rfl⟩⟩ := buildLoop_cons h
      · cases hok
      · rw [List.map_cons, ih hb' hok]

/-- The environment each provider is built against: what it has was put there in this loop, and if
    no two providers have the same key, it has the values of all that were built before. -/
theorem buildLoop_deps {specs : List (ProviderSpec Val)} (h : buildLoop order env nodes = some b)
    (hspecs : nodes.map (·.spec) = specs) (horder : order.Nodup) {i : ℕ} {deps : Env Val}
    (hmem : (i, deps) ∈ b.built) :
    ∃ before after, order = before ++ i :: after ∧
      (∀ key cell, deps.lookup key = some cell →
        env.lookup key = some cell ∨ cell.node ∈ before) ∧
      ((specs.map (·.key)).Nodup → ∀ j, j ∈ before ∨ j ∉ order ∧ Held specs env j →
        Held specs deps j) := by
  induction order generalizing env nodes b with
  | nil =>
      cases h
      cases hmem
  | cons idx order ih =>
      obtain ⟨node, hnode, ⟨e, -, rfl⟩ | ⟨value, shared, b', -, hb', rfl⟩⟩ := buildLoop_cons h
      · cases hmem
      · rw [List.nodup_cons] at horder
        have hspec : specs[idx]? = some node.spec := by
          rw [← hspecs, List.getElem?_map, hnode]
          rfl
        rcases List.mem_cons.1 hmem with heq | hmem
        · -- the first node is built against the environment the loop starts with
          cases heq
          refine ⟨[], order, rfl, fun _ _ hcell => Or.inl hcell, fun _ j hj => ?_⟩
          rcases hj with hj | hj
          · cases hj
          · exact hj.2
        · -- a later one was built with the cell of the first there
          obtain ⟨before, after, rfl, hcells, hheld⟩ :=
            ih hb' ((map_spec_set hnode _ _).trans hspecs) horder.2 hmem
          refine ⟨idx :: before, after, rfl, fun key cell hcell => ?_, fun hkeys j hj => ?_⟩
          · rcases hcells key cell hcell with hcell | hcell
            · by_cases hkey : key = node.spec.key
              · subst hkey
                rw [AList.lookup_insert] at hcell
                cases hcell
                exact Or.inr List.mem_cons_self
              · rw [AList.lookup_insert_ne hkey] at hcell
                exact Or.inl hcell
            · exact Or.inr (List.mem_cons_of_mem _ hcell)
          · refine hheld hkeys j ?_
            rcases hj with hj | ⟨hj, hold⟩
            · rcases List.mem_cons.1 hj with rfl | hj
              · exact Or.inr ⟨horder.1, Held.insert_self hspec value⟩
              · exact Or.inl hj
            · rw [List.mem_cons, not_or] at hj
              exact Or.inr ⟨hj.2, hold.insert hkeys hspec (Ne.symm hj.1) value⟩

theorem Kept.build (hkeys : ((nodes.map (·.spec)).map (·.key)).Nodup) {j : ℕ}
    (h : Kept nodes env j) {node : Provider Val} (hnode : nodes[idx]? = some node) (hne : idx ≠ j)
    (value : Val node.spec.key) (shared : Option (Val node.spec.key)) :
    Kept (nodes.set idx ⟨node.spec, some value, shared⟩)
      (env.insert node.spec.key ⟨idx, value⟩) j := by
  obtain ⟨p, hp, value', hout, hlookup⟩ := h
  have hpspec : (nodes.map (·.spec))[j]? = some p.spec := by
    rw [List.getElem?_map, hp, Option.map_some]
  have hspec : (nodes.map (·.spec))[idx]? = some node.spec := by
    rw [List.getElem?_map, hnode, Option.map_some]
  refine ⟨p, by rw [List.getElem?_set_ne hne, hp], value', hout, ?_⟩
  rw [AList.lookup_insert_ne (key_ne hkeys hpspec hspec hne.symm), hlookup]

theorem Kept.build_self {node : Provider Val} (hnode : nodes[idx]? = some node)
    (value : Val node.spec.key) (shared : Option (Val node.spec.key)) :
    Kept (nodes.set idx ⟨node.spec, some value, shared⟩)
      (env.insert node.spec.key ⟨idx, value⟩) idx := by
  obtain ⟨hlt, -⟩ := List.getElem?_eq_some_iff.1 hnode
  exact ⟨_, List.getElem?_set_self hlt, value, rfl, AList.lookup_insert _⟩

/-- Every provider that was built has its own output in its cell, if no two have the same key. -/
theorem buildLoop_kept (h : buildLoop order env nodes = some b)
    (hkeys : ((nodes.map (·.spec)).map (·.key)).Nodup) (hok : b.result = .ok env') {j : ℕ}
    (hj : j ∈ order ∨ Kept nodes env j) : Kept b.nodes env' j := by
  induction order generalizing env nodes b with
  | nil =>
      cases h
      cases hok
      exact hj.resolve_left List.not_mem_nil
  | cons idx order ih =>
      obtain ⟨node, hnode, ⟨e, -, rfl⟩ | ⟨value, shared, b', -, hb', rfl⟩⟩ := buildLoop_cons h
      · cases hok
      · rw [← map_spec_set hnode (some value) shared] at hkeys
        have hlast : (j ∈ order ∨ Kept (nodes.set idx ⟨node.spec, some value, shared⟩)
            (env.insert node.spec.key ⟨idx, value⟩) j) → Kept b'.nodes env' j := ih hb' hkeys hok
        refine hlast ?_
        rw [map_spec_set hnode] at hkeys
        by_cases hidx : idx = j
        · subst hidx
          exact Or.inr (Kept.build_self hnode value shared)
        · rcases hj with hj | hj
          · exact Or.inl ((List.mem_cons.1 hj).resolve_left (Ne.symm hidx))
          · exact Or.inr (hj.build hkeys hnode hidx value shared)

/-- If the loop comes through, every node of it has recorded an output. -/
theorem buildLoop_output (h : buildLoop order env nodes = some b) (hok : b.result = .ok env')
    {j : ℕ} (hj : j ∈ order ∨ ∃ p, nodes[j]? = some p ∧ p.output.isSome) :
    ∃ p, b.nodes[j]? = some p ∧ p.output.isSome := by
  induction order generalizing env nodes b with
  | nil =>
      cases h
      exact hj.resolve_left List.not_mem_nil
  | cons idx order ih =>
      obtain ⟨node, hnode, ⟨e, -, rfl⟩ | ⟨value, shared, b', -, hb', rfl⟩⟩ := buildLoop_cons h
      · cases hok
      · have hlast := ih hb' hok
        refine hlast ?_
        by_cases hidx : idx = j
        · subst hidx
          obtain ⟨hlt, -⟩ := List.getElem?_eq_some_iff.1 hnode
          exact Or.inr ⟨_, List.getElem?_set_self hlt, rfl⟩
        · rw [List.mem_cons, List.getElem?_set_ne hidx] at *
          exact hj.imp_left fun hj => hj.resolve_left (Ne.symm hidx)

/-- The keys of the environment are those of the nodes of the loop. -/
theorem buildLoop_keys {specs : List (ProviderSpec Val)} (h : buildLoop order env nodes = some b)
    (hspecs : nodes.map (·.spec) = specs) (hok : b.result = .ok env') (key : Key) :
    key ∈ env' ↔ key ∈ env ∨ ∃ i ∈ order, ∃ spec, specs[i]? = some spec ∧ spec.key = key := by
  induction order generalizing env nodes b with
  | nil =>
      cases h
      cases hok
      simp
  | cons idx order ih =>
      obtain ⟨node, hnode, ⟨e, -, rfl⟩ | ⟨value, shared, b', -, hb', rfl⟩⟩ := buildLoop_cons h
      · cases hok
      · have hspec : specs[idx]? = some node.spec := by
          rw [← hspecs, List.getElem?_map, hnode, Option.map_some]
        have hrest := ih hb' ((map_spec_set hnode _ _).trans hspecs) hok
        rw [AList.mem_insert] at hrest
        rw [hrest, List.exists_mem_cons_iff, hspec]
        simp only [Option.some_inj, exists_eq_left', eq_comm (a := key)]
        rw [← or_assoc, or_comm (a := node.spec.key = key)]

/-! ## What a build leaves behind -/

/-- For each provider the environment has the output of that very provider under its key. -/
def Retrievable (nodes : List (Provider Val)) (b : Building Val) (env : Env Val) : Prop :=
  ∀ (i : ℕ) (p : Provider Val), nodes[i]? = some p → ∃ p', b.nodes[i]? = some p' ∧
    p'.spec = p.spec ∧ ∃ value, p'.output = some value ∧ env.lookup p'.spec.key = some ⟨i, value⟩

/-- Each provider was built against an environment with the values of what it requires, each from
    the provider of that capability. -/
def RequirementsMet (nodes : List (Provider Val)) (b : Building Val) : Prop :=
  ∀ (i : ℕ) (deps : Env Val) (p : Provider Val), (i, deps) ∈ b.built → nodes[i]? = some p →
    ∀ cap ∈ requirements nodes p.spec, ∃ (j : ℕ) (q : Provider Val), nodes[j]? = some q ∧
      q.spec.provides = cap ∧ ∃ value, deps.lookup cap.typeId = some ⟨j, value⟩

/-- No two providers have the same key, and what a provider requires is provided by another. -/
structure Separate (nodes : List (Provider Val)) : Prop where
  keys : (nodes.map (·.spec.key)).Nodup
  provided : ∀ (i : ℕ) (p : Provider Val), nodes[i]? = some p →
    ∀ cap ∈ requirements nodes p.spec, ∃ (j : ℕ) (q : Provider Val), j ≠ i ∧
      nodes[j]? = some q ∧ q.spec.provides = cap

theorem buildFrom_isSome (iter : Iteration String) (debug : CapabilityId Key → String)
    (nodes : List (Provider Val)) (env : Env Val) :
    ∃ b, buildFrom iter debug nodes env = some b := by
  rw [buildFrom]
  rcases plan_cases iter debug nodes with ⟨order, hplan, hperm, -⟩ | ⟨e, hplan⟩
  · rw [hplan]
    exact buildLoop_isSome fun i hi => List.mem_range.1 (hperm.mem_iff.1 hi)
  · rw [hplan]
    exact ⟨_, rfl⟩

theorem build_isSome (iter : Iteration String) (debug : CapabilityId Key → String)
    (nodes : List (Provider Val)) : ∃ b, build iter debug nodes = some b :=
  buildFrom_isSome iter debug nodes ∅

/-- A build that comes through has followed a plan. -/
theorem build_ok {iter : Iteration String} {debug : CapabilityId Key → String}
    (h : build iter debug nodes = some b) (hok : b.result = .ok env) :
    ∃ order, buildLoop order ∅ nodes = some b ∧ order.Perm (List.range nodes.length) ∧
      DependenciesFirst nodes order := by
  rw [build, buildFrom] at h
  rcases plan_cases iter debug nodes with ⟨order, hplan, hperm, hfirst⟩ | ⟨e, hplan⟩
  · rw [hplan] at h
    exact ⟨order, h, hperm, hfirst⟩
  · rw [hplan] at h
    cases h
    cases hok

/-- A cell has one value, so that two providers with the same key are not both retrievable. -/
theorem Retrievable.keys_nodup (h : Retrievable nodes b env) :
    (nodes.map (·.spec.key)).Nodup := by
  have hnode : ∀ (i : ℕ) (p : Provider Val), nodes[i]? = some p →
      (env.lookup p.spec.key).map (·.node) = some i := by
    intro i p hp
    obtain ⟨p', -, hspec, value, -, hlookup⟩ := h i p hp
    rw [← hspec, hlookup, Option.map_some]
  rw [List.nodup_iff_getElem?_ne_getElem?]
  intro i j hij hj heq
  rw [List.length_map] at hj
  have hi : i < nodes.length := hij.trans hj
  have hkey : nodes[i].spec.key = nodes[j].spec.key := by
    simpa [hi, hj] using heq
  have hcell := hnode i _ (List.getElem?_eq_getElem hi)
  rw [hkey, hnode j _ (List.getElem?_eq_getElem hj), Option.some_inj] at hcell
  omega

omit [DecidableEq Key] in
theorem mem_order_of_perm (hperm : order.Perm (List.range nodes.length)) {i : ℕ} {p : Provider Val}
    (hp : nodes[i]? = some p) : i ∈ order := by
  obtain ⟨hlt, -⟩ := List.getElem?_eq_some_iff.1 hp
  exact hperm.mem_iff.2 (List.mem_range.2 hlt)

/-- With different keys every output stays. -/
theorem retrievable_of_keys (h : buildLoop order ∅ nodes = some b) (hok : b.result = .ok env)
    (hperm : order.Perm (List.range nodes.length))
    (hkeys : ((nodes.map (·.spec)).map (·.key)).Nodup) : Retrievable nodes b env := by
  intro i p hp
  obtain ⟨p', hp', value, hout, hlookup⟩ :=
    buildLoop_kept h hkeys hok (Or.inl (mem_order_of_perm hperm hp))
  have hspecs := congrArg (fun specs => specs[i]?) (buildLoop_specs h)
  simp only [List.getElem?_map, hp, hp', Option.map_some, Option.some_inj] at hspecs
  exact ⟨p', hp', hspecs, value, hout, hlookup⟩

/-- What is provided by others is there, since they are built before and their values stay. -/
theorem requirementsMet_of_separate (h : buildLoop order ∅ nodes = some b) (horder : order.Nodup)
    (hfirst : DependenciesFirst nodes order)
    (hkeys : ((nodes.map (·.spec)).map (·.key)).Nodup) (hsep : Separate nodes) :
    RequirementsMet nodes b := by
  intro i deps p hentry hp cap hcap
  obtain ⟨j, q, hne, hq, rfl⟩ := hsep.provided i p hp cap hcap
  obtain ⟨before, after, rfl, -, hheld⟩ := buildLoop_deps h rfl horder hentry
  have hreq : q.spec.provides ∈ p.spec.requires := (List.mem_filter.1 hcap).1
  have hbefore := hfirst before i after rfl j p q hp hq hne hreq
  obtain ⟨spec, hspec, value, hlookup⟩ := hheld hkeys j (Or.inl hbefore)
  rw [List.getElem?_map, hq, Option.map_some] at hspec
  cases hspec
  exact ⟨j, q, hq, rfl, value, hlookup⟩

/-- What was there when a provider was built came from another one. -/
theorem RequirementsMet.provided (hmet : RequirementsMet nodes b)
    (h : buildLoop order ∅ nodes = some b) (hok : b.result = .ok env) (horder : order.Nodup)
    {i : ℕ} {p : Provider Val} (hi : i ∈ order) (hp : nodes[i]? = some p) {cap : CapabilityId Key}
    (hcap : cap ∈ requirements nodes p.spec) :
    ∃ (j : ℕ) (q : Provider Val), j ≠ i ∧ nodes[j]? = some q ∧ q.spec.provides = cap := by
  rw [← buildLoop_built h hok] at hi
  obtain ⟨⟨i, deps⟩, hentry, rfl⟩ := List.mem_map.1 hi
  obtain ⟨j, q, hq, hprovides, value, hlookup⟩ := hmet i deps p hentry hp cap hcap
  obtain ⟨before, after, rfl, hcells, -⟩ := buildLoop_deps h rfl horder hentry
  have hbefore : j ∈ before := by
    rcases hcells _ _ hlookup with hcell | hcell
    · rw [AList.lookup_empty] at hcell
      cases hcell
    · exact hcell
  refine ⟨j, q, ?_, hq, hprovides⟩
  rintro rfl
  rw [List.nodup_append'] at horder
  exact horder.2.2 hbefore List.mem_cons_self

/-- **Retrieval.** After a build that comes through, every provider's own output is found under its
    capability and every provider was built with what it requires at hand, exactly if no two
    providers have the same key type and no provider requires what only itself, or nobody,
    provides. -/
theorem retrievable_iff (iter : Iteration String) (debug : CapabilityId Key → String)
    (h : build iter debug nodes = some b) (hok : b.result = .ok env) :
    (Retrievable nodes b env ∧ RequirementsMet nodes b) ↔ Separate nodes := by
  obtain ⟨order, hloop, hperm, hfirst⟩ := build_ok h hok
  have horder : order.Nodup := hperm.nodup_iff.2 List.nodup_range
  constructor
  · rintro ⟨hret, hmet⟩
    refine ⟨hret.keys_nodup, fun i p hp cap hcap => ?_⟩
    exact hmet.provided hloop hok horder (mem_order_of_perm hperm hp) hp hcap
  · intro hsep
    have hkeys : ((nodes.map (·.spec)).map (·.key)).Nodup := by
      rw [List.map_map]
      exact hsep.keys
    exact ⟨retrievable_of_keys hloop hok hperm hkeys,
      requirementsMet_of_separate hloop horder hfirst hkeys hsep⟩

end loop

/-! ## Two variants of one key -/

/-- Hash maps as they are. -/
def asStored : Iteration String := ⟨id, List.Perm.refl⟩

/-- A database with a label and a number. -/
def labelled (label : String) (value : ℕ) : ProviderSpec fun _ : Unit => ℕ where
  key := ()
  providerId := label
  variant := some label
  capName := "Db"
  provide := fun _ => .ok value

def twoVariants : List (Provider fun _ : Unit => ℕ) :=
  [⟨labelled "primary" 1, none, none⟩, ⟨labelled "replica" 2, none, none⟩]

/-- **Variants are not kept apart.** -/
theorem variant_overwritten : ∃ b env, build asStored (fun _ => "") twoVariants = some b ∧
    b.result = .ok env ∧ env.lookup () = some ⟨0, 1⟩ ∧ ¬ Retrievable twoVariants b env := by
  refine ⟨_, _, rfl, rfl, ?_, fun h => ?_⟩
  · rfl
  · exact absurd h.keys_nodup (by decide)

def config : ProviderSpec fun _ : Bool => ℕ where
  key := false
  providerId := "config"
  capName := "Config"
  provide := fun _ => .ok 7

/-- A database made from the configuration. -/
def db : ProviderSpec fun _ : Bool => ℕ where
  key := true
  providerId := "db"
  requires := [⟨false, none⟩]
  capName := "Db"
  provide := fun deps =>
    match deps.lookup false with
    | some cell => .ok (cell.value + 1)
    | none => .error ⟨"db", "no configuration"⟩

def dbAndConfig : List (Provider fun _ : Bool => ℕ) :=
  [⟨db, none, none⟩, ⟨config, none, none⟩]

theorem retrievable_dbAndConfig : ∃ b env,
    build asStored (fun _ => "") dbAndConfig = some b ∧ b.result = .ok env ∧
      Retrievable dbAndConfig b env ∧ RequirementsMet dbAndConfig b := by
  refine ⟨_, _, rfl, rfl, (retrievable_iff asStored (fun _ => "") rfl rfl).2 ⟨by decide, ?_⟩⟩
  intro i p hp cap hcap
  match i with
  | 0 =>
      cases hp
      obtain rfl : cap = ⟨false, none⟩ := List.mem_singleton.1 hcap
      exact ⟨1, ⟨config, none, none⟩, by decide, rfl, rfl⟩
  | 1 =>
      cases hp
      cases hcap
  | i + 2 => cases hp

end CapabilityGraph

end IdEffect.Capability
