import IdEffect.Capability.GraphBuild

set_option autoImplicit false

/-! # Shared providers over many builds

A provider node may be part of many graphs, and its cells go along. A shared provider that is built
synchronously puts into every environment what it made the first time. The effectful build does not
look at the cell, and makes a value each time (`memoized_iff`).

`provide` is a function of the environment: what a provider finds outside is a cell of it like any
other. -/

namespace IdEffect.Capability

open CapabilityGraph

variable {Key : Type} [DecidableEq Key] {Val : Key → Type}

/-- The build of a graph: the node in question stands between the others. -/
structure GraphBuild (Val : Key → Type) where
  before : List (Provider Val)
  after : List (Provider Val)
  env : Env Val

/-- Does `provide` or `provide_effect` succeed in a build of the node? -/
def Provider.makes (p : Provider Val) (deps : Env Val) : Bool :=
  if p.spec.effectfulBuild then (p.spec.provideEffect deps).isOk
  else if p.spec.shared && p.shared.isSome then false
  else (p.spec.provide deps).isOk

/-- One build of the node: whether it made a value, and which one is in the environment. -/
structure Report (Val : Key → Type) where
  made : Bool
  value : Option (Sigma Val)

/-- What there is to say of the node at position `idx` after the build of a graph. -/
def report (p : Provider Val) (idx : ℕ) (b : Building Val) : Option (Report Val) :=
  (b.built.lookup idx).map fun deps =>
    { made := p.makes deps
      value :=
        match p.buildNode idx deps with
        | .ok (env, _) => (env.lookup p.spec.key).map fun cell => ⟨p.spec.key, cell.value⟩
        | .error _ => none }

/-- Build one graph after the other, with the same node in each. -/
def buildAll (iter : Iteration String) (debug : CapabilityId Key → String) :
    Provider Val → List (GraphBuild Val) → List (Report Val)
  | _, [] => []
  | p, g :: graphs =>
      match buildFrom iter debug (g.before ++ p :: g.after) g.env with
      | none => []
      | some b =>
          (report p g.before.length b).toList ++
            buildAll iter debug ((b.nodes[g.before.length]?).getD p) graphs

/-- Does this build, made first, get to the node? -/
def GraphBuild.reaches (iter : Iteration String) (debug : CapabilityId Key → String)
    (p : Provider Val) (g : GraphBuild Val) : Bool :=
  (buildFrom iter debug (g.before ++ p :: g.after) g.env).any fun b =>
    (b.built.lookup g.before.length).isSome

/-- At most one value is made, and every build puts the same one into its environment. -/
def Memoized (reports : List (Report Val)) : Prop :=
  (reports.filter (·.made)).length ≤ 1 ∧ ∀ r ∈ reports, ∀ r' ∈ reports, r.value = r'.value

/-! ## The node in one build -/

namespace CapabilityGraph

section loop

variable {order : List ℕ} {idx : ℕ} {env : Env Val} {nodes : List (Provider Val)}
  {b : Building Val} {p : Provider Val}

theorem buildLoop_of_not_mem (h : buildLoop order env nodes = some b) (hidx : idx ∉ order) :
    b.built.lookup idx = none ∧ b.nodes[idx]? = nodes[idx]? := by
  induction order generalizing env nodes b with
  | nil =>
      cases h
      exact ⟨rfl, rfl⟩
  | cons i order ih =>
      rw [List.mem_cons, not_or] at hidx
      obtain ⟨node, hnode, ⟨e, -, rfl⟩ | ⟨value, shared, b', -, hb', rfl⟩⟩ := buildLoop_cons h
      · exact ⟨rfl, rfl⟩
      · obtain ⟨hlookup, hget⟩ := ih hb' hidx.2
        rw [List.getElem?_set_ne (Ne.symm hidx.1)] at hget
        refine ⟨?_, hget⟩
        have hne : (idx == i) = false := beq_false_of_ne hidx.1
        rw [List.lookup_cons, hne, hlookup]

/-- A node is left alone, or it is built once. -/
theorem buildLoop_node (h : buildLoop order env nodes = some b) (horder : order.Nodup)
    (hp : nodes[idx]? = some p) :
    (b.built.lookup idx = none ∧ b.nodes[idx]? = some p) ∨
      ∃ deps env' p', b.built.lookup idx = some deps ∧ p.buildNode idx deps = .ok (env', p') ∧
        b.nodes[idx]? = some p' := by
  induction order generalizing env nodes b with
  | nil =>
      cases h
      exact .inl ⟨rfl, hp⟩
  | cons i order ih =>
      rw [List.nodup_cons] at horder
      obtain ⟨node, hnode, ⟨e, -, rfl⟩ | ⟨value, shared, b', hbuild, hb', rfl⟩⟩ := buildLoop_cons h
      · exact .inl ⟨rfl, hp⟩
      · by_cases hidx : idx = i
        · subst hidx
          rw [hp, Option.some_inj] at hnode
          subst hnode
          obtain ⟨-, hget⟩ := buildLoop_of_not_mem hb' horder.1
          obtain ⟨hlt, -⟩ := List.getElem?_eq_some_iff.1 hp
          rw [List.getElem?_set_self hlt] at hget
          exact .inr ⟨env, _, _, by rw [List.lookup_cons_self], hbuild, hget⟩
        · have hlookup : ((i, env) :: b'.built).lookup idx = b'.built.lookup idx := by
            have hne : (idx == i) = false := beq_false_of_ne hidx
            rw [List.lookup_cons, hne]
          rw [hlookup]
          refine ih hb' horder.2 ?_
          rw [List.getElem?_set_ne (Ne.symm hidx), hp]

theorem buildFrom_node {iter : Iteration String} {debug : CapabilityId Key → String}
    (h : buildFrom iter debug nodes env = some b) (hp : nodes[idx]? = some p) :
    (b.built.lookup idx = none ∧ b.nodes[idx]? = some p) ∨
      ∃ deps env' p', b.built.lookup idx = some deps ∧ p.buildNode idx deps = .ok (env', p') ∧
        b.nodes[idx]? = some p' := by
  rw [buildFrom] at h
  rcases plan_cases iter debug nodes with ⟨order, hplan, hperm, -⟩ | ⟨e, hplan⟩
  · rw [hplan] at h
    exact buildLoop_node h (hperm.nodup_iff.2 List.nodup_range) hp
  · rw [hplan] at h
    cases h
    exact .inl ⟨rfl, hp⟩

end loop

end CapabilityGraph

/-! ## What a plan and an effectful build look at -/

namespace CapabilityGraph

variable {nodes nodes' : List (Provider Val)}

theorem checkProviderConflicts_congr (h : nodes.map (·.spec) = nodes'.map (·.spec))
    (providerByCap : HashMap (CapabilityId Key) (String × String)) :
    checkProviderConflicts providerByCap nodes = checkProviderConflicts providerByCap nodes' := by
  induction nodes generalizing nodes' providerByCap with
  | nil => rw [List.map_eq_nil_iff.1 h.symm]
  | cons node nodes ih =>
      cases nodes' with
      | nil => cases h
      | cons node' nodes' =>
          rw [List.map_cons, List.map_cons, List.cons.injEq] at h
          rw [checkProviderConflicts, checkProviderConflicts, h.1]
          cases providerByCap.lookup node'.spec.provides with
          | some first => rfl
          | none => exact ih h.2 _

theorem plannerNodes_congr (debug : CapabilityId Key → String)
    (h : nodes.map (·.spec) = nodes'.map (·.spec)) :
    plannerNodes debug nodes = plannerNodes debug nodes' := by
  have hnames (l : List (Provider Val)) : capNameById l =
      (l.map (·.spec)).foldl (fun names spec => names.insert spec.provides
        (plannerCapKey spec.provides spec.capName)) ∅ := by
    rw [List.foldl_map]
    rfl
  have hprovides (l : List (Provider Val)) : l.map (·.spec.provides) =
      (l.map (·.spec)).map ProviderSpec.provides := by
    rw [List.map_map]
    rfl
  have hnode (spec : ProviderSpec Val) :
      plannerNode debug nodes spec = plannerNode debug nodes' spec := by
    unfold plannerNode requirements requiredName
    rw [hnames nodes, hnames nodes', hprovides nodes, hprovides nodes', h]
  have hmap (l : List (Provider Val)) : plannerNodes debug l =
      (l.map (·.spec)).map (plannerNode debug l) := by
    rw [List.map_map]
    rfl
  rw [hmap nodes, hmap nodes', h]
  exact List.map_congr_left fun spec _ => hnode spec

/-- The plan is made from the specifications. -/
theorem plan_congr (iter : Iteration String) (debug : CapabilityId Key → String)
    (h : nodes.map (·.spec) = nodes'.map (·.spec)) :
    plan iter debug nodes = plan iter debug nodes' := by
  have hfind (id : String) : (nodes.findIdx? fun n => n.spec.providerId == id) =
      nodes'.findIdx? fun n => n.spec.providerId == id := by
    have hspec := congrArg (List.findIdx? fun spec => spec.providerId == id) h
    rwa [List.findIdx?_map, List.findIdx?_map] at hspec
  unfold plan
  simp only [checkProviderConflicts_congr h, plannerNodes_congr debug h, hfind]

/-- The same node, but for what an effectful build does not look at. -/
def Twin (p p' : Provider Val) : Prop :=
  p' = p ∨ p.spec.effectfulBuild = true ∧ ∃ output shared, p' = ⟨p.spec, output, shared⟩

omit [DecidableEq Key] in
theorem Twin.spec_eq {p p' : Provider Val} (h : Twin p p') : p.spec = p'.spec := by
  rcases h with rfl | ⟨-, output, shared, rfl⟩
  · rfl
  · rfl

theorem Twin.buildNode {p p' : Provider Val} (h : Twin p p') (idx : ℕ) (deps : Env Val) :
    (∃ e, p.buildNode idx deps = .error e ∧ p'.buildNode idx deps = .error e) ∨
      ∃ env q q', p.buildNode idx deps = .ok (env, q) ∧ p'.buildNode idx deps = .ok (env, q') ∧
        Twin q q' := by
  rcases h with rfl | ⟨heff, output, shared, rfl⟩
  · cases hbuild : p'.buildNode idx deps with
    | error e => exact .inl ⟨e, rfl, rfl⟩
    | ok out => exact .inr ⟨out.1, out.2, out.2, rfl, rfl, .inl rfl⟩
  · unfold Provider.buildNode Provider.buildEffect
    rw [if_pos heff, if_pos heff]
    simp only
    cases p.spec.provideEffect deps with
    | error e => exact .inl ⟨e, rfl, rfl⟩
    | ok value => exact .inr ⟨_, _, _, rfl, rfl, .inr ⟨heff, _, _, rfl⟩⟩

def Twins (nodes nodes' : List (Provider Val)) : Prop :=
  ∀ idx : ℕ, Option.Rel Twin nodes[idx]? nodes'[idx]?

omit [DecidableEq Key] in
theorem Twins.cases (h : Twins nodes nodes') (idx : ℕ) :
    (nodes[idx]? = none ∧ nodes'[idx]? = none) ∨
      ∃ p p', nodes[idx]? = some p ∧ nodes'[idx]? = some p' ∧ Twin p p' := by
  have hidx := h idx
  generalize nodes[idx]? = node, nodes'[idx]? = node' at hidx ⊢
  cases hidx with
  | none => exact .inl ⟨rfl, rfl⟩
  | some htwin => exact .inr ⟨_, _, rfl, rfl, htwin⟩

omit [DecidableEq Key] in
theorem Twins.map_spec (h : Twins nodes nodes') :
    nodes.map (·.spec) = nodes'.map (·.spec) := by
  apply List.ext_getElem?
  intro idx
  rw [List.getElem?_map, List.getElem?_map]
  rcases h.cases idx with ⟨hp, hp'⟩ | ⟨p, p', hp, hp', htwin⟩
  · rw [hp, hp']
  · rw [hp, hp', Option.map_some, Option.map_some, htwin.spec_eq]

omit [DecidableEq Key] in
theorem Twins.set (h : Twins nodes nodes') (idx : ℕ) {q q' : Provider Val} (hq : Twin q q') :
    Twins (nodes.set idx q) (nodes'.set idx q') := by
  have hlen : nodes.length = nodes'.length := by
    have hspecs := congrArg List.length h.map_spec
    rwa [List.length_map, List.length_map] at hspecs
  intro i
  rw [List.getElem?_set, List.getElem?_set, hlen]
  split_ifs
  · exact .some hq
  · exact .none
  · exact h i

/-- The same nodes are built, against the same environments. -/
theorem buildLoop_twins {order : List ℕ} {env : Env Val} (h : Twins nodes nodes') :
    (buildLoop order env nodes).map (·.built) = (buildLoop order env nodes').map (·.built) := by
  induction order generalizing env nodes nodes' with
  | nil => rfl
  | cons idx order ih =>
      rw [buildLoop, buildLoop]
      rcases h.cases idx with ⟨hnode, hnode'⟩ | ⟨p, p', hnode, hnode', htwin⟩
      · rw [hnode, hnode']
      · rw [hnode, hnode']
        rcases htwin.buildNode idx env with ⟨e, hp, hp'⟩ | ⟨env', q, q', hp, hp', hq⟩
        · simp only [hp, hp', Option.map_some]
        · have hrest : (buildLoop order env' (nodes.set idx q)).map (·.built) =
              (buildLoop order env' (nodes'.set idx q')).map (·.built) := ih (h.set idx hq)
          have hcons := congrArg (Option.map ((idx, env) :: ·)) hrest
          simp only [Option.map_map, Function.comp_def] at hcons
          simpa only [hp, hp', Option.map_map, Function.comp_def] using hcons

theorem buildFrom_twins {iter : Iteration String} {debug : CapabilityId Key → String}
    {env : Env Val} (h : Twins nodes nodes') :
    (buildFrom iter debug nodes env).map (·.built) =
      (buildFrom iter debug nodes' env).map (·.built) := by
  unfold buildFrom
  rw [plan_congr iter debug h.map_spec]
  rcases plan_cases iter debug nodes' with ⟨order, hplan, -⟩ | ⟨e, hplan⟩
  · rw [hplan]
    exact buildLoop_twins h
  · rw [hplan]
    rfl

end CapabilityGraph

/-! ## A shared node -/

section

variable {p p' : Provider Val} {idx : ℕ} {deps env : Env Val} (iter : Iteration String)
  (debug : CapabilityId Key → String)

/-- What a build makes of the cells of a shared node. The value is new in an effectful build; else
    it is the one in the cell, or is put there. -/
theorem Provider.buildNode_shared (hshared : p.spec.shared = true)
    (h : p.buildNode idx deps = .ok (env, p')) :
    ∃ value cell, env = deps.insert p.spec.key ⟨idx, value⟩ ∧ p' = ⟨p.spec, some value, cell⟩ ∧
      ((p.spec.effectfulBuild = true ∧ p.makes deps = true) ∨
        p.spec.effectfulBuild = false ∧ cell = some value ∧
          (p.shared = some value ∧ p.makes deps = false ∨
            p.shared = none ∧ p.makes deps = true)) := by
  unfold buildNode at h
  unfold makes
  split at h
  · next heff =>
      unfold buildEffect at h
      split at h
      · cases h
      · next value hmade =>
          cases h
          refine ⟨value, p.shared, rfl, rfl, .inl ⟨heff, ?_⟩⟩
          rw [if_pos heff, hmade]
          rfl
  · next heff =>
      have hsync : p.spec.effectfulBuild = false := by simpa using heff
      unfold build at h
      rw [if_pos hshared] at h
      split at h
      · next value hcell =>
          cases h
          refine ⟨value, some value, rfl, by simp [hcell], ?_⟩
          exact .inr ⟨hsync, rfl, .inl ⟨hcell, by simp [hsync, hshared, hcell]⟩⟩
      · next hcell =>
          split at h
          · cases h
          · next value hmade =>
              cases h
              refine ⟨value, some value, rfl, rfl, .inr ⟨hsync, rfl, .inr ⟨hcell, ?_⟩⟩⟩
              simp [hsync, hcell, hmade, Except.isOk, Except.toBool]

/-- One build of the sequence: it does not get to the node, or puts a value into its environment. -/
theorem buildAll_cons (hshared : p.spec.shared = true) (g : GraphBuild Val)
    (graphs : List (GraphBuild Val)) :
    (g.reaches iter debug p = false ∧
        buildAll iter debug p (g :: graphs) = buildAll iter debug p graphs) ∨
    g.reaches iter debug p = true ∧
      ∃ made value cell, buildAll iter debug p (g :: graphs) =
          ⟨made, some ⟨p.spec.key, value⟩⟩ ::
            buildAll iter debug ⟨p.spec, some value, cell⟩ graphs ∧
        ((p.spec.effectfulBuild = true ∧ made = true) ∨
          p.spec.effectfulBuild = false ∧ cell = some value ∧
            (p.shared = some value ∧ made = false ∨ p.shared = none ∧ made = true)) := by
  obtain ⟨b, hbuild⟩ := buildFrom_isSome iter debug (g.before ++ p :: g.after) g.env
  unfold GraphBuild.reaches
  rw [buildAll, hbuild]
  simp only [Option.any_some]
  have hp : (g.before ++ p :: g.after)[g.before.length]? = some p := by simp
  rcases buildFrom_node hbuild hp with ⟨hlookup, hnode⟩ | ⟨deps, env, p', hlookup, hok, hnode⟩
  · left
    rw [report, hlookup, hnode]
    exact ⟨rfl, rfl⟩
  · right
    obtain ⟨value, cell, rfl, rfl, hmade⟩ := Provider.buildNode_shared hshared hok
    rw [report, hlookup, hnode]
    refine ⟨rfl, p.makes deps, value, cell, ?_, hmade⟩
    simp [hok]

/-- Once the cell is filled, synchronous builds look at nothing else. -/
theorem buildAll_of_cell (hshared : p.spec.shared = true) (hsync : p.spec.effectfulBuild = false)
    {value : Val p.spec.key} (hcell : p.shared = some value) (graphs : List (GraphBuild Val)) :
    ∀ r ∈ buildAll iter debug p graphs, r = ⟨false, some ⟨p.spec.key, value⟩⟩ := by
  induction graphs generalizing p with
  | nil => simp [buildAll]
  | cons g graphs ih =>
      rcases buildAll_cons iter debug hshared g graphs with
        ⟨-, heq⟩ | ⟨-, made, v, cell, heq, ⟨heff, -⟩ | ⟨-, rfl, ⟨hv, rfl⟩ | ⟨hnone, -⟩⟩⟩
      · rw [heq]
        exact ih hshared hsync hcell
      · rw [hsync] at heff
        cases heff
      · rw [hcell, Option.some_inj] at hv
        subst hv
        rw [heq, List.forall_mem_cons]
        refine ⟨rfl, ?_⟩
        apply ih
        exacts [hshared, hsync, rfl]
      · rw [hcell] at hnone
        cases hnone

theorem memoized_of_sync (hshared : p.spec.shared = true) (hsync : p.spec.effectfulBuild = false)
    (graphs : List (GraphBuild Val)) : Memoized (buildAll iter debug p graphs) := by
  induction graphs with
  | nil => simp [buildAll, Memoized]
  | cons g graphs ih =>
      rcases buildAll_cons iter debug hshared g graphs with
        ⟨-, heq⟩ | ⟨-, made, v, cell, heq, ⟨heff, -⟩ | ⟨-, rfl, hfirst⟩⟩
      · rw [heq]
        exact ih
      · rw [hsync] at heff
        cases heff
      · -- the first build leaves the value in the cell
        have hrest : ∀ r ∈ buildAll iter debug ⟨p.spec, some v, some v⟩ graphs,
            r = ⟨false, some ⟨p.spec.key, v⟩⟩ := by
          apply buildAll_of_cell
          exacts [hshared, hsync, rfl]
        have hvalue : ∀ r ∈ buildAll iter debug p (g :: graphs),
            r.value = some ⟨p.spec.key, v⟩ := by
          rw [heq, List.forall_mem_cons]
          exact ⟨rfl, fun r hr => by rw [hrest r hr]⟩
        constructor
        · have hnone :
              (buildAll iter debug ⟨p.spec, some v, some v⟩ graphs).filter (·.made) = [] := by
            rw [List.filter_eq_nil_iff]
            intro r hr
            rw [hrest r hr]
            simp
          rw [heq, List.filter_cons, hnone]
          split <;> simp
        · intro r hr r' hr'
          rw [hvalue r hr, hvalue r' hr']

theorem GraphBuild.reaches_twin {g : GraphBuild Val} (h : Twin p p') :
    g.reaches iter debug p = g.reaches iter debug p' := by
  have htwins : Twins (g.before ++ p :: g.after) (g.before ++ p' :: g.after) := by
    have hself : Twins (g.before ++ p :: g.after) (g.before ++ p :: g.after) := by
      intro idx
      cases (g.before ++ p :: g.after)[idx]? with
      | none => exact .none
      | some q => exact .some (.inl rfl)
    simpa using hself.set g.before.length h
  have hany (out : Option (Building Val)) :
      out.any (fun b => (b.built.lookup g.before.length).isSome) =
        (out.map (·.built)).any fun built => (built.lookup g.before.length).isSome := by
    cases out <;> rfl
  unfold GraphBuild.reaches
  rw [hany, hany, buildFrom_twins htwins]

/-- Effectful builds make a value each time, and what the cells hold makes no difference. -/
theorem buildAll_of_effectful (hshared : p.spec.shared = true) (heff : p.spec.effectfulBuild = true)
    (graphs : List (GraphBuild Val)) : (∀ r ∈ buildAll iter debug p graphs, r.made = true) ∧
      (buildAll iter debug p graphs).length =
        (graphs.filter (GraphBuild.reaches iter debug p)).length := by
  induction graphs generalizing p with
  | nil => simp [buildAll]
  | cons g graphs ih =>
      rcases buildAll_cons iter debug hshared g graphs with
        ⟨hreach, heq⟩ | ⟨hreach, made, v, cell, heq, ⟨-, rfl⟩ | ⟨hsync, -⟩⟩
      · rw [heq, List.filter_cons_of_neg (by simp [hreach])]
        exact ih hshared heff
      · have htwin : Twin p ⟨p.spec, some v, cell⟩ := .inr ⟨heff, _, _, rfl⟩
        have hsame : GraphBuild.reaches iter debug p =
            GraphBuild.reaches iter debug ⟨p.spec, some v, cell⟩ := by
          funext g
          exact GraphBuild.reaches_twin iter debug htwin
        have hrest := @ih ⟨p.spec, some v, cell⟩ hshared heff
        rw [heq, List.filter_cons_of_pos hreach, List.length_cons, List.length_cons, hsame,
          hrest.2, List.forall_mem_cons]
        exact ⟨⟨rfl, hrest.1⟩, rfl⟩
      · rw [heff] at hsync
        cases hsync

/-- **Shared providers.** Over a sequence of builds a shared provider is memoized exactly if it is
    built synchronously, or not more than one of the builds gets to it. -/
theorem memoized_iff (hshared : p.spec.shared = true) (graphs : List (GraphBuild Val)) :
    Memoized (buildAll iter debug p graphs) ↔ p.spec.effectfulBuild = false ∨
      (graphs.filter (GraphBuild.reaches iter debug p)).length ≤ 1 := by
  cases heff : p.spec.effectfulBuild with
  | false =>
      rw [iff_true_right (.inl rfl)]
      exact memoized_of_sync iter debug hshared heff graphs
  | true =>
      obtain ⟨hmade, hlen⟩ := buildAll_of_effectful iter debug hshared heff graphs
      rw [← hlen, or_iff_right Bool.noConfusion]
      unfold Memoized
      rw [List.filter_eq_self.2 hmade]
      constructor
      · exact And.left
      · intro hone
        refine ⟨hone, ?_⟩
        match buildAll iter debug p graphs, hone with
        | [], _ => simp
        | [r], _ => simp

end

/-! ## Both ways to build -/

/-- A pool whose size is that of the configuration, if there is one. -/
def pool (effectful : Bool) : ProviderSpec fun _ : Bool => ℕ where
  key := true
  providerId := "pool"
  capName := "Pool"
  provide := fun deps => .ok (((deps.lookup false).map (·.value)).getD 1)
  effectfulBuild := effectful
  shared := true

/-- Two builds of the pool alone, the second on top of a configuration. -/
def twice : List (GraphBuild fun _ : Bool => ℕ) :=
  [⟨[], [], ∅⟩, ⟨[], [], (∅ : Env fun _ : Bool => ℕ).insert false ⟨0, 7⟩⟩]

theorem memoized_pool :
    Memoized (buildAll asStored (fun _ => "") ⟨pool false, none, none⟩ twice) :=
  (memoized_iff asStored (fun _ => "") rfl twice).2 (.inl rfl)

/-- The effectful pool is made twice, with one connection and with seven. -/
theorem effectful_pool_not_memoized :
    ¬ ∀ (p : Provider fun _ : Bool => ℕ) (graphs : List (GraphBuild fun _ : Bool => ℕ)),
      p.spec.shared = true → Memoized (buildAll asStored (fun _ => "") p graphs) := by
  intro h
  exact absurd (h ⟨pool true, none, none⟩ twice rfl).1 (by decide)

end IdEffect.Capability
