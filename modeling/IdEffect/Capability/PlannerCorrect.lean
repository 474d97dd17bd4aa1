import IdEffect.Capability.Planner

set_option autoImplicit false

/-! # Plans are right

The hash maps are read as functions on the ids of the nodes (`HashMap.Tabulates`). The graph that is
built then has the dependencies for edges and counts them (`buildGraph_cases`), and the loop goes
step by step as Kahn's algorithm does on it (`drain_of_kahn`), so that what is known of the
algorithm is known of the planner (`planTopological_cases`). -/

namespace IdEffect.Capability

variable {Name V : Type} [DecidableEq Name]

/-! ## Hash maps, as functions -/

/-- The map is `f` on the keys `vs`. -/
def HashMap.Tabulates (vs : List Name) (m : HashMap Name V) (f : Name → V) : Prop :=
  ∀ w, m.lookup w = if w ∈ vs then some (f w) else none

theorem HashMap.lookup_insert (m : HashMap Name V) (key w : Name) (v : V) :
    (m.insert key v).lookup w = if w = key then some v else m.lookup w := by
  by_cases hw : w = key
  · subst hw
    rw [AList.lookup_insert, if_pos rfl]
  · rw [AList.lookup_insert_ne hw, if_neg hw]

theorem HashMap.Tabulates.insert {vs : List Name} {m : HashMap Name V} {f : Name → V}
    (h : m.Tabulates vs f) {key : Name} (hkey : key ∈ vs) (v : V) :
    HashMap.Tabulates vs (m.insert key v) (Function.update f key v) := by
  intro w
  rw [lookup_insert]
  by_cases hw : w = key
  · rw [if_pos hw, hw, if_pos hkey, Function.update_self]
  · rw [if_neg hw, Function.update_of_ne hw, h w]

/-- Changing the entry of a key that is there. -/
theorem HashMap.Tabulates.modify {vs : List Name} {m : HashMap Name V} {f : Name → V}
    (h : m.Tabulates vs f) {key : Name} (hkey : key ∈ vs) (change : Option V → V) :
    HashMap.Tabulates vs (m.modify key fun opt => some (change opt))
      (Function.update f key (change (some (f key)))) := by
  have hlookup : m.lookup key = some (f key) := by rw [h key, if_pos hkey]
  simp only [HashMap.modify, hlookup]
  exact h.insert hkey _

/-- Adding a key, with what all the others have. -/
theorem HashMap.Tabulates.touch {vs : List Name} {m : HashMap Name V} {v : V}
    (h : m.Tabulates vs fun _ => v) (key : Name) :
    HashMap.Tabulates (vs ++ [key]) (m.modify key fun opt => some (opt.getD v)) fun _ => v := by
  have hold : (m.lookup key).getD v = v := by
    rw [h key]
    split <;> rfl
  intro w
  simp only [HashMap.modify, hold, HashMap.lookup_insert, List.mem_append, List.mem_singleton, h w]
  by_cases hw : w = key
  · rw [if_pos hw, if_pos (Or.inr hw)]
  · simp only [hw, if_false, or_false]

theorem HashMap.Tabulates.lookup {vs : List Name} {m : HashMap Name V} {f : Name → V}
    (h : m.Tabulates vs f) {w : Name} (hw : w ∈ vs) : m.lookup w = some (f w) := by
  rw [h w, if_pos hw]

omit [DecidableEq Name] in
theorem Iteration.keysWhere_nodup (iter : Iteration Name) (p : ℕ → Bool) (m : HashMap Name ℕ) :
    (iter.keysWhere p m).Nodup := by
  have hkeys : ((iter.order m.entries).map (·.1)).Nodup :=
    ((iter.perm m.entries).map _).nodup_iff.2 m.keys_nodup
  exact Kahn.nodup_selected hkeys p

theorem Iteration.mem_keysWhere (iter : Iteration Name) (p : ℕ → Bool) {m : HashMap Name ℕ}
    {vs : List Name} {f : Name → ℕ} (h : m.Tabulates vs f) {w : Name} :
    w ∈ iter.keysWhere p m ↔ w ∈ vs ∧ p (f w) = true := by
  refine Kahn.mem_selected (fun w d => ?_) p
  have hlookup : (∃ e ∈ iter.order m.entries, e.1 = w ∧ e.2 = d) ↔ m.lookup w = some d := by
    rw [← Option.mem_def, AList.mem_lookup_iff, ← (iter.perm m.entries).mem_iff]
    constructor
    · rintro ⟨e, he, rfl, rfl⟩
      exact he
    · intro he
      exact ⟨_, he, rfl, rfl⟩
  rw [hlookup, h w]
  by_cases hw : w ∈ vs
  · simp [hw]
  · simp [hw]

/-! ## The checks -/

section checks

variable {nodes : List (PlannerNode Name)}

theorem checkIds_cases (ids : List Name) (nodes : List (PlannerNode Name)) :
    (checkIds ids nodes = .ok () ∧ (nodes.map (·.id)).Nodup ∧ ∀ node ∈ nodes, node.id ∉ ids) ∨
      ∃ id, checkIds ids nodes = .error (.duplicateProviderId id) ∧
        ¬ ((nodes.map (·.id)).Nodup ∧ ∀ node ∈ nodes, node.id ∉ ids) := by
  induction nodes generalizing ids with
  | nil => exact Or.inl ⟨rfl, List.nodup_nil, by simp⟩
  | cons node nodes ih =>
      rw [checkIds]
      by_cases hmem : node.id ∈ ids
      · rw [if_pos hmem]
        exact Or.inr ⟨node.id, rfl, fun h => h.2 node List.mem_cons_self hmem⟩
      · -- among the ids seen from here on is that of this node
        have hiff : ((nodes.map (·.id)).Nodup ∧ ∀ n ∈ nodes, n.id ∉ node.id :: ids) ↔
            (((node :: nodes).map (·.id)).Nodup ∧ ∀ n ∈ node :: nodes, n.id ∉ ids) := by
          simp only [List.map_cons, List.nodup_cons, List.mem_map, List.mem_cons, not_exists,
            not_and, not_or, forall_eq_or_imp, hmem, not_false_eq_true, true_and]
          constructor
          · exact fun h => ⟨⟨fun n hn => (h.2 n hn).1, h.1⟩, fun n hn => (h.2 n hn).2⟩
          · exact fun h => ⟨h.1.2, fun n hn => ⟨h.1.1 n hn, h.2 n hn⟩⟩
        rw [if_neg hmem, ← hiff]
        exact ih (node.id :: ids)

/-- Each capability of `nodes` is looked up as the id of a node that provides it. -/
def Provides (providerByCap : HashMap Name Name) (nodes : List (PlannerNode Name)) : Prop :=
  ∀ cap provider, providerByCap.lookup cap = some provider ↔
    ∃ node ∈ nodes, node.provides = cap ∧ node.id = provider

theorem Provides.snoc {providerByCap : HashMap Name Name} (h : Provides providerByCap nodes)
    {node : PlannerNode Name} (hnew : providerByCap.lookup node.provides = none) :
    Provides (providerByCap.insert node.provides node.id) (nodes ++ [node]) := by
  intro cap provider
  rw [HashMap.lookup_insert]
  by_cases hcap : cap = node.provides
  · subst hcap
    have hfresh : ∀ n ∈ nodes, n.provides ≠ node.provides := by
      intro n hn heq
      rw [(h node.provides n.id).2 ⟨n, hn, heq, rfl⟩] at hnew
      cases hnew
    rw [if_pos rfl]
    constructor
    · intro hid
      exact ⟨node, by simp, rfl, Option.some.inj hid⟩
    · rintro ⟨n, hn, heq, rfl⟩
      rcases List.mem_append.1 hn with hn | hn
      · exact absurd heq (hfresh n hn)
      · rw [List.mem_singleton.1 hn]
  · rw [if_neg hcap, h cap provider]
    constructor
    · rintro ⟨n, hn, hn'⟩
      exact ⟨n, List.mem_append_left _ hn, hn'⟩
    · rintro ⟨n, hn, heq, hid⟩
      rcases List.mem_append.1 hn with hn | hn
      · exact ⟨n, hn, heq, hid⟩
      · rw [List.mem_singleton.1 hn] at heq
        exact absurd heq.symm hcap

theorem collectProviders_cases {providerByCap : HashMap Name Name} {seen : List (PlannerNode Name)}
    (h : Provides providerByCap seen) (hseen : (seen.map (·.provides)).Nodup)
    (nodes : List (PlannerNode Name)) :
    (∃ providerByCap', collectProviders providerByCap nodes = .ok providerByCap' ∧
        Provides providerByCap' (seen ++ nodes) ∧ ((seen ++ nodes).map (·.provides)).Nodup) ∨
      ∃ cap first second,
        collectProviders providerByCap nodes = .error (.conflictingProvider cap first second) ∧
          ¬ ((seen ++ nodes).map (·.provides)).Nodup := by
  induction nodes generalizing providerByCap seen with
  | nil => exact Or.inl ⟨providerByCap, rfl, by rwa [List.append_nil], by rwa [List.append_nil]⟩
  | cons node nodes ih =>
      have hsplit : seen ++ node :: nodes = (seen ++ [node]) ++ nodes := by simp
      rw [collectProviders]
      cases hlookup : providerByCap.lookup node.provides with
      | some existing =>
          obtain ⟨n, hn, heq, -⟩ := (h node.provides existing).1 hlookup
          refine Or.inr ⟨node.provides, existing, node.id, rfl, fun hnodup => ?_⟩
          rw [List.map_append, List.map_cons, List.nodup_append'] at hnodup
          exact hnodup.2.2 (List.mem_map.2 ⟨n, hn, heq⟩) List.mem_cons_self
      | none =>
          have hnodup : ((seen ++ [node]).map (·.provides)).Nodup := by
            rw [List.map_append, List.nodup_append']
            refine ⟨hseen, by simp, fun cap hcap hnode => ?_⟩
            obtain ⟨n, hn, heq⟩ := List.mem_map.1 hcap
            rw [List.map_singleton, List.mem_singleton] at hnode
            rw [(h node.provides n.id).2 ⟨n, hn, heq.trans hnode, rfl⟩] at hlookup
            cases hlookup
          rw [hsplit]
          exact ih (h.snoc hlookup) hnodup

end checks

/-! ## The graph -/

namespace Graph

/-- The dependents of a node, as the loop looks them up. -/
def succ (g : Graph Name) (v : Name) : List Name := (g.edges.lookup v).getD []

/-- The maps have all the nodes as keys, and the indegrees count the edges. -/
structure Counted (vs : List Name) (g : Graph Name) : Prop where
  indegree : g.indegree.Tabulates vs (Kahn.left vs g.succ [])
  edges : g.edges.Tabulates vs g.succ

section build

variable {vs : List Name} {g : Graph Name} {providerByCap : HashMap Name Name}

/-- The loop that makes the nodes. -/
theorem initial_tabulates {seen : List Name} (nodes : List (PlannerNode Name))
    (hin : g.indegree.Tabulates seen fun _ => 0) (hed : g.edges.Tabulates seen fun _ => []) :
    (initial nodes g).indegree.Tabulates (seen ++ nodes.map (·.id)) (fun _ => 0) ∧
      (initial nodes g).edges.Tabulates (seen ++ nodes.map (·.id)) (fun _ => []) := by
  induction nodes generalizing seen g with
  | nil =>
      rw [List.map_nil, List.append_nil]
      exact ⟨hin, hed⟩
  | cons node nodes ih =>
      have hsplit : seen ++ (node :: nodes).map (·.id) =
          (seen ++ [node.id]) ++ nodes.map (·.id) := by simp
      rw [initial, hsplit]
      exact ih (hin.touch node.id) (hed.touch node.id)

theorem succ_initial (nodes : List (PlannerNode Name)) (v : Name) :
    (initial nodes ⟨∅, ∅⟩).succ v = [] := by
  have hempty : (∅ : HashMap Name ℕ).Tabulates [] fun _ => 0 := fun w => by simp
  obtain ⟨-, hed⟩ := initial_tabulates (g := ⟨∅, ∅⟩) nodes hempty fun w => by simp
  rw [succ, hed v]
  split <;> rfl

theorem initial_counted (nodes : List (PlannerNode Name)) :
    (initial nodes ⟨∅, ∅⟩).Counted (nodes.map (·.id)) := by
  have hempty : (∅ : HashMap Name ℕ).Tabulates [] fun _ => 0 := fun w => by simp
  obtain ⟨hin, hed⟩ := initial_tabulates (g := ⟨∅, ∅⟩) nodes hempty fun w => by simp
  have hsucc : (initial nodes ⟨∅, ∅⟩).succ = fun _ => [] := funext (succ_initial nodes)
  have hleft : Kahn.left (nodes.map (·.id)) (fun _ => []) [] = fun _ : Name => 0 := by
    funext w
    rw [Kahn.left_eq_zero]
    simp
  refine ⟨?_, ?_⟩
  · rw [hsucc, hleft]
    exact hin
  · rw [hsucc]
    exact hed

theorem succ_addEdge (g : Graph Name) (provider dependent : Name) :
    (g.addEdge provider dependent).succ =
      Function.update g.succ provider (g.succ provider ++ [dependent]) := by
  funext v
  simp only [succ, addEdge, HashMap.modify, HashMap.lookup_insert]
  by_cases hv : v = provider
  · rw [hv, if_pos rfl, Function.update_self, Option.getD_some]
  · rw [if_neg hv, Function.update_of_ne hv, succ]

theorem Counted.addEdge (h : g.Counted vs) (hvs : vs.Nodup) {provider dependent : Name}
    (hp : provider ∈ vs) (hd : dependent ∈ vs) : (g.addEdge provider dependent).Counted vs := by
  constructor
  · have hleft : Kahn.left vs (g.addEdge provider dependent).succ [] = Function.update
        (Kahn.left vs g.succ []) dependent (Kahn.left vs g.succ [] dependent + 1) := by
      funext w
      rw [succ_addEdge, Kahn.left_update hvs hp]
      by_cases hw : w = dependent
      · rw [if_pos hw, hw, Function.update_self]
      · rw [if_neg hw, Function.update_of_ne hw, Nat.add_zero]
    rw [hleft]
    exact h.indegree.modify hd fun opt => opt.getD 0 + 1
  · rw [succ_addEdge]
    exact h.edges.modify hp fun opt => opt.getD [] ++ [dependent]

/-- What the requirements of one node add. -/
theorem addRequirements_cases (h : g.Counted vs) (hvs : vs.Nodup) {id : Name} (hid : id ∈ vs)
    (hmap : ∀ cap provider, providerByCap.lookup cap = some provider → provider ∈ vs)
    (requires : List Name) :
    (∃ g', addRequirements providerByCap id requires g = .ok g' ∧ g'.Counted vs ∧
        (∀ cap ∈ requires, providerByCap.lookup cap ≠ none) ∧
          ∀ v w, w ∈ g'.succ v ↔ w ∈ g.succ v ∨
            w = id ∧ v ≠ id ∧ ∃ cap ∈ requires, providerByCap.lookup cap = some v) ∨
      ∃ cap ∈ requires, providerByCap.lookup cap = none ∧
        addRequirements providerByCap id requires g = .error (.missingProvider id cap) := by
  induction requires generalizing g with
  | nil => exact Or.inl ⟨g, rfl, h, by simp, by simp⟩
  | cons required rest ih =>
      rw [addRequirements]
      cases hlookup : providerByCap.lookup required with
      | none => exact Or.inr ⟨required, List.mem_cons_self, hlookup, rfl⟩
      | some provider =>
          dsimp only
          by_cases hself : provider = id
          · -- a requirement on itself adds nothing
            rw [if_pos hself]
            rcases ih h with ⟨g', hok, hg', hall, hsucc⟩ | ⟨cap, hcap, hnone, herr⟩
            · refine Or.inl ⟨g', hok, hg', ?_, fun v w => ?_⟩
              · exact List.forall_mem_cons.2 ⟨by simp [hlookup], hall⟩
              · rw [hsucc, List.exists_mem_cons_iff, hlookup, Option.some_inj, hself]
                grind
            · exact Or.inr ⟨cap, List.mem_cons_of_mem _ hcap, hnone, herr⟩
          · rw [if_neg hself]
            have hg := h.addEdge hvs (hmap required provider hlookup) hid
            rcases ih hg with ⟨g', hok, hg', hall, hsucc⟩ | ⟨cap, hcap, hnone, herr⟩
            · refine Or.inl ⟨g', hok, hg', ?_, fun v w => ?_⟩
              · exact List.forall_mem_cons.2 ⟨by simp [hlookup], hall⟩
              · rw [hsucc, List.exists_mem_cons_iff, hlookup, Option.some_inj, succ_addEdge]
                by_cases hv : v = provider
                · subst hv
                  rw [Function.update_self, List.mem_append, List.mem_singleton]
                  grind
                · rw [Function.update_of_ne hv]
                  grind
            · exact Or.inr ⟨cap, List.mem_cons_of_mem _ hcap, hnone, herr⟩

theorem addNodes_cases (h : g.Counted vs) (hvs : vs.Nodup)
    (hmap : ∀ cap provider, providerByCap.lookup cap = some provider → provider ∈ vs)
    {nodes : List (PlannerNode Name)} (hnodes : ∀ node ∈ nodes, node.id ∈ vs) :
    (∃ g', addNodes providerByCap nodes g = .ok g' ∧ g'.Counted vs ∧
        (∀ node ∈ nodes, ∀ cap ∈ node.requires, providerByCap.lookup cap ≠ none) ∧
          ∀ v w, w ∈ g'.succ v ↔ w ∈ g.succ v ∨ ∃ node ∈ nodes,
            w = node.id ∧ v ≠ node.id ∧ ∃ cap ∈ node.requires, providerByCap.lookup cap = some v) ∨
      ∃ node ∈ nodes, ∃ cap ∈ node.requires, providerByCap.lookup cap = none ∧
        addNodes providerByCap nodes g = .error (.missingProvider node.id cap) := by
  induction nodes generalizing g with
  | nil => exact Or.inl ⟨g, rfl, h, by simp, by simp⟩
  | cons node nodes ih =>
      rw [List.forall_mem_cons] at hnodes
      rw [addNodes]
      rcases addRequirements_cases h hvs hnodes.1 hmap node.requires with
        ⟨g', hok, hg', hall, hsucc⟩ | ⟨cap, hcap, hnone, herr⟩
      · rw [hok]
        rcases ih hg' hnodes.2 with ⟨g'', hok', hg'', hall', hsucc'⟩ | ⟨n, hn, cap, hcap, hrest⟩
        · refine Or.inl ⟨g'', hok', hg'', ?_, fun v w => ?_⟩
          · exact List.forall_mem_cons.2 ⟨hall, hall'⟩
          · rw [hsucc', hsucc, List.exists_mem_cons_iff, or_assoc]
        · exact Or.inr ⟨n, List.mem_cons_of_mem _ hn, cap, hcap, hrest⟩
      · rw [herr]
        exact Or.inr ⟨node, List.mem_cons_self, cap, hcap, hnone, rfl⟩

end build

end Graph

/-! ## The checks and the graph together -/

/-- All that is asked of the nodes apart from cycles. -/
structure Checked (nodes : List (PlannerNode Name)) : Prop where
  ids : (nodes.map (·.id)).Nodup
  provides : (nodes.map (·.provides)).Nodup
  provided : ∀ node ∈ nodes, ∀ cap ∈ node.requires, ∃ provider ∈ nodes, provider.provides = cap

omit [DecidableEq Name] in
theorem plannable_iff {nodes : List (PlannerNode Name)} : Plannable nodes ↔
    Checked nodes ∧ ∀ id, ¬ Relation.TransGen (Depends nodes) id id :=
  ⟨fun h => ⟨⟨h.ids, h.provides, h.provided⟩, h.acyclic⟩,
    fun h => ⟨h.1.ids, h.1.provides, h.1.provided, h.2⟩⟩

/-- The edges that the requirements add are the dependencies. -/
theorem edge_eq_depends {nodes : List (PlannerNode Name)} {providerByCap : HashMap Name Name}
    (hmap : Provides providerByCap nodes) {g : Graph Name}
    (hsucc : ∀ v w, w ∈ g.succ v ↔ ∃ node ∈ nodes, w = node.id ∧ v ≠ node.id ∧
      ∃ cap ∈ node.requires, providerByCap.lookup cap = some v) :
    Kahn.Edge (nodes.map (·.id)) g.succ = Depends nodes := by
  funext v w
  rw [Kahn.Edge, hsucc, Depends]
  apply propext
  constructor
  · rintro ⟨-, b, hb, rfl, hne, cap, hcap, hlookup⟩
    obtain ⟨a, ha, rfl, rfl⟩ := (hmap cap v).1 hlookup
    exact ⟨a, ha, b, hb, rfl, rfl, hne, hcap⟩
  · rintro ⟨a, ha, b, hb, rfl, rfl, hne, hcap⟩
    exact ⟨List.mem_map_of_mem ha, b, hb, rfl, hne, a.provides, hcap,
      (hmap _ _).2 ⟨a, ha, rfl, rfl⟩⟩

/-- The graph is built exactly if the checks are passed, and its edges are the dependencies. -/
theorem buildGraph_cases (nodes : List (PlannerNode Name)) :
    (∃ g, buildGraph nodes = .ok g ∧ Checked nodes ∧ g.Counted (nodes.map (·.id)) ∧
        Kahn.Edge (nodes.map (·.id)) g.succ = Depends nodes) ∨
      ∃ e, buildGraph nodes = .error e ∧ ¬ Checked nodes ∧ ∀ ids, e ≠ .cycleDetected ids := by
  rw [buildGraph]
  rcases checkIds_cases [] nodes with ⟨hids, hnodup, -⟩ | ⟨id, hids, hnot⟩
  · have hempty : Provides (∅ : HashMap Name Name) [] := by
      intro cap provider
      simp
    rw [hids]
    rcases collectProviders_cases hempty List.nodup_nil nodes with
      ⟨providerByCap, hcaps, hmap, hprovides⟩ | ⟨cap, first, second, hcaps, hnot⟩
    · rw [List.nil_append] at hmap hprovides
      have hin : ∀ cap provider, providerByCap.lookup cap = some provider →
          provider ∈ nodes.map (·.id) := by
        intro cap provider hlookup
        obtain ⟨n, hn, -, hid⟩ := (hmap cap provider).1 hlookup
        exact List.mem_map.2 ⟨n, hn, hid⟩
      dsimp only
      rw [hcaps]
      rcases Graph.addNodes_cases (Graph.initial_counted nodes) hnodup hin
          (fun node hn => List.mem_map_of_mem hn) with
        ⟨g, hok, hg, hall, hsucc⟩ | ⟨node, hnode, cap, hcap, hnone, herr⟩
      · refine Or.inl ⟨g, hok, ⟨hnodup, hprovides, ?_⟩, hg, ?_⟩
        · intro node hnode cap hcap
          obtain ⟨provider, hlookup⟩ := Option.ne_none_iff_exists'.1 (hall node hnode cap hcap)
          obtain ⟨n, hn, heq, -⟩ := (hmap cap provider).1 hlookup
          exact ⟨n, hn, heq⟩
        · refine edge_eq_depends hmap fun v w => ?_
          rw [hsucc, Graph.succ_initial, or_iff_right List.not_mem_nil]
      · refine Or.inr ⟨_, herr, fun hchecked => ?_, nofun⟩
        obtain ⟨n, hn, heq⟩ := hchecked.provided node hnode cap hcap
        rw [(hmap cap n.id).2 ⟨n, hn, heq, rfl⟩] at hnone
        cases hnone
    · dsimp only
      rw [hcaps]
      exact Or.inr ⟨_, rfl, fun hchecked => hnot hchecked.provides, nofun⟩
  · rw [hids]
    exact Or.inr ⟨_, rfl, fun hchecked => hnot ⟨hchecked.ids, by simp⟩, nofun⟩

/-! ## The loop -/

section loop

variable {vs : List Name} {indegree : HashMap Name ℕ} {deg deg' : Name → ℕ}

/-- The inner loop releases edges as the algorithm does. -/
theorem release_of_kahn (h : indegree.Tabulates vs deg) {queue queue' ws : List Name}
    (hws : ∀ w ∈ ws, w ∈ vs) (hrel : Kahn.release deg queue ws = some (deg', queue')) :
    ∃ indegree', release indegree queue ws = some (indegree', queue') ∧
      indegree'.Tabulates vs deg' := by
  refine Kahn.release_refines (fun _ _ => by rw [release]) ?_ h hws hrel
  intro m deg queue w ws hm hw hpos
  obtain ⟨d, hd⟩ := Nat.exists_eq_succ_of_ne_zero hpos
  have hlookup := hm.lookup hw
  rw [hd] at hlookup
  rw [hd, Nat.succ_sub_one]
  refine ⟨m.insert w d, hm.insert hw d, ?_⟩
  rw [release, hlookup]
  simp only [HashMap.lookup_insert, if_true, Option.some_inj]

/-- The loop drains the graph as the algorithm does. -/
theorem drain_of_kahn {g : Graph Name} (hclosed : ∀ v, ∀ w ∈ g.succ v, w ∈ vs) {rounds : ℕ}
    (h : indegree.Tabulates vs deg) {queue order order' : List Name}
    (hdrain : Kahn.drain g.succ rounds deg queue order = some (deg', order')) :
    ∃ indegree', drain g.edges rounds indegree queue order = some (indegree', order') ∧
      indegree'.Tabulates vs deg' := by
  have hsucc : ∀ v, (g.edges.lookup v).getD [] = g.succ v := fun _ => rfl
  exact Kahn.drain_refines (fun _ _ _ => by rw [drain]) (fun _ _ v _ _ => by rw [drain, hsucc v])
    (fun _ _ _ _ _ v hm hrel => release_of_kahn hm (hclosed v) hrel) h hdrain

end loop

/-! ## Plans -/

omit [DecidableEq Name] in
theorem Depends.mem_ids {nodes : List (PlannerNode Name)} {v w : Name} (h : Depends nodes v w) :
    w ∈ nodes.map (·.id) := by
  obtain ⟨-, -, b, hb, -, rfl, -⟩ := h
  exact List.mem_map_of_mem hb

omit [DecidableEq Name] in
theorem mem_ids_of_cycle {nodes : List (PlannerNode Name)} {id : Name}
    (h : Relation.TransGen (Depends nodes) id id) : id ∈ nodes.map (·.id) := by
  obtain ⟨_, -, hlast⟩ := Relation.TransGen.tail'_iff.1 h
  exact hlast.mem_ids

/-- What comes out once the graph is built: the drained nodes, or those that still wait. -/
theorem planTopological_of_buildGraph (iter : Iteration Name) {nodes : List (PlannerNode Name)}
    {g : Graph Name} (hbuild : buildGraph nodes = .ok g) (hids : (nodes.map (·.id)).Nodup)
    (hg : g.Counted (nodes.map (·.id)))
    (hedge : Kahn.Edge (nodes.map (·.id)) g.succ = Depends nodes) :
    ∃ deg order indegree, Kahn.Inv (nodes.map (·.id)) g.succ deg [] order ∧
      indegree.Tabulates (nodes.map (·.id)) deg ∧
        planTopological iter nodes = some (if order.length ≠ nodes.length then
          .error (.cycleDetected (iter.keysWhere (0 < ·) indegree)) else .ok ⟨order⟩) := by
  have hclosed : ∀ v, ∀ w ∈ g.succ v, w ∈ nodes.map (·.id) := by
    intro v w hw
    have hv : v ∈ nodes.map (·.id) := by
      by_contra hnot
      have hnone := hg.edges v
      rw [if_neg hnot] at hnone
      rw [Graph.succ, hnone] at hw
      cases hw
    have hdep : Depends nodes v w := by
      rw [← hedge]
      exact ⟨hv, hw⟩
    exact hdep.mem_ids
  have hinit : Kahn.Inv (nodes.map (·.id)) g.succ (Kahn.left (nodes.map (·.id)) g.succ [])
      (iter.keysWhere (· == 0) g.indegree) [] := by
    refine Kahn.Inv.init (iter.keysWhere_nodup _ _) fun w => ?_
    rw [iter.mem_keysWhere _ hg.indegree, beq_iff_eq]
  have hrounds : (nodes.map (·.id)).length ≤ ([] : List Name).length + nodes.length := by simp
  obtain ⟨deg, order, hdrain, hinv⟩ :=
    Kahn.drain_spec hinit hids (fun v _ => hclosed v) hrounds
  obtain ⟨indegree, hdrain', htab⟩ := drain_of_kahn hclosed hg.indegree hdrain
  refine ⟨deg, order, indegree, hinv, htab, ?_⟩
  rw [planTopological, hbuild]
  simp only [hdrain', Option.map_some]

/-- Every provider stands before the other nodes that require its capability. -/
def ProvidersFirst (nodes : List (PlannerNode Name)) (order : List Name) : Prop :=
  ∀ a ∈ nodes, ∀ b ∈ nodes, a.provides ∈ b.requires → a.id ≠ b.id →
    order.idxOf a.id < order.idxOf b.id

theorem planTopological_cases (iter : Iteration Name) (nodes : List (PlannerNode Name)) :
    (∃ plan, planTopological iter nodes = some (.ok plan) ∧ Plannable nodes ∧
        plan.buildOrder.Perm (nodes.map (·.id)) ∧ ProvidersFirst nodes plan.buildOrder) ∨
      ∃ e, planTopological iter nodes = some (.error e) ∧ ¬ Plannable nodes ∧
        ∀ reported, e = .cycleDetected reported →
          ∀ id, Relation.TransGen (Depends nodes) id id → id ∈ reported := by
  rcases buildGraph_cases nodes with ⟨g, hbuild, hchecked, hg, hedge⟩ | ⟨e, hbuild, hnot, he⟩
  · obtain ⟨deg, order, indegree, hinv, htab, hplan⟩ :=
      planTopological_of_buildGraph iter hbuild hchecked.ids hg hedge
    have hsub : order.Subperm (nodes.map (·.id)) := hinv.order_nodup.subperm hinv.order_subset
    have hall : order.length = nodes.length → order.Perm (nodes.map (·.id)) := fun hlen =>
      hsub.perm_of_length_le (by rw [hlen, List.length_map])
    have hcycle : ∀ id, Relation.TransGen (Depends nodes) id id → id ∉ order := by
      intro id hid
      rw [← hedge] at hid
      exact hinv.not_mem_of_cycle hid
    by_cases hlen : order.length = nodes.length
    · -- everything was drained, so that no node is on a cycle
      rw [if_neg (not_not.2 hlen)] at hplan
      refine Or.inl ⟨_, hplan, plannable_iff.2 ⟨hchecked, fun id hid => hcycle id hid ?_⟩,
        hall hlen, fun a ha b hb hreq hne => (hinv.idxOf_lt ?_ ?_).2⟩
      · exact (hall hlen).mem_iff.2 (mem_ids_of_cycle hid)
      · exact (hall hlen).mem_iff.2 (List.mem_map_of_mem hb)
      · rw [hedge]
        exact ⟨a, ha, b, hb, rfl, rfl, hne, hreq⟩
    · rw [if_pos hlen] at hplan
      refine Or.inr ⟨_, hplan, fun hplannable => hlen ?_, ?_⟩
      · -- without a cycle everything would have been drained
        have hacyclic := hplannable.acyclic
        rw [← hedge] at hacyclic
        have hsup : nodes.map (·.id) ⊆ order := fun w hw => hinv.mem_of_acyclic hacyclic hw
        have hle := (hchecked.ids.subperm hsup).length_le
        have hge := hsub.length_le
        rw [List.length_map] at hle hge
        omega
      · -- a node on a cycle is not drained, and still has an edge left
        rintro reported ⟨⟩ id hid
        have hmem := mem_ids_of_cycle hid
        have hpos : deg id ≠ 0 := fun hzero => hcycle id hid ((hinv.mem_order hmem).2 hzero)
        rw [iter.mem_keysWhere _ htab, decide_eq_true_iff]
        exact ⟨hmem, Nat.pos_of_ne_zero hpos⟩
  · refine Or.inr ⟨e, by rw [planTopological, hbuild], ?_, ?_⟩
    · exact fun hplannable => hnot (plannable_iff.1 hplannable).1
    · intro reported herr
      exact absurd herr (he reported)

/-- **Planning is sound and complete.** A plan is found exactly if ids and provided capabilities are
    distinct, every requirement is provided and no node depends on itself through others. The plan
    then has every node once, providers before their dependents; and a cycle that is reported has
    every node of every cycle. -/
theorem planTopological_correct (iter : Iteration Name) (nodes : List (PlannerNode Name)) :
    ∃ result, planTopological iter nodes = some result ∧
      ((∃ plan, result = .ok plan) ↔ Plannable nodes) ∧
      (∀ plan, result = .ok plan → plan.buildOrder.Perm (nodes.map (·.id)) ∧
        ProvidersFirst nodes plan.buildOrder) ∧
      ∀ reported, result = .error (.cycleDetected reported) →
        ∀ id, Relation.TransGen (Depends nodes) id id → id ∈ reported := by
  rcases planTopological_cases iter nodes with
    ⟨plan, hplan, hplannable, hperm, hfirst⟩ | ⟨e, hplan, hnot, hcycle⟩
  · refine ⟨.ok plan, hplan, ⟨fun _ => hplannable, fun _ => ⟨plan, rfl⟩⟩, ?_, nofun⟩
    rintro plan ⟨⟩
    exact ⟨hperm, hfirst⟩
  · refine ⟨.error e, hplan, ⟨nofun, fun hplannable => absurd hplannable hnot⟩, nofun, ?_⟩
    intro reported herr
    exact hcycle reported (Except.error.inj herr)

end IdEffect.Capability
