import IdEffect.Graph.Dag
import IdEffect.Lib.Kahn

set_option autoImplicit false

/-! # `sort_explicit` is Kahn's algorithm

The ordered maps are read as functions on the nodes (`Tabulates`), and the edges as the lists of
dependents they make up (`succOf`). -/

namespace IdEffect.DependencyGraph

open Assoc (Map)

variable {Name V : Type} [LinearOrder Name]

/-- The dependents of a node, in the order of the edges. -/
def succOf (edges : List (Name × Name)) (v : Name) : List Name :=
  (edges.filter fun e => e.1 = v).map Prod.snd

/-- The map is `f` on the keys `vs`. -/
def Tabulates (vs : List Name) (m : Map Name V) (f : Name → V) : Prop :=
  ∀ w, m.get w = if w ∈ vs then some (f w) else none

theorem mem_succOf {edges : List (Name × Name)} {v w : Name} :
    w ∈ succOf edges v ↔ (v, w) ∈ edges := by
  simp [succOf]

theorem succOf_append (edges : List (Name × Name)) (source target : Name) :
    succOf (edges ++ [(source, target)])
      = Function.update (succOf edges) source (succOf edges source ++ [target]) := by
  funext v
  rw [Function.update_apply]
  by_cases hv : v = source
  · simp [succOf, hv]
  · simp [succOf, hv, Ne.symm hv]

theorem get_insert (m : Map Name V) (key w : Name) (v : V) :
    (m.insert key v).get w = if w = key then some v else m.get w :=
  Assoc.get_insert w key v m.entries

/-! ## Maps and sets -/

section Tabulates

variable {vs : List Name} {m : Map Name V} {f : Name → V}

theorem Tabulates.get (h : Tabulates vs m f) {w : Name} (hw : w ∈ vs) : m.get w = some (f w) := by
  rw [h w, if_pos hw]

theorem Tabulates.insert (h : Tabulates vs m f) {key : Name} (hkey : key ∈ vs) (v : V) :
    Tabulates vs (m.insert key v) (Function.update f key v) := by
  intro w
  rw [get_insert]
  by_cases hw : w = key
  · rw [if_pos hw, hw, if_pos hkey, Function.update_self]
  · rw [if_neg hw, Function.update_of_ne hw, h w]

theorem BTreeSet.contains_iff (nodes : BTreeSet Name) (w : Name) :
    nodes.contains w = true ↔ w ∈ nodes.toList :=
  Assoc.isSome_get

theorem BTreeSet.nodup_toList (nodes : BTreeSet Name) : nodes.toList.Nodup := by
  have hlt : nodes.toList.Pairwise (· < ·) := List.pairwise_map.mpr nodes.ascending
  exact hlt.imp fun h => h.ne

theorem tabulates_withValue (nodes : BTreeSet Name) (v : V) :
    Tabulates nodes.toList (nodes.withValue v) fun _ => v := by
  intro w
  have hget : ∀ entries : List (Name × Unit), Assoc.get w (entries.map fun p => (p.1, v))
      = if w ∈ entries.map Prod.fst then some v else none := by
    intro entries
    induction entries with
    | nil => simp
    | cons p entries ih =>
        simp only [List.map_cons, Assoc.get, ih, List.mem_cons]
        by_cases hw : w = p.1
        · simp [hw]
        · simp [hw]
  exact hget nodes.entries

theorem nodup_keysWhere (p : ℕ → Bool) (m : Map Name ℕ) : (keysWhere p m).Nodup := by
  have hlt : (m.entries.map Prod.fst).Pairwise (· < ·) := List.pairwise_map.mpr m.ascending
  exact Kahn.nodup_selected (hlt.imp fun h => h.ne) p

theorem mem_keysWhere (p : ℕ → Bool) {m : Map Name ℕ} {f : Name → ℕ} (h : Tabulates vs m f)
    {w : Name} : w ∈ keysWhere p m ↔ w ∈ vs ∧ p (f w) = true := by
  refine Kahn.mem_selected (fun w d => ?_) p
  have hget : (∃ e ∈ m.entries, e.1 = w ∧ e.2 = d) ↔ m.get w = some d := by
    constructor
    · rintro ⟨e, he, rfl, rfl⟩
      exact m.ascending.get_of_mem he
    · intro hw
      exact ⟨(w, d), Assoc.mem_of_get hw, rfl, rfl⟩
  rw [hget, h w]
  by_cases hw : w ∈ vs
  · simp [hw]
  · simp [hw]

end Tabulates

/-! ## The edges -/

section Edges

variable {vs : List Name} {indegree : Map Name ℕ} {adjacency : Map Name (List Name)}

/-- The loop over the edges counts them and lists them. -/
theorem addEdges_spec (hvs : vs.Nodup) {before edges : List (Name × Name)}
    (hedges : ∀ e ∈ edges, e.1 ∈ vs ∧ e.2 ∈ vs)
    (hin : Tabulates vs indegree (Kahn.left vs (succOf before) []))
    (hadj : Tabulates vs adjacency (succOf before)) :
    ∃ indegree' adjacency', addEdges edges indegree adjacency = some (indegree', adjacency')
      ∧ Tabulates vs indegree' (Kahn.left vs (succOf (before ++ edges)) [])
      ∧ Tabulates vs adjacency' (succOf (before ++ edges)) := by
  induction edges generalizing before indegree adjacency with
  | nil =>
      rw [List.append_nil]
      exact ⟨indegree, adjacency, rfl, hin, hadj⟩
  | cons e edges ih =>
      obtain ⟨source, target⟩ := e
      rw [List.forall_mem_cons] at hedges
      obtain ⟨⟨hsource, htarget⟩, hrest⟩ := hedges
      have hsplit : before ++ (source, target) :: edges
          = (before ++ [(source, target)]) ++ edges := by simp
      have hleft : Kahn.left vs (succOf (before ++ [(source, target)])) []
          = Function.update (Kahn.left vs (succOf before) []) target
              (Kahn.left vs (succOf before) [] target + 1) := by
        funext w
        rw [succOf_append, Kahn.left_update hvs hsource]
        by_cases hw : w = target
        · rw [if_pos hw, hw, Function.update_self]
        · rw [if_neg hw, Function.update_of_ne hw, Nat.add_zero]
      have hin' := hin.insert htarget (Kahn.left vs (succOf before) [] target + 1)
      have hadj' := hadj.insert hsource (succOf before source ++ [target])
      rw [← hleft] at hin'
      rw [← succOf_append] at hadj'
      obtain ⟨indegree', adjacency', hadd, htabs⟩ := ih hrest hin' hadj'
      refine ⟨indegree', adjacency', ?_, hsplit ▸ htabs⟩
      rw [addEdges, hadj.get hsource, hin.get htarget]
      exact hadd

end Edges

/-! ## The loop -/

section Loop

variable {vs : List Name} {indegree : Map Name ℕ} {deg deg' : Name → ℕ}

theorem release_of_kahn (h : Tabulates vs indegree deg) {queue queue' ws : List Name}
    (hws : ∀ w ∈ ws, w ∈ vs) (hrel : Kahn.release deg queue ws = some (deg', queue')) :
    ∃ indegree', release indegree queue ws = some (indegree', queue')
      ∧ Tabulates vs indegree' deg' := by
  refine Kahn.release_refines (fun _ _ => by rw [release]) ?_ h hws hrel
  intro m deg queue w ws hm hw hpos
  obtain ⟨d, hd⟩ := Nat.exists_eq_succ_of_ne_zero hpos
  have hget := hm.get hw
  rw [hd] at hget
  rw [hd, Nat.succ_sub_one]
  exact ⟨m.insert w d, hm.insert hw d, by rw [release, hget]⟩

theorem drain_of_kahn {adjacency : Map Name (List Name)} {succ : Name → List Name}
    (hadj : ∀ v, (adjacency.get v).getD [] = succ v) (hclosed : ∀ v, ∀ w ∈ succ v, w ∈ vs)
    {rounds : ℕ} (h : Tabulates vs indegree deg) {queue order order' : List Name}
    (hdrain : Kahn.drain succ rounds deg queue order = some (deg', order')) :
    ∃ indegree', drain adjacency rounds indegree queue order = some (indegree', order')
      ∧ Tabulates vs indegree' deg' :=
  Kahn.drain_refines (fun _ _ _ => by rw [drain]) (fun _ _ v _ _ => by rw [drain, hadj v])
    (fun _ _ _ _ _ v hm hrel => release_of_kahn hm (hclosed v) hrel) h hdrain

end Loop

/-- The sorter never panics and ends with everything that can be drained. -/
theorem sortExplicit_spec (nodes : BTreeSet Name) {edges : List (Name × Name)}
    (hedges : ∀ e ∈ edges, e.1 ∈ nodes.toList ∧ e.2 ∈ nodes.toList) :
    ∃ deg order indegree, Kahn.Inv nodes.toList (succOf edges) deg [] order
      ∧ Tabulates nodes.toList indegree deg
      ∧ sortExplicit nodes edges = some (if order.length ≠ nodes.toList.length then
          .error (.cycleDetected (keysWhere (0 < ·) indegree)) else .ok order) := by
  have hvs := nodes.nodup_toList
  have hleft : Kahn.left nodes.toList (succOf ([] : List (Name × Name))) [] = fun _ => 0 := by
    funext w
    rw [Kahn.left_eq_zero]
    simp [succOf]
  have hnone : succOf ([] : List (Name × Name)) = fun _ => [] := rfl
  have hin := tabulates_withValue nodes 0
  have hadj := tabulates_withValue nodes ([] : List Name)
  rw [← hleft] at hin
  rw [← hnone] at hadj
  obtain ⟨indegree₀, adjacency, hadd, hin, hadj⟩ := addEdges_spec hvs hedges hin hadj
  rw [List.nil_append] at hin hadj
  have hclosed : ∀ v, ∀ w ∈ succOf edges v, w ∈ nodes.toList := fun v w hw =>
    (hedges (v, w) (mem_succOf.mp hw)).2
  have hsucc : ∀ v, (adjacency.get v).getD [] = succOf edges v := by
    intro v
    rw [hadj v]
    split
    · rfl
    · next hv =>
      -- no edge leaves what is not a node
      refine (List.eq_nil_iff_forall_not_mem.mpr fun w hw => hv ?_).symm
      exact (hedges (v, w) (mem_succOf.mp hw)).1
  have hinit : Kahn.Inv nodes.toList (succOf edges) (Kahn.left nodes.toList (succOf edges) [])
      (keysWhere (· == 0) indegree₀) [] := by
    refine Kahn.Inv.init (nodup_keysWhere _ _) fun w => ?_
    rw [mem_keysWhere _ hin, beq_iff_eq]
  have hrounds : nodes.toList.length ≤ ([] : List Name).length + nodes.toList.length := by simp
  obtain ⟨deg, order, hdrain, hinv⟩ :=
    Kahn.drain_spec hinit hvs (fun v _ => hclosed v) hrounds
  obtain ⟨indegree, hdrain', htab⟩ := drain_of_kahn hsucc hclosed hin hdrain
  refine ⟨deg, order, indegree, hinv, htab, ?_⟩
  rw [sortExplicit, hadd, Option.bind_some]
  simp only [hdrain', Option.map_some]

end IdEffect.DependencyGraph
