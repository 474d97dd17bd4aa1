import Mathlib.Algebra.Ring.Nat
import Mathlib.Data.Fintype.Card
import Mathlib.Data.Fintype.EquivFin
import Mathlib.Data.Fintype.Sets
import Mathlib.Logic.Relation

set_option autoImplicit false

/-! # Kahn's algorithm

Vertices are drained in the order in which their last incoming edge goes away. `succ v` lists the
heads of the edges from `v`, with repetitions if an edge is there several times, and `deg w` counts
the edges into `w` from vertices not drained yet. The loop gets `fuel` for a number of rounds and is
`none` if that was not enough, or if it would count an edge that is not there; neither happens
(`drain_spec`).

What is drained is sorted (`Inv.idxOf_lt`), contains no vertex of a cycle (`Inv.not_mem_of_cycle`),
and is everything if there is no cycle (`Inv.mem_of_acyclic`). -/

namespace Kahn

variable {N : Type} [DecidableEq N]

/-! ## The algorithm -/

/-- One edge into each vertex of a list goes away; those without any edge left join the queue. -/
def release (deg : N → ℕ) (queue : List N) : List N → Option ((N → ℕ) × List N)
  | [] => some (deg, queue)
  | w :: ws =>
      if deg w = 0 then none
      else
        release (Function.update deg w (deg w - 1))
          (if deg w - 1 = 0 then queue ++ [w] else queue) ws

def drain (succ : N → List N) : ℕ → (N → ℕ) → List N → List N → Option ((N → ℕ) × List N)
  | _, deg, [], order => some (deg, order)
  | 0, _, _ :: _, _ => none
  | fuel + 1, deg, v :: queue, order =>
      (release deg queue (succ v)).bind fun r => drain succ fuel r.1 r.2 (order ++ [v])

/-! ## Edges that are left -/

/-- The number of edges into `w` from vertices that are not in `order`. -/
def left (vs : List N) (succ : N → List N) (order : List N) (w : N) : ℕ :=
  (vs.map fun v => if v ∈ order then 0 else (succ v).count w).sum

/-- There is an edge from `v` to `w`. -/
def Edge (vs : List N) (succ : N → List N) (v w : N) : Prop := v ∈ vs ∧ w ∈ succ v

variable {vs : List N} {succ : N → List N} {deg deg' : N → ℕ} {queue order : List N} {v w : N}

theorem left_cons (u : N) (vs : List N) : left (u :: vs) succ order w =
    (if u ∈ order then 0 else (succ u).count w) + left vs succ order w := by
  rw [left, List.map_cons, List.sum_cons, left]

theorem left_eq_zero : left vs succ order w = 0 ↔ ∀ v ∈ vs, v ∉ order → w ∉ succ v := by
  induction vs with
  | nil => simp [left]
  | cons u vs ih =>
      rw [left_cons, Nat.add_eq_zero_iff, ih, List.forall_mem_cons]
      by_cases hu : u ∈ order
      · simp [hu]
      · simp [hu, List.count_eq_zero]

theorem left_snoc_of_notMem (hv : v ∉ vs) :
    left vs succ (order ++ [v]) w = left vs succ order w := by
  induction vs with
  | nil => rfl
  | cons u vs ih =>
      rw [List.mem_cons, not_or] at hv
      have hu : u ∈ order ++ [v] ↔ u ∈ order := by
        simp [Ne.symm hv.1]
      rw [left_cons, left_cons, ih hv.2]
      simp only [hu]

/-- Draining `v` takes the edges from `v` away. -/
theorem left_snoc (hvs : vs.Nodup) (hv : v ∈ vs) (hnot : v ∉ order) (w : N) :
    left vs succ order w = left vs succ (order ++ [v]) w + (succ v).count w := by
  induction vs with
  | nil => cases hv
  | cons u vs ih =>
      rw [List.nodup_cons] at hvs
      rw [left_cons, left_cons]
      rcases List.mem_cons.1 hv with rfl | hv
      · rw [left_snoc_of_notMem hvs.1]
        simp [hnot]
        omega
      · have hne : u ≠ v := fun heq => hvs.1 (heq ▸ hv)
        have hu : u ∈ order ++ [v] ↔ u ∈ order := by
          simp [hne]
        rw [ih hvs.2 hv]
        simp only [hu]
        omega

/-- One more edge, from `v` to `u`. -/
theorem left_update (hvs : vs.Nodup) (hv : v ∈ vs) (u w : N) :
    left vs (Function.update succ v (succ v ++ [u])) [] w =
      left vs succ [] w + if w = u then 1 else 0 := by
  induction vs with
  | nil => cases hv
  | cons x vs ih =>
      rw [List.nodup_cons] at hvs
      rw [left_cons, left_cons]
      rcases List.mem_cons.1 hv with rfl | hv
      · -- the other vertices keep their edges
        have hrest : left vs (Function.update succ v (succ v ++ [u])) [] w = left vs succ [] w := by
          refine congrArg List.sum (List.map_congr_left fun y hy => ?_)
          have hne : y ≠ v := fun heq => hvs.1 (heq ▸ hy)
          rw [Function.update_of_ne hne]
        rw [hrest, Function.update_self, List.count_append, List.count_singleton]
        simp only [List.not_mem_nil, if_false, beq_iff_eq, eq_comm (a := u)]
        omega
      · have hne : x ≠ v := fun heq => hvs.1 (heq ▸ hv)
        rw [ih hvs.2 hv, Function.update_of_ne hne]
        omega

/-! ## One round -/

/-- The degrees lose what the list has, and those that come down to zero join the queue once. -/
theorem release_eq (queue : List N) {ws : List N} (h : ∀ w, deg w = deg' w + ws.count w) :
    ∃ new, release deg queue ws = some (deg', queue ++ new) ∧ new.Nodup ∧
      ∀ w, w ∈ new ↔ w ∈ ws ∧ deg' w = 0 := by
  induction ws generalizing deg queue with
  | nil =>
      have hdeg : deg = deg' := by
        funext w
        simpa using h w
      exact ⟨[], by rw [release, hdeg, List.append_nil], List.nodup_nil, by simp⟩
  | cons u ws ih =>
      have hu : deg u = deg' u + ws.count u + 1 := by
        rw [h u, List.count_cons_self]
        omega
      have hupdate : ∀ w, Function.update deg u (deg u - 1) w = deg' w + ws.count w := by
        intro w
        by_cases hw : w = u
        · rw [hw, Function.update_self, hu]
          omega
        · rw [Function.update_of_ne hw, h w, List.count_cons_of_ne (Ne.symm hw)]
      have hstep : release deg queue (u :: ws) = release (Function.update deg u (deg u - 1))
          (if deg u - 1 = 0 then queue ++ [u] else queue) ws := by
        rw [release, if_neg (by omega)]
      by_cases hlast : deg u - 1 = 0
      · -- the last edge into `u`: it joins the queue here
        have hzero : deg' u = 0 ∧ ws.count u = 0 := by omega
        obtain ⟨new, hrel, hnodup, hnew⟩ := ih (queue ++ [u]) hupdate
        refine ⟨u :: new, ?_, ?_, ?_⟩
        · rw [hstep, if_pos hlast, hrel, List.append_assoc, List.singleton_append]
        · refine List.nodup_cons.2 ⟨fun hmem => ?_, hnodup⟩
          exact List.count_eq_zero.1 hzero.2 ((hnew u).1 hmem).1
        · intro w
          rw [List.mem_cons, List.mem_cons, hnew]
          constructor
          · rintro (rfl | ⟨hw, hdeg⟩)
            · exact ⟨Or.inl rfl, hzero.1⟩
            · exact ⟨Or.inr hw, hdeg⟩
          · rintro ⟨rfl | hw, hdeg⟩
            · exact Or.inl rfl
            · exact Or.inr ⟨hw, hdeg⟩
      · obtain ⟨new, hrel, hnodup, hnew⟩ := ih queue hupdate
        refine ⟨new, ?_, hnodup, ?_⟩
        · rw [hstep, if_neg hlast, hrel]
        · intro w
          rw [hnew, List.mem_cons]
          constructor
          · rintro ⟨hw, hdeg⟩
            exact ⟨Or.inr hw, hdeg⟩
          · rintro ⟨rfl | hw, hdeg⟩
            · have hmem : w ∈ ws := List.count_pos_iff.1 (by omega)
              exact ⟨hmem, hdeg⟩
            · exact ⟨hw, hdeg⟩

/-! ## The invariant -/

/-- In the list `order`, every vertex comes after those it has an edge from. -/
def Sorted (vs : List N) (succ : N → List N) (order : List N) : Prop :=
  ∀ before w after, order = before ++ w :: after → ∀ v, Edge vs succ v w → v ∈ before

structure Inv (vs : List N) (succ : N → List N) (deg : N → ℕ) (queue order : List N) : Prop where
  nodup : (order ++ queue).Nodup
  subset : ∀ v ∈ order ++ queue, v ∈ vs
  deg_eq : ∀ w, deg w = left vs succ order w
  zero : ∀ w ∈ vs, deg w = 0 ↔ w ∈ order ++ queue
  sorted : Sorted vs succ order

omit [DecidableEq N] in
theorem Sorted.snoc (h : Sorted vs succ order) (hv : ∀ u, Edge vs succ u v → u ∈ order) :
    Sorted vs succ (order ++ [v]) := by
  intro before w after heq u hu
  rcases List.eq_nil_or_concat after with rfl | ⟨rest, last, rfl⟩
  · obtain ⟨rfl, hw⟩ := List.append_inj' heq rfl
    cases hw
    exact hv u hu
  · rw [List.concat_eq_append, ← List.cons_append, ← List.append_assoc] at heq
    obtain ⟨horder, -⟩ := List.append_inj' heq rfl
    exact h before w rest horder u hu

/-- A vertex is drained and its edges released. -/
theorem Inv.round (h : Inv vs succ deg (v :: queue) order) (hvs : vs.Nodup)
    (hclosed : ∀ v ∈ vs, ∀ w ∈ succ v, w ∈ vs) :
    ∃ deg' new, release deg queue (succ v) = some (deg', queue ++ new) ∧
      Inv vs succ deg' (queue ++ new) (order ++ [v]) := by
  have hsplit : order ++ v :: queue = (order ++ [v]) ++ queue := by simp
  have hv : v ∈ vs := h.subset v (by simp)
  have hnot : v ∉ order := by
    have hnodup := h.nodup
    rw [List.nodup_append'] at hnodup
    exact fun hmem => hnodup.2.2 hmem List.mem_cons_self
  have hdeg : ∀ w, deg w = left vs succ (order ++ [v]) w + (succ v).count w := by
    intro w
    rw [h.deg_eq w, left_snoc hvs hv hnot w]
  obtain ⟨new, hrel, hnodup, hnew⟩ := release_eq queue hdeg
  -- what joins the queue had an edge left, so that it was not there before
  have hfresh : ∀ w ∈ new, w ∉ order ++ v :: queue := by
    intro w hw hmem
    obtain ⟨hsucc, -⟩ := (hnew w).1 hw
    have hzero := (h.zero w (hclosed v hv w hsucc)).2 hmem
    have hpos : 0 < (succ v).count w := List.count_pos_iff.2 hsucc
    rw [hdeg w] at hzero
    omega
  refine ⟨left vs succ (order ++ [v]), new, hrel, ?_, ?_, fun _ => rfl, ?_, ?_⟩
  · rw [← List.append_assoc, ← hsplit, List.nodup_append']
    exact ⟨h.nodup, hnodup, fun w hmem hw => hfresh w hw hmem⟩
  · intro w hw
    rw [← List.append_assoc, ← hsplit, List.mem_append] at hw
    rcases hw with hw | hw
    · exact h.subset w hw
    · exact hclosed v hv w ((hnew w).1 hw).1
  · intro w hw
    rw [← List.append_assoc, ← hsplit, List.mem_append, hnew]
    constructor
    · intro hzero
      by_cases hsucc : w ∈ succ v
      · exact Or.inr ⟨hsucc, hzero⟩
      · refine Or.inl ((h.zero w hw).1 ?_)
        rw [hdeg w, hzero, List.count_eq_zero.2 hsucc]
    · rintro (hmem | ⟨-, hzero⟩)
      · have hzero := (h.zero w hw).2 hmem
        rw [hdeg w] at hzero
        omega
      · exact hzero
  · refine h.sorted.snoc fun u hu => ?_
    have hzero := (h.zero v hv).2 (by simp)
    rw [h.deg_eq v, left_eq_zero] at hzero
    by_contra hmem
    exact hzero u hu.1 hmem hu.2

/-- **The loop.** With a round for every vertex it comes to an end with an empty queue. -/
theorem drain_spec {fuel : ℕ} (h : Inv vs succ deg queue order) (hvs : vs.Nodup)
    (hclosed : ∀ v ∈ vs, ∀ w ∈ succ v, w ∈ vs) (hfuel : vs.length ≤ order.length + fuel) :
    ∃ deg' order', drain succ fuel deg queue order = some (deg', order') ∧
      Inv vs succ deg' [] order' := by
  induction fuel generalizing deg queue order with
  | zero =>
      cases queue with
      | nil => exact ⟨deg, order, by rw [drain], h⟩
      | cons v queue =>
          have hle := (h.nodup.subperm h.subset).length_le
          rw [List.length_append, List.length_cons] at hle
          omega
  | succ fuel ih =>
      cases queue with
      | nil => exact ⟨deg, order, by rw [drain], h⟩
      | cons v queue =>
          obtain ⟨deg', new, hrel, hinv⟩ := h.round hvs hclosed
          have hlen : vs.length ≤ (order ++ [v]).length + fuel := by
            rw [List.length_append, List.length_singleton]
            omega
          obtain ⟨deg'', order', hdrain, hlast⟩ := ih hinv hlen
          exact ⟨deg'', order', by rw [drain, hrel, Option.bind_some, hdrain], hlast⟩

/-- The queue of the vertices without an edge into them, to begin with. -/
theorem Inv.init (hq : queue.Nodup)
    (hmem : ∀ w, w ∈ queue ↔ w ∈ vs ∧ left vs succ [] w = 0) :
    Inv vs succ (left vs succ []) queue [] where
  nodup := hq
  subset := fun v hv => ((hmem v).1 hv).1
  deg_eq := fun _ => rfl
  zero := by
    intro w hw
    rw [List.nil_append, hmem]
    exact ⟨fun hzero => ⟨hw, hzero⟩, fun h => h.2⟩
  sorted := by
    intro before w after heq
    simp at heq

/-! ## What is drained -/

section result

variable (h : Inv vs succ deg [] order)
include h

theorem Inv.mem_order (hw : w ∈ vs) : w ∈ order ↔ deg w = 0 := by
  rw [h.zero w hw, List.append_nil]

theorem Inv.order_nodup : order.Nodup := by
  have hnodup := h.nodup
  rwa [List.append_nil] at hnodup

theorem Inv.order_subset : order ⊆ vs := by
  intro v hv
  exact h.subset v (by rwa [List.append_nil])

/-- Edges go forward. -/
theorem Inv.idxOf_lt (hw : w ∈ order) (hvw : Edge vs succ v w) :
    v ∈ order ∧ order.idxOf v < order.idxOf w := by
  obtain ⟨before, after, horder⟩ := List.append_of_mem hw
  have hv := h.sorted before w after horder v hvw
  have hnot : w ∉ before := by
    have hnodup := h.order_nodup
    rw [horder, List.nodup_append'] at hnodup
    exact fun hmem => hnodup.2.2 hmem List.mem_cons_self
  refine ⟨by rw [horder]; exact List.mem_append_left _ hv, ?_⟩
  rw [horder, List.idxOf_append_of_mem hv, List.idxOf_append_of_notMem hnot]
  exact Nat.lt_add_right _ (List.idxOf_lt_length_of_mem hv)

theorem Inv.idxOf_lt_of_path (hw : w ∈ order) (hvw : Relation.TransGen (Edge vs succ) v w) :
    v ∈ order ∧ order.idxOf v < order.idxOf w := by
  induction hvw with
  | single hedge => exact h.idxOf_lt hw hedge
  | tail _ hedge ih =>
      obtain ⟨hmem, hlt⟩ := h.idxOf_lt hw hedge
      obtain ⟨hv, hlt'⟩ := ih hmem
      exact ⟨hv, hlt'.trans hlt⟩

/-- No vertex of a cycle is drained. -/
theorem Inv.not_mem_of_cycle (hcycle : Relation.TransGen (Edge vs succ) w w) : w ∉ order :=
  fun hw => absurd (h.idxOf_lt_of_path hw hcycle).2 (Nat.lt_irrefl _)

/-- If there is no cycle, everything is drained. -/
theorem Inv.mem_of_acyclic (hacyclic : ∀ v, ¬ Relation.TransGen (Edge vs succ) v v)
    (hw : w ∈ vs) : w ∈ order := by
  have hwf : WellFounded fun a b : { v // v ∈ vs } => Relation.TransGen (Edge vs succ) a b := by
    have : Finite { v // v ∈ vs } := Finite.of_fintype _
    have : IsTrans { v // v ∈ vs } fun a b => Relation.TransGen (Edge vs succ) a b :=
      ⟨fun _ _ _ hab hbc => hab.trans hbc⟩
    have : Std.Irrefl fun a b : { v // v ∈ vs } => Relation.TransGen (Edge vs succ) a b :=
      ⟨fun a => hacyclic a⟩
    exact Finite.wellFounded_of_trans_of_irrefl _
  refine hwf.induction (C := fun a => a.1 ∈ order) ⟨w, hw⟩ fun a ih => ?_
  rw [h.mem_order a.2, h.deg_eq, left_eq_zero]
  intro v hv hnot hsucc
  exact hnot (ih ⟨v, hv⟩ (.single ⟨hv, hsucc⟩))

/-- What is drained does not depend on the order of the queue: it is what only finitely many edges
    lead to. -/
theorem Inv.mem_order_iff (hw : w ∈ vs) : w ∈ order ↔ Acc (Edge vs succ) w := by
  constructor
  · intro hmem
    induction hn : order.idxOf w using Nat.strong_induction_on generalizing w with
    | _ n ih =>
      refine ⟨w, fun v hvw => ?_⟩
      obtain ⟨hv, hlt⟩ := h.idxOf_lt hmem hvw
      exact ih (order.idxOf v) (hn ▸ hlt) hvw.1 hv rfl
  · intro hacc
    induction hacc with
    | intro w _ ih =>
      rw [h.mem_order hw, h.deg_eq, left_eq_zero]
      intro v hv hnot hsucc
      exact hnot (ih v ⟨hv, hsucc⟩ hv)

end result

/-! ## Counters in a store -/

section Selected

variable {E : Type} {key : E → N} {val : E → ℕ} {entries : List E}

omit [DecidableEq N] in
/-- The keys of the entries with a counter that meets `p`. -/
theorem mem_selected
    (hentries : ∀ w d, (∃ e ∈ entries, key e = w ∧ val e = d) ↔ w ∈ vs ∧ deg w = d)
    (p : ℕ → Bool) :
    w ∈ entries.filterMap (fun e => if p (val e) then some (key e) else none)
      ↔ w ∈ vs ∧ p (deg w) = true := by
  simp only [List.mem_filterMap, Option.ite_none_right_eq_some, Option.some.injEq]
  constructor
  · rintro ⟨e, he, hp, rfl⟩
    obtain ⟨hw, hd⟩ := (hentries (key e) (val e)).1 ⟨e, he, rfl, rfl⟩
    exact ⟨hw, hd ▸ hp⟩
  · rintro ⟨hw, hp⟩
    obtain ⟨e, he, rfl, hd⟩ := (hentries w (deg w)).2 ⟨hw, rfl⟩
    exact ⟨e, he, hd ▸ hp, rfl⟩

omit [DecidableEq N] in
theorem nodup_selected (hkeys : (entries.map key).Nodup) (p : ℕ → Bool) :
    (entries.filterMap fun e => if p (val e) then some (key e) else none).Nodup := by
  have hfilter : (entries.filterMap fun e => if p (val e) then some (key e) else none)
      = (entries.filter (p <| val ·)).map key := by
    induction entries with
    | nil => rfl
    | cons e entries ih =>
        by_cases he : p (val e) = true
        · simp [he, ih (List.nodup_cons.1 hkeys).2]
        · simp [he, ih (List.nodup_cons.1 hkeys).2]
  rw [hfilter]
  exact hkeys.sublist (List.filter_sublist.map _)

end Selected

section Refines

variable {M : Type} {Stands : M → (N → ℕ) → Prop}
  {releaseIn : M → List N → List N → Option (M × List N)}
  {drainIn : ℕ → M → List N → List N → Option (M × List N)}

/-- A program whose counters stand for those of the algorithm releases as the algorithm does, if it
    takes a positive counter down as the algorithm does. -/
theorem release_refines
    (hnil : ∀ m queue, releaseIn m queue [] = some (m, queue))
    (hcons : ∀ m deg queue w ws, Stands m deg → w ∈ vs → deg w ≠ 0 →
      ∃ m', Stands m' (Function.update deg w (deg w - 1)) ∧ releaseIn m queue (w :: ws)
        = releaseIn m' (if deg w - 1 = 0 then queue ++ [w] else queue) ws)
    {m : M} (hm : Stands m deg) {queue queue' ws : List N} (hws : ∀ w ∈ ws, w ∈ vs)
    (hrel : release deg queue ws = some (deg', queue')) :
    ∃ m', releaseIn m queue ws = some (m', queue') ∧ Stands m' deg' := by
  induction ws generalizing m deg queue with
  | nil =>
      rw [release, Option.some.injEq, Prod.mk.injEq] at hrel
      obtain ⟨rfl, rfl⟩ := hrel
      exact ⟨m, hnil m queue, hm⟩
  | cons w ws ih =>
      rw [List.forall_mem_cons] at hws
      rw [release] at hrel
      split at hrel
      · cases hrel
      · next hpos =>
          obtain ⟨m', hm', hstep⟩ := hcons m deg queue w ws hm hws.1 hpos
          rw [hstep]
          exact ih hm' hws.2 hrel

/-- It drains as the algorithm does, if it releases as the algorithm does. -/
theorem drain_refines
    (hnil : ∀ rounds m order, drainIn rounds m [] order = some (m, order))
    (hcons : ∀ rounds m v queue order, drainIn (rounds + 1) m (v :: queue) order
      = (releaseIn m queue (succ v)).bind fun r => drainIn rounds r.1 r.2 (order ++ [v]))
    (hrelease : ∀ m deg deg' queue queue' v, Stands m deg →
      release deg queue (succ v) = some (deg', queue') →
        ∃ m', releaseIn m queue (succ v) = some (m', queue') ∧ Stands m' deg')
    {rounds : ℕ} {m : M} (hm : Stands m deg) {queue order order' : List N}
    (hdrain : drain succ rounds deg queue order = some (deg', order')) :
    ∃ m', drainIn rounds m queue order = some (m', order') ∧ Stands m' deg' := by
  induction rounds generalizing m deg queue order with
  | zero =>
      cases queue with
      | nil =>
          rw [drain, Option.some.injEq, Prod.mk.injEq] at hdrain
          obtain ⟨rfl, rfl⟩ := hdrain
          exact ⟨m, hnil 0 m order, hm⟩
      | cons v queue =>
          rw [drain] at hdrain
          cases hdrain
  | succ rounds ih =>
      cases queue with
      | nil =>
          rw [drain, Option.some.injEq, Prod.mk.injEq] at hdrain
          obtain ⟨rfl, rfl⟩ := hdrain
          exact ⟨m, hnil _ m order, hm⟩
      | cons v queue =>
          rw [drain] at hdrain
          obtain ⟨⟨deg₁, queue₁⟩, hrel, hrest⟩ := Option.bind_eq_some_iff.1 hdrain
          obtain ⟨m₁, hrel₁, hm₁⟩ := hrelease m deg deg₁ queue queue₁ v hm hrel
          obtain ⟨m', hrest', hm'⟩ := ih hm₁ hrest
          refine ⟨m', ?_, hm'⟩
          rw [hcons, hrel₁, Option.bind_some]
          exact hrest'

end Refines

end Kahn
