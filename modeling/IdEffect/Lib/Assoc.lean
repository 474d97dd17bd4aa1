import Mathlib.Data.List.Basic
import Mathlib.Order.Lattice

set_option autoImplicit false

/-! # Ordered maps as ascending association lists

An ordered map is the list of its entries in ascending key order. The operations work on plain
lists, so that a map may be nested inside an inductive type; `Ascending` is the invariant of these
lists, and `Map` bundles a list with it. -/

namespace Assoc

variable {K V W : Type} [LinearOrder K]

/-! ## Operations on entries -/

/-- The keys are strictly ascending. -/
def Ascending (l : List (K × V)) : Prop :=
  l.Pairwise (fun p q => p.1 < q.1)

def get (k : K) : List (K × V) → Option V
  | [] => none
  | (k', v) :: l => if k = k' then some v else get k l

/-- Set the value of `k`, at its place in the order. -/
def insert (k : K) (v : V) : List (K × V) → List (K × V)
  | [] => [(k, v)]
  | (k', v') :: l =>
      if k < k' then (k, v) :: (k', v') :: l
      else if k = k' then (k, v) :: l
      else (k', v') :: insert k v l

def erase (k : K) (l : List (K × V)) : List (K × V) :=
  l.filter (fun p => p.1 ≠ k)

@[simp] theorem get_nil (k : K) : get k ([] : List (K × V)) = none := rfl

/-- Inserting changes one lookup; the list need not be ascending for this. -/
theorem get_insert (k k' : K) (v : V) (l : List (K × V)) :
    get k (insert k' v l) = if k = k' then some v else get k l := by
  induction l with
  | nil => rfl
  | cons p l ih =>
      obtain ⟨c, w⟩ := p
      by_cases hlt : k' < c
      · rw [insert, if_pos hlt, get]
      · by_cases heq : k' = c
        · subst heq
          rw [insert, if_neg hlt, if_pos rfl, get, get]
          split <;> rfl
        · rw [insert, if_neg hlt, if_neg heq, get, get, ih]
          by_cases hc : k = c
          · have hk : k ≠ k' := fun hk => heq (hk.symm.trans hc)
            rw [if_pos hc, if_neg hk, if_pos hc]
          · rw [if_neg hc, if_neg hc]

theorem mem_insert {k : K} {v : V} {l : List (K × V)} {p : K × V} (h : p ∈ insert k v l) :
    p = (k, v) ∨ p ∈ l := by
  induction l with
  | nil => exact .inl (List.mem_singleton.mp h)
  | cons q l ih =>
      obtain ⟨c, w⟩ := q
      rw [insert] at h
      split_ifs at h with hlt heq
      · exact List.mem_cons.mp h
      · exact (List.mem_cons.mp h).imp_right (List.mem_cons_of_mem _)
      · rcases List.mem_cons.mp h with rfl | h
        · exact .inr (List.mem_cons_self ..)
        · exact (ih h).imp_right (List.mem_cons_of_mem _)

/-- The value set last is the one that counts. -/
theorem insert_insert (k : K) (v w : V) (l : List (K × V)) :
    insert k w (insert k v l) = insert k w l := by
  induction l with
  | nil => simp [insert]
  | cons p l ih =>
      obtain ⟨c, u⟩ := p
      rw [insert, insert]
      split_ifs with hlt heq
      · rw [insert, if_neg (lt_irrefl k), if_pos rfl]
      · rw [insert, if_neg (lt_irrefl k), if_pos rfl]
      · rw [insert, if_neg hlt, if_neg heq, ih]

theorem get_erase (k k' : K) (l : List (K × V)) :
    get k (erase k' l) = if k = k' then none else get k l := by
  induction l with
  | nil => simp [erase]
  | cons p l ih =>
      obtain ⟨c, w⟩ := p
      rw [erase] at ih ⊢
      by_cases hc : c = k'
      · rw [List.filter_cons_of_neg (by simp [hc]), ih, get]
        by_cases hk : k = k'
        · rw [if_pos hk, if_pos hk]
        · have hkc : k ≠ c := fun h => hk (h.trans hc)
          rw [if_neg hk, if_neg hk, if_neg hkc]
      · rw [List.filter_cons_of_pos (by simp [hc]), get, get, ih]
        by_cases hk : k = c
        · have hk' : k ≠ k' := fun h => hc (hk.symm.trans h)
          rw [if_pos hk, if_neg hk', if_pos hk]
        · rw [if_neg hk, if_neg hk]

theorem mem_of_get {k : K} {v : V} {l : List (K × V)} (h : get k l = some v) : (k, v) ∈ l := by
  induction l with
  | nil => exact absurd h (by simp)
  | cons q l ih =>
      obtain ⟨c, w⟩ := q
      rw [get] at h
      split_ifs at h with hc
      · rw [hc, Option.some.inj h]
        exact List.mem_cons_self ..
      · exact List.mem_cons_of_mem _ (ih h)

theorem isSome_get {k : K} {l : List (K × V)} : (get k l).isSome ↔ k ∈ l.map Prod.fst := by
  induction l with
  | nil => exact ⟨fun h => absurd h (by simp), fun h => absurd h (by simp)⟩
  | cons p l ih =>
      rw [get, List.map_cons, List.mem_cons]
      split_ifs with hk
      · exact ⟨fun _ => .inl hk, fun _ => rfl⟩
      · rw [ih]
        exact ⟨.inr, fun h => h.resolve_left hk⟩

namespace Ascending

variable {l l' : List (K × V)}

theorem nil : Ascending ([] : List (K × V)) := List.Pairwise.nil

theorem tail {p : K × V} (h : Ascending (p :: l)) : Ascending l := (List.pairwise_cons.mp h).2

theorem lt_of_mem {p q : K × V} (h : Ascending (p :: l)) (hq : q ∈ l) : p.1 < q.1 :=
  (List.pairwise_cons.mp h).1 q hq

theorem insert (h : Ascending l) (k : K) (v : V) : Ascending (Assoc.insert k v l) := by
  induction l with
  | nil => exact List.pairwise_singleton ..
  | cons p l ih =>
      obtain ⟨c, w⟩ := p
      rw [Assoc.insert]
      split_ifs with hlt heq
      · refine List.pairwise_cons.mpr ⟨fun q hq => ?_, h⟩
        rcases List.mem_cons.mp hq with rfl | hq
        · exact hlt
        · exact hlt.trans (h.lt_of_mem hq)
      · subst heq
        exact List.pairwise_cons.mpr ⟨fun q hq => h.lt_of_mem hq, h.tail⟩
      · refine List.pairwise_cons.mpr ⟨fun q hq => ?_, ih h.tail⟩
        rcases mem_insert hq with hk | hq
        · rw [hk]
          exact lt_of_le_of_ne (not_lt.mp hlt) (Ne.symm heq)
        · exact h.lt_of_mem hq

/-- An entry's key is looked up to the entry's value. -/
theorem get_of_mem (h : Ascending l) {k : K} {v : V} (hm : (k, v) ∈ l) : get k l = some v := by
  induction l with
  | nil => exact absurd hm (by simp)
  | cons p l ih =>
      obtain ⟨c, w⟩ := p
      rcases List.mem_cons.mp hm with heq | hm
      · obtain ⟨rfl, rfl⟩ := Prod.mk.inj heq
        rw [get, if_pos rfl]
      · rw [get, if_neg (h.lt_of_mem hm).ne', ih h.tail hm]

/-- Setting a value that is there already changes nothing. -/
theorem insert_self (h : Ascending l) {k : K} {v : V} (hv : get k l = some v) :
    Assoc.insert k v l = l := by
  induction l with
  | nil => cases hv
  | cons p l ih =>
      obtain ⟨c, u⟩ := p
      rw [get] at hv
      split_ifs at hv with hk
      · rw [Assoc.insert, if_neg hk.not_lt, if_pos hk, hk, Option.some.inj hv]
      -- the key stands further on, behind a smaller one
      · have hlt : c < k := h.lt_of_mem (mem_of_get hv)
        rw [Assoc.insert, if_neg hlt.asymm, if_neg hk, ih h.tail hv]

theorem erase (h : Ascending l) (k : K) : Ascending (Assoc.erase k l) :=
  List.Pairwise.filter _ h

end Ascending

/-! ## Building a map from a list of pairs -/

/-- The map into which the pairs were inserted in their order. -/
def ofList (l : List (K × V)) : List (K × V) :=
  l.foldl (fun m p => insert p.1 p.2 m) []

/-- Inserting a key above all others appends it. -/
theorem insert_of_forall_lt {k : K} {v : V} {l : List (K × V)} (h : ∀ p ∈ l, p.1 < k) :
    insert k v l = l ++ [(k, v)] := by
  induction l with
  | nil => rfl
  | cons p l ih =>
      obtain ⟨c, w⟩ := p
      have hc : c < k := h (c, w) (List.mem_cons_self ..)
      have hl : ∀ q ∈ l, q.1 < k := fun q hq => h q (List.mem_cons_of_mem _ hq)
      rw [insert, if_neg hc.asymm, if_neg hc.ne', ih hl, List.cons_append]

theorem ascending_ofList (l : List (K × V)) : Ascending (ofList l) := by
  suffices h : ∀ m : List (K × V), Ascending m →
      Ascending (l.foldl (fun m p => insert p.1 p.2 m) m) from h [] .nil
  induction l with
  | nil => exact fun m hm => hm
  | cons p l ih => exact fun m hm => ih _ (hm.insert p.1 p.2)

/-- Pairs with other keys do not matter. -/
theorem get_foldl_insert_of_notMem {k : K} {l : List (K × V)} (h : k ∉ l.map Prod.fst)
    (m : List (K × V)) : get k (l.foldl (fun m p => insert p.1 p.2 m) m) = get k m := by
  induction l generalizing m with
  | nil => rfl
  | cons p l ih =>
      rw [List.map_cons, List.mem_cons, not_or] at h
      rw [List.foldl_cons, ih h.2, get_insert, if_neg h.1]

/-- Pairs with distinct keys are all found in the map collected from them. -/
theorem get_ofList {k : K} {v : V} {l : List (K × V)} (hl : (l.map Prod.fst).Nodup)
    (hm : (k, v) ∈ l) : get k (ofList l) = some v := by
  suffices h : ∀ m : List (K × V), get k (l.foldl (fun m p => insert p.1 p.2 m) m) = some v from
    h []
  induction l with
  | nil => exact absurd hm (by simp)
  | cons p l ih =>
      intro m
      rw [List.map_cons, List.nodup_cons] at hl
      rw [List.foldl_cons]
      rcases List.mem_cons.mp hm with rfl | hm
      · rw [get_foldl_insert_of_notMem hl.1, get_insert, if_pos rfl]
      · exact ih hl.2 hm _

/-- An ascending list is the map collected from it. -/
theorem Ascending.ofList_eq {l : List (K × V)} (h : Ascending l) : ofList l = l := by
  suffices hfold : ∀ m : List (K × V), (∀ p ∈ m, ∀ q ∈ l, p.1 < q.1) →
      l.foldl (fun m p => Assoc.insert p.1 p.2 m) m = m ++ l from hfold [] (by simp)
  induction l with
  | nil => exact fun m _ => (List.append_nil m).symm
  | cons p l ih =>
      intro m hm
      have hp : ∀ q ∈ m, q.1 < p.1 := fun q hq => hm q hq p (List.mem_cons_self ..)
      have hl : ∀ q ∈ m ++ [p], ∀ r ∈ l, q.1 < r.1 := by
        intro q hq r hr
        rcases List.mem_append.mp hq with hq | hq
        · exact hm q hq r (List.mem_cons_of_mem _ hr)
        · rw [List.mem_singleton.mp hq]
          exact h.lt_of_mem hr
      rw [List.foldl_cons, insert_of_forall_lt hp, ih h.tail _ hl, List.append_assoc,
        List.singleton_append]

/-- Mapping the values keeps the order of the keys. -/
theorem Ascending.map {l : List (K × V)} (h : Ascending l) (f : V → W) :
    Ascending (l.map fun p => (p.1, f p.2)) :=
  List.pairwise_map.mpr h

theorem map_insert (k : K) (v : V) (l : List (K × V)) (f : V → W) :
    (insert k v l).map (fun p => (p.1, f p.2)) = insert k (f v) (l.map fun p => (p.1, f p.2)) := by
  induction l with
  | nil => rfl
  | cons p l ih =>
      obtain ⟨c, w⟩ := p
      rw [List.map_cons, insert, insert]
      split_ifs with hlt heq
      · rfl
      · rfl
      · rw [List.map_cons, ih]

/-- The values may be mapped before or after the map is collected. -/
theorem map_ofList (l : List (K × V)) (f : V → W) :
    (ofList l).map (fun p => (p.1, f p.2)) = ofList (l.map fun p => (p.1, f p.2)) := by
  suffices h : ∀ m : List (K × V),
      (l.foldl (fun m p => insert p.1 p.2 m) m).map (fun p => (p.1, f p.2))
        = (l.map fun p => (p.1, f p.2)).foldl (fun m p => insert p.1 p.2 m)
            (m.map fun p => (p.1, f p.2)) from h []
  induction l with
  | nil => exact fun m => rfl
  | cons p l ih =>
      intro m
      rw [List.foldl_cons, ih, map_insert, List.map_cons, List.foldl_cons]

/-! ## Maps that carry their order -/

/-- An ordered map: its entries, ascending. -/
structure Map (K V : Type) [LinearOrder K] where
  entries : List (K × V)
  ascending : Ascending entries

namespace Map

@[ext] theorem ext {m m' : Map K V} (h : m.entries = m'.entries) : m = m' := by
  obtain ⟨l, hl⟩ := m
  obtain ⟨l', hl'⟩ := m'
  obtain rfl : l = l' := h
  rfl

def empty : Map K V := ⟨[], .nil⟩

def insert (m : Map K V) (k : K) (v : V) : Map K V :=
  ⟨Assoc.insert k v m.entries, m.ascending.insert k v⟩

def remove (m : Map K V) (k : K) : Map K V :=
  ⟨Assoc.erase k m.entries, m.ascending.erase k⟩

def get (m : Map K V) (k : K) : Option V := Assoc.get k m.entries

/-- The map collected from a list of pairs. -/
def ofList (l : List (K × V)) : Map K V := ⟨Assoc.ofList l, ascending_ofList l⟩

end Map

end Assoc
