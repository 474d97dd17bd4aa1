import IdEffect.Lib.Assoc
import IdEffect.Lib.Refine
import IdEffect.Compute.Dispatch

set_option autoImplicit false

/-! # The ordered multimap

A `RedBlackTree` keeps, in an ordered map, a list of values for every key: insertions append to it
and removals take from its front. A key whose list runs empty is dropped, so no key is ever stored
with an empty list; the queries that look at rows and those that look at values agree because of
this. `redBlackTree_refines` compares all of them with one function from keys to queues. -/

namespace IdEffect.Collections

open Compute

variable {K V : Type} [LinearOrder K]

/-! ## The tree and its operations -/

structure RedBlackTree (K V : Type) [LinearOrder K] where
  inner : Assoc.Map K (List V)

/-- The values of the rows, each under its key. -/
def expand (rows : List (K × List V)) : List (K × V) :=
  rows.flatMap fun row => row.2.map fun v => (row.1, v)

namespace RedBlackTree

def empty : RedBlackTree K V := ⟨.empty⟩

/-- Append `value` under `key`. -/
def insert (t : RedBlackTree K V) (key : K) (value : V) : RedBlackTree K V :=
  match t.inner.get key with
  | some vs => ⟨t.inner.insert key (vs ++ [value])⟩
  | none => ⟨t.inner.insert key [value]⟩

/-- Take the oldest value of `key`; the key goes with its last value. -/
def removeFirst (t : RedBlackTree K V) (key : K) : Option V × RedBlackTree K V :=
  match t.inner.get key with
  | none => (none, t)
  | some [] => (none, t)
  | some (v :: vs) =>
      let kept := t.inner.insert key vs
      (some v, if vs.isEmpty then ⟨kept.remove key⟩ else ⟨kept⟩)

def find (t : RedBlackTree K V) (key : K) : List V :=
  (t.inner.get key).getD []

def has (t : RedBlackTree K V) (key : K) : Bool :=
  (t.inner.get key).isSome

/-- The first value of a row. -/
def firstOf (row : K × List V) : Option (K × V) :=
  row.2.head?.map fun v => (row.1, v)

def first (t : RedBlackTree K V) : Option (K × V) :=
  t.inner.entries.head?.bind firstOf

def last (t : RedBlackTree K V) : Option (K × V) :=
  t.inner.entries.getLast?.bind firstOf

/-- The rows whose key satisfies `p`, expanded row by row. The parallel version clones the rows
    first. -/
def selectSerial (p : K → Bool) (t : RedBlackTree K V) : List (K × V) :=
  expand (t.inner.entries.filter fun row => p row.1)

def selectParallel (p : K → Bool) (t : RedBlackTree K V) : List (K × V) :=
  let rows := (t.inner.entries.filter fun row => p row.1).map fun row => (row.1, row.2)
  expand rows

def greaterThan (profitable : ℕ → Bool) (t : RedBlackTree K V) (bound : K) : List (K × V) :=
  let above := fun k => decide (bound < k)
  let serial := t.selectSerial above
  parallelIfProfitable profitable serial.length serial (t.selectParallel above)

def lessThan (profitable : ℕ → Bool) (t : RedBlackTree K V) (bound : K) : List (K × V) :=
  let below := fun k => decide (k < bound)
  let serial := t.selectSerial below
  parallelIfProfitable profitable serial.length serial (t.selectParallel below)

/-- The inner loop of `get_at`, over the values of one row: the pair, or the count reached. -/
def getAtRow (n : ℕ) (k : K) : ℕ → List V → ℕ ⊕ (K × V)
  | i, [] => .inl i
  | i, v :: vs => if i = n then .inr (k, v) else getAtRow n k (i + 1) vs

/-- The outer loop, over the rows. -/
def getAtFrom (n : ℕ) : ℕ → List (K × List V) → Option (K × V)
  | _, [] => none
  | i, (k, vs) :: rows =>
      match getAtRow n k i vs with
      | .inr pair => some pair
      | .inl i => getAtFrom n i rows

def getAt (t : RedBlackTree K V) (n : ℕ) : Option (K × V) :=
  getAtFrom n 0 t.inner.entries

def sizeSerial (t : RedBlackTree K V) : ℕ :=
  (t.inner.entries.map fun row => row.2.length).sum

def sizeParallel (arrival : Arrival) (t : RedBlackTree K V) : ℕ :=
  arrival.sum (t.inner.entries.map fun row => row.2.length)

def size (profitable : ℕ → Bool) (arrival : Arrival) (t : RedBlackTree K V) : ℕ :=
  parallelIfProfitable profitable t.sizeSerial t.sizeSerial (t.sizeParallel arrival)

def entriesSerial (t : RedBlackTree K V) : List (K × V) :=
  expand t.inner.entries

def entriesParallel (t : RedBlackTree K V) : List (K × V) :=
  let rows := t.inner.entries.map fun row => (row.1, row.2)
  expand rows

def entries (profitable : ℕ → Bool) (t : RedBlackTree K V) : List (K × V) :=
  parallelIfProfitable profitable t.entriesSerial.length t.entriesSerial t.entriesParallel

end RedBlackTree

/-! ## Rows and the pairs they stand for -/

omit [LinearOrder K] in
@[simp] theorem expand_nil : expand ([] : List (K × List V)) = [] := rfl

omit [LinearOrder K] in
@[simp] theorem expand_cons (k : K) (vs : List V) (rows : List (K × List V)) :
    expand ((k, vs) :: rows) = vs.map (fun v => (k, v)) ++ expand rows :=
  List.flatMap_cons

omit [LinearOrder K] in
theorem mem_expand {rows : List (K × List V)} {k : K} {v : V} :
    (k, v) ∈ expand rows ↔ ∃ vs, (k, vs) ∈ rows ∧ v ∈ vs := by
  simp [expand]

omit [LinearOrder K] in
theorem length_expand (rows : List (K × List V)) :
    (expand rows).length = (rows.map fun row => row.2.length).sum := by
  induction rows with
  | nil => rfl
  | cons row rows ih =>
      obtain ⟨k, vs⟩ := row
      simp [ih]

omit [LinearOrder K] in
/-- Selecting rows by their key is selecting pairs by it. -/
theorem expand_filter (p : K → Bool) (rows : List (K × List V)) :
    expand (rows.filter fun row => p row.1) = (expand rows).filter fun pair => p pair.1 := by
  induction rows with
  | nil => rfl
  | cons row rows ih =>
      obtain ⟨k, vs⟩ := row
      by_cases hk : p k
      · simp [hk, ih, List.filter_map, Function.comp_def]
      · simp [hk, ih, List.filter_map, Function.comp_def]

/-- The pairs of one key are its row. -/
theorem expand_filter_key {rows : List (K × List V)} (h : Assoc.Ascending rows) (k : K) :
    ((expand rows).filter fun pair => pair.1 = k).map Prod.snd = (Assoc.get k rows).getD [] := by
  induction rows with
  | nil => rfl
  | cons row rows ih =>
      obtain ⟨c, vs⟩ := row
      rw [expand_cons, List.filter_append, List.map_append, ih h.tail, Assoc.get]
      by_cases hk : k = c
      -- no other row has the key
      · have hnone : Assoc.get k rows = none := by
          by_contra hsome
          obtain ⟨ws, hget⟩ := Option.ne_none_iff_exists'.mp hsome
          exact absurd (h.lt_of_mem (Assoc.mem_of_get hget)) (by simp [hk])
        simp [hk ▸ hnone, hk, List.filter_map, Function.comp_def]
      · have hne : ¬ c = k := fun h => hk h.symm
        simp [hk, hne, List.filter_map, Function.comp_def]

/-- The pairs come in ascending key order. -/
theorem pairwise_expand {rows : List (K × List V)} (h : Assoc.Ascending rows) :
    (expand rows).Pairwise (fun x y => x.1 ≤ y.1) := by
  induction rows with
  | nil => exact .nil
  | cons row rows ih =>
      obtain ⟨k, vs⟩ := row
      rw [expand_cons]
      refine List.pairwise_append.mpr ⟨?_, ih h.tail, ?_⟩
      · exact List.pairwise_map.mpr (List.pairwise_of_forall fun _ _ => le_refl k)
      · intro x hx y hy
        obtain ⟨v, _, rfl⟩ := List.mem_map.mp hx
        obtain ⟨ws, hmem, _⟩ := mem_expand.mp hy
        exact le_of_lt (h.lt_of_mem hmem)

namespace RedBlackTree

omit [LinearOrder K] in
/-- The inner loop of `get_at` counts through the values of a row. -/
theorem getAtRow_eq {n i : ℕ} (k : K) (vs : List V) (hi : i ≤ n) :
    getAtRow n k i vs = match vs[n - i]? with
      | some v => .inr (k, v)
      | none => .inl (i + vs.length) := by
  induction vs generalizing i with
  | nil => rfl
  | cons v vs ih =>
      rw [getAtRow]
      by_cases heq : i = n
      · subst heq
        simp
      · obtain ⟨d, hd⟩ : ∃ d, n - i = d + 1 := ⟨n - i - 1, by omega⟩
        have hd' : n - (i + 1) = d := by omega
        rw [if_neg heq, ih (by omega), hd, hd', List.getElem?_cons_succ, List.length_cons]
        cases vs[d]? with
        | some v => rfl
        | none => exact congrArg Sum.inl (by omega)

omit [LinearOrder K] in
/-- The outer loop counts through the pairs. -/
theorem getAtFrom_eq {n i : ℕ} (rows : List (K × List V)) (hi : i ≤ n) :
    getAtFrom n i rows = (expand rows)[n - i]? := by
  induction rows generalizing i with
  | nil => rfl
  | cons row rows ih =>
      obtain ⟨k, vs⟩ := row
      rw [getAtFrom, getAtRow_eq k vs hi, expand_cons]
      by_cases hlt : n - i < vs.length
      · rw [List.getElem?_append_left (by simpa using hlt), List.getElem?_map,
          List.getElem?_eq_getElem hlt]
        rfl
      -- the row ends before the place, and the count goes on with the next one
      · have hnone : vs[n - i]? = none := List.getElem?_eq_none (Nat.le_of_not_lt hlt)
        have hsub : n - i - vs.length = n - (i + vs.length) := by omega
        rw [hnone, List.getElem?_append_right (by simpa using Nat.le_of_not_lt hlt),
          List.length_map, hsub]
        exact ih (by omega)

end RedBlackTree

/-! ## Queues by key -/

inductive MultiOp (K V : Type) where
  | insert (key : K) (value : V)
  | removeFirst (key : K)

/-- `insert` answers nothing. -/
def RedBlackTree.apply (t : RedBlackTree K V) : MultiOp K V → Option V × RedBlackTree K V
  | .insert key value => (none, t.insert key value)
  | .removeFirst key => t.removeFirst key

/-- A queue of values for every key. -/
abbrev Queues (K V : Type) : Type := K → List V

def Queues.apply (m : Queues K V) : MultiOp K V → Option V × Queues K V
  | .insert key value => (none, Function.update m key (m key ++ [value]))
  | .removeFirst key => ((m key).head?, Function.update m key (m key).tail)

/-- The values inserted under `k`, in order. -/
def insertedAt (k : K) : List (MultiOp K V) → List V
  | [] => []
  | .insert key value :: ops => if key = k then value :: insertedAt k ops else insertedAt k ops
  | .removeFirst _ :: ops => insertedAt k ops

/-- The values that the removals from `k` returned, in order. -/
def removedAt (k : K) : List (MultiOp K V) → List (Option V) → List V
  | .removeFirst key :: ops, r :: rs =>
      if key = k then r.toList ++ removedAt k ops rs else removedAt k ops rs
  | .insert _ _ :: ops, _ :: rs => removedAt k ops rs
  | _, _ => []

/-- Every query of the tree answers as the queues would. -/
structure RedBlackTree.Represents (t : RedBlackTree K V) (m : Queues K V) : Prop where
  noEmpty : ∀ row ∈ t.inner.entries, row.2 ≠ []
  find : ∀ k, t.find k = m k
  has : ∀ k, t.has k = true ↔ m k ≠ []
  entriesOf : ∀ profitable k,
    ((t.entries profitable).filter fun pair => pair.1 = k).map Prod.snd = m k
  ascending : ∀ profitable, (t.entries profitable).Pairwise (fun x y => x.1 ≤ y.1)
  size : ∀ profitable arrival, t.size profitable arrival = (t.entries profitable).length
  getAt : ∀ profitable n, t.getAt n = (t.entries profitable)[n]?
  first : ∀ k v, t.first = some (k, v) ↔
    (m k).head? = some v ∧ ∀ k', m k' ≠ [] → k ≤ k'
  last : ∀ k v, t.last = some (k, v) ↔
    (m k).head? = some v ∧ ∀ k', m k' ≠ [] → k' ≤ k
  greaterThan : ∀ profitable b,
    t.greaterThan profitable b = (t.entries profitable).filter fun pair => b < pair.1
  lessThan : ∀ profitable b,
    t.lessThan profitable b = (t.entries profitable).filter fun pair => pair.1 < b

/-- The relation that the operations keep. -/
structure RedBlackTree.Holds (t : RedBlackTree K V) (m : Queues K V) : Prop where
  noEmpty : ∀ row ∈ t.inner.entries, row.2 ≠ []
  find : ∀ k, t.find k = m k

namespace RedBlackTree

theorem find_mk_insert (m : Assoc.Map K (List V)) (key k : K) (vs : List V) :
    (RedBlackTree.mk (m.insert key vs)).find k
      = if k = key then vs else (RedBlackTree.mk m).find k := by
  show (Assoc.get k (Assoc.insert key vs m.entries)).getD [] = _
  rw [Assoc.get_insert]
  split <;> rfl

theorem find_mk_remove (m : Assoc.Map K (List V)) (key k : K) :
    (RedBlackTree.mk (m.remove key)).find k
      = if k = key then [] else (RedBlackTree.mk m).find k := by
  show (Assoc.get k (Assoc.erase key m.entries)).getD [] = _
  rw [Assoc.get_erase]
  split <;> rfl

/-- Writing a non-empty row. -/
theorem Holds.write {t : RedBlackTree K V} {m : Queues K V} (h : t.Holds m) (key : K)
    {vs : List V} (hvs : vs ≠ []) :
    (RedBlackTree.mk (t.inner.insert key vs)).Holds (Function.update m key vs) := by
  refine ⟨fun row hrow => ?_, fun k => ?_⟩
  · rcases Assoc.mem_insert hrow with rfl | hrow
    · exact hvs
    · exact h.noEmpty row hrow
  · rw [find_mk_insert, Function.update_apply]
    split
    · rfl
    · exact h.find k

/-- Dropping the row that ran empty. -/
theorem Holds.drop {t : RedBlackTree K V} {m : Queues K V} (h : t.Holds m) (key : K) :
    (RedBlackTree.mk ((t.inner.insert key []).remove key)).Holds (Function.update m key []) := by
  refine ⟨fun row hrow => ?_, fun k => ?_⟩
  · obtain ⟨hrow, hne⟩ := List.mem_filter.mp hrow
    rcases Assoc.mem_insert hrow with rfl | hrow
    · exact absurd rfl (of_decide_eq_true hne)
    · exact h.noEmpty row hrow
  · rw [find_mk_remove, find_mk_insert, Function.update_apply]
    split
    · rfl
    · exact h.find k

theorem apply_simulates : Refine.Simulates (apply (K := K) (V := V)) Queues.apply Holds := by
  intro t m op h
  cases op with
  | insert key value =>
      refine ⟨rfl, ?_⟩
      have hfind := h.find key
      show (t.insert key value).Holds (Function.update m key (m key ++ [value]))
      rw [insert, ← hfind, find]
      cases t.inner.get key with
      | some vs => exact h.write key (by simp)
      | none => exact h.write key (by simp)
  | removeFirst key =>
      have hfind := h.find key
      show (t.removeFirst key).1 = (m key).head? ∧
        (t.removeFirst key).2.Holds (Function.update m key (m key).tail)
      rw [removeFirst, ← hfind, find]
      -- a missing key has an empty queue, and taking from it changes nothing
      have hsame : t.find key = [] → t.Holds (Function.update m key []) := by
        intro hempty
        rw [← hempty, hfind, Function.update_eq_self]
        exact h
      rw [find] at hsame
      cases hget : t.inner.get key with
      | none => exact ⟨rfl, hsame (by rw [hget]; rfl)⟩
      | some vs =>
          cases vs with
          | nil => exact ⟨rfl, hsame (by rw [hget]; rfl)⟩
          | cons v vs =>
              refine ⟨rfl, ?_⟩
              cases vs with
              | nil => exact h.drop key
              | cons w vs => exact h.write key (by simp)

namespace Holds

variable {t : RedBlackTree K V} {m : Queues K V}

theorem of_mem (h : t.Holds m) {row : K × List V} (hrow : row ∈ t.inner.entries) :
    m row.1 = row.2 := by
  rw [← h.find, RedBlackTree.find, Assoc.Map.get, t.inner.ascending.get_of_mem hrow]
  rfl

/-- The keys with a value are those with a row. -/
theorem ne_nil_iff (h : t.Holds m) {k : K} : m k ≠ [] ↔ ∃ row ∈ t.inner.entries, row.1 = k := by
  constructor
  · intro hne
    rw [← h.find, RedBlackTree.find, Assoc.Map.get] at hne
    cases hget : Assoc.get k t.inner.entries with
    | none => exact absurd (by rw [hget]; rfl) hne
    | some vs => exact ⟨(k, vs), Assoc.mem_of_get hget, rfl⟩
  · rintro ⟨row, hrow, rfl⟩
    rw [h.of_mem hrow]
    exact h.noEmpty row hrow

/-- The oldest value of a row whose key bounds all the others. -/
theorem firstOf_eq_some_iff (h : t.Holds m) {r : K → K → Prop}
    (hanti : ∀ a b, r a b → r b a → a = b) {row : K × List V} (hrow : row ∈ t.inner.entries)
    (hbound : ∀ row' ∈ t.inner.entries, r row.1 row'.1) (k : K) (v : V) :
    firstOf row = some (k, v) ↔ (m k).head? = some v ∧ ∀ k', m k' ≠ [] → r k k' := by
  rw [firstOf, Option.map_eq_some_iff]
  constructor
  · rintro ⟨w, hw, heq⟩
    obtain ⟨rfl, rfl⟩ := Prod.mk.inj heq
    refine ⟨by rw [h.of_mem hrow, hw], fun k' hk' => ?_⟩
    obtain ⟨row', hrow', rfl⟩ := h.ne_nil_iff.mp hk'
    exact hbound row' hrow'
  · rintro ⟨hv, hk⟩
    have hne : m k ≠ [] := fun hnil => by simp [hnil] at hv
    obtain ⟨row', hrow', rfl⟩ := h.ne_nil_iff.mp hne
    have hkey : row.1 = row'.1 :=
      hanti _ _ (hbound row' hrow') (hk _ (h.ne_nil_iff.mpr ⟨row, hrow, rfl⟩))
    rw [← hkey, h.of_mem hrow] at hv
    exact ⟨v, hv, by rw [hkey]⟩

/-- Without any row no key has a value. -/
theorem none_eq_some_iff (h : t.Holds m) (hnil : t.inner.entries = []) {r : K → K → Prop} (k : K)
    (v : V) : (none : Option (K × V)) = some (k, v) ↔
      (m k).head? = some v ∧ ∀ k', m k' ≠ [] → r k k' := by
  refine ⟨fun heq => absurd heq (by simp), fun hv => ?_⟩
  have hne : m k ≠ [] := fun hempty => by simp [hempty] at hv
  obtain ⟨row, hrow, _⟩ := h.ne_nil_iff.mp hne
  rw [hnil] at hrow
  exact absurd hrow (by simp)

theorem first_eq_some_iff (h : t.Holds m) (k : K) (v : V) :
    t.first = some (k, v) ↔ (m k).head? = some v ∧ ∀ k', m k' ≠ [] → k ≤ k' := by
  rw [RedBlackTree.first]
  cases hrows : t.inner.entries with
  | nil => exact h.none_eq_some_iff hrows k v
  | cons row rows =>
      have hasc : Assoc.Ascending (row :: rows) := hrows ▸ t.inner.ascending
      refine h.firstOf_eq_some_iff (fun _ _ => le_antisymm) (by simp [hrows]) ?_ k v
      intro row' hrow'
      rw [hrows] at hrow'
      rcases List.mem_cons.mp hrow' with rfl | hrow'
      · exact le_refl _
      · exact le_of_lt (hasc.lt_of_mem hrow')

theorem last_eq_some_iff (h : t.Holds m) (k : K) (v : V) :
    t.last = some (k, v) ↔ (m k).head? = some v ∧ ∀ k', m k' ≠ [] → k' ≤ k := by
  rw [RedBlackTree.last]
  rcases List.eq_nil_or_concat t.inner.entries with hrows | ⟨rows, row, hrows⟩
  · rw [hrows]
    exact h.none_eq_some_iff hrows (r := fun a b => b ≤ a) k v
  · rw [List.concat_eq_append] at hrows
    have hasc : Assoc.Ascending (rows ++ [row]) := hrows ▸ t.inner.ascending
    have hlast : t.inner.entries.getLast? = some row := by rw [hrows, List.getLast?_concat]
    rw [hlast]
    refine h.firstOf_eq_some_iff (r := fun a b => b ≤ a) (fun _ _ hab hba => le_antisymm hba hab)
      (by simp [hrows]) ?_ k v
    intro row' hrow'
    rw [hrows] at hrow'
    rcases List.mem_append.mp hrow' with hrow' | hrow'
    · exact le_of_lt ((List.pairwise_append.mp hasc).2.2 row' hrow' row (by simp))
    · rw [List.mem_singleton.mp hrow']

theorem entries_eq (t : RedBlackTree K V) (profitable : ℕ → Bool) :
    t.entries profitable = expand t.inner.entries := by
  rw [RedBlackTree.entries, entriesParallel, List.map_id']
  exact parallelIfProfitable_self ..

theorem select_eq (t : RedBlackTree K V) (profitable : ℕ → Bool) (p : K → Bool) :
    parallelIfProfitable profitable (t.selectSerial p).length (t.selectSerial p)
      (t.selectParallel p) = (t.entries profitable).filter fun pair => p pair.1 := by
  rw [entries_eq, ← expand_filter, selectParallel, List.map_id']
  exact parallelIfProfitable_self ..

theorem size_eq (t : RedBlackTree K V) (profitable : ℕ → Bool) (arrival : Arrival) :
    t.size profitable arrival = (t.entries profitable).length := by
  rw [entries_eq, length_expand, RedBlackTree.size, sizeParallel, Arrival.sum_eq]
  exact parallelIfProfitable_self ..

theorem represents (h : t.Holds m) : t.Represents m where
  noEmpty := h.noEmpty
  find := h.find
  has k := by
    rw [RedBlackTree.has, ← h.find, RedBlackTree.find]
    cases hget : t.inner.get k with
    | none => simp
    | some vs => simpa using h.noEmpty (k, vs) (Assoc.mem_of_get hget)
  entriesOf profitable k := by
    rw [entries_eq, expand_filter_key t.inner.ascending]
    exact h.find k
  ascending profitable := by
    rw [entries_eq]
    exact pairwise_expand t.inner.ascending
  size := size_eq t
  getAt profitable n := by
    rw [entries_eq]
    exact getAtFrom_eq t.inner.entries (Nat.zero_le n)
  first := h.first_eq_some_iff
  last := h.last_eq_some_iff
  greaterThan profitable b := select_eq t profitable fun k => decide (b < k)
  lessThan profitable b := select_eq t profitable fun k => decide (k < b)

end Holds

end RedBlackTree

/-- What was removed from a queue and what is left in it is what was there and what was inserted. -/
theorem Queues.removed_append (k : K) (m : Queues K V) (ops : List (MultiOp K V)) :
    removedAt k ops (Refine.exec Queues.apply m ops).1 ++ (Refine.exec Queues.apply m ops).2 k
      = m k ++ insertedAt k ops := by
  induction ops generalizing m with
  | nil => simp [Refine.exec, removedAt, insertedAt]
  | cons op ops ih =>
      cases op with
      | insert key value =>
          simp only [Refine.exec, removedAt, insertedAt, Queues.apply]
          rw [ih]
          by_cases hk : key = k
          · subst hk
            simp
          · rw [if_neg hk, Function.update_of_ne fun h => hk h.symm]
      | removeFirst key =>
          simp only [Refine.exec, removedAt, insertedAt, Queues.apply]
          by_cases hk : key = k
          · subst hk
            rw [if_pos rfl, List.append_assoc, ih, Function.update_self, ← List.append_assoc]
            cases m key <;> rfl
          · rw [if_neg hk, ih, Function.update_of_ne fun h => hk h.symm]

/-- **The tree is an ordered FIFO multimap.** Along every sequence of insertions and removals it
    answers as a queue for every key would, every query agrees with these queues afterwards, and
    what was removed from a key, followed by what it still holds, is what was inserted under it. -/
theorem redBlackTree_refines (ops : List (MultiOp K V)) :
    let run := Refine.exec RedBlackTree.apply RedBlackTree.empty ops
    let spec := Refine.exec Queues.apply (fun _ => []) ops
    run.1 = spec.1 ∧ run.2.Represents spec.2 ∧
      ∀ k, removedAt k ops run.1 ++ run.2.find k = insertedAt k ops := by
  have hempty : (RedBlackTree.empty : RedBlackTree K V).Holds fun _ => [] :=
    ⟨fun row hrow => absurd hrow (by simp [RedBlackTree.empty, Assoc.Map.empty]), fun _ => rfl⟩
  obtain ⟨hres, hholds⟩ := RedBlackTree.apply_simulates.exec hempty ops
  refine ⟨hres, hholds.represents, fun k => ?_⟩
  rw [hres, hholds.find, Queues.removed_append, List.nil_append]

end IdEffect.Collections
