import IdEffect.Lib.Recency
import IdEffect.Resource.Cache

set_option autoImplicit false

/-! # The recency list of a cache is exact

The entries of a cache and its recency list are two containers, and five updates keep them in step:
a lookup that hits moves its key to the back of the list, a commit stores an entry and moves its key
to the back, after evicting the front if the cache is full, and an `invalidate` takes its key out of
both. Expiry takes nothing out: an entry that is no longer fresh stays, in both, until it is stored
again, evicted or invalidated.

Any sequence of updates is considered, with any times and any outcomes (`Update`), and books are
kept beside the state (`Books`): when a key was last hit or stored, and how many lookups were
decided as a hit or as a miss. In every state reached so, the list is the keys of the entries in the
order of their last use (`Exact.apply`), so the front of the list is an entry, one round of the
`while` of `evict_lru` makes room, and its branch for a list that has lost entries is never taken.
The counters saturate: they are the number of hits and of misses up to `u64::MAX`. -/

namespace IdEffect.Cache

variable {K V D : Type} [DecidableEq K]

/-! ## Sequences of updates -/

/-- The updates `get` and `invalidate` make under the mutex, with what they depend on besides the
    state: the time, the deferred a leader would put in flight, the value loaded and whether the
    leader won its deferred. -/
inductive Update (K V D : Type) where
  | phase1 (now : ℕ) (key : K)
  | phase2 (now : ℕ) (key : K) (dLeader : D)
  | commit (now : ℕ) (key : K) (won : Bool) (value : V)
  | failCleanup (key : K)
  | invalidate (key : K)

/-- The state and the books: the number of the next update, the update in which a key was last hit
    or stored, and the lookups decided so far. -/
structure Books (K V D : Type) where
  state : CacheState K V D
  clock : ℕ
  usedAt : K → ℕ
  hits : ℕ
  misses : ℕ

namespace Books

def init : Books K V D where
  state := .default
  clock := 0
  usedAt := fun _ => 0
  hits := 0
  misses := 0

/-- An update that uses no key. -/
def pass (b : Books K V D) (st : CacheState K V D) : Books K V D :=
  { b with state := st, clock := b.clock + 1 }

/-- An update that hits or stores a key. -/
def use (b : Books K V D) (st : CacheState K V D) (key : K) : Books K V D :=
  { b.pass st with usedAt := Function.update b.usedAt key b.clock }

def hit (b : Books K V D) : Books K V D := { b with hits := b.hits + 1 }

def miss (b : Books K V D) : Books K V D := { b with misses := b.misses + 1 }

def apply (cache : Config) (b : Books K V D) : Update K V D → Books K V D
  | .phase1 now key =>
      match b.state.phase1 cache.ttl now key with
      | (.hit _, st) => (b.use st key).hit
      | (.join _, st) => (b.pass st).miss
      | (.miss, st) => b.pass st
  | .phase2 now key dLeader =>
      match b.state.phase2 cache.ttl now key dLeader with
      | (.hit _, st) => (b.use st key).hit
      | (.follow _, st) => (b.pass st).miss
      | (.leader _, st) => (b.pass st).miss
  | .commit now key true value => b.use (b.state.commit cache.capacity now key true value) key
  | .commit now key false value => b.pass (b.state.commit cache.capacity now key false value)
  | .failCleanup key => b.pass (b.state.failCleanup key)
  | .invalidate key => b.pass (b.state.invalidate key).2

/-- The books after a sequence of updates. -/
def after (cache : Config) (us : List (Update K V D)) : Books K V D :=
  us.foldl (apply cache) init

end Books

/-! ## Evicting from a list in step with the entries -/

namespace CacheState

variable {s : CacheState K V D}

/-- Does the `while` of `evict_lru` come to its branch for a list that has lost entries? -/
def desynced (capacity : ℕ) : ℕ → CacheState K V D → Bool
  | 0, _ => false
  | fuel + 1, s =>
      if s.entries.keys.length ≥ capacity then
        match s.lru with
        | victim :: rest =>
            if victim ∈ s.entries then desynced capacity fuel ({ s with lru := rest }.evict victim)
            else desynced capacity fuel { s with lru := rest }
        | [] =>
            match s.entries.keys with
            | _ :: _ => true
            | [] => false
      else false

/-- The list holds the keys of the entries. -/
def InStep (s : CacheState K V D) : Prop := ∀ k, k ∈ s.lru ↔ k ∈ s.entries

theorem InStep.evict {victim : K} {rest : List K} (h : s.InStep) (hnodup : s.lru.Nodup)
    (hlru : s.lru = victim :: rest) : ({ s with lru := rest }.evict victim).InStep := by
  intro k
  rw [hlru, List.nodup_cons] at hnodup
  have hk := h k
  rw [hlru, List.mem_cons] at hk
  show k ∈ rest ↔ k ∈ s.entries.erase victim
  rw [AList.mem_erase, ← hk]
  constructor
  · intro hrest
    exact ⟨fun heq => hnodup.1 (heq ▸ hrest), .inr hrest⟩
  · rintro ⟨hne, heq | hrest⟩
    · exact absurd heq hne
    · exact hrest

omit [DecidableEq K] in
/-- In step, an empty list means that there is no entry left. -/
theorem InStep.keys_eq_nil (h : s.InStep) (hlru : s.lru = []) : s.entries.keys = [] := by
  refine List.eq_nil_iff_forall_not_mem.2 fun k hk => ?_
  have := (h k).2 (AList.mem_keys.1 hk)
  simp [hlru] at this

theorem InStep.not_desynced {capacity : ℕ} (fuel : ℕ) (h : s.InStep) (hnodup : s.lru.Nodup) :
    desynced capacity fuel s = false := by
  induction fuel generalizing s with
  | zero => rfl
  | succ fuel ih =>
      unfold desynced
      split
      · split
        · next victim rest hlru =>
            have hmem : victim ∈ s.entries := by
              rw [← h victim, hlru]
              exact List.mem_cons_self
            rw [if_pos hmem]
            refine ih (h.evict hnodup hlru) ?_
            rw [hlru, List.nodup_cons] at hnodup
            exact hnodup.2
        · next hlru =>
            rw [h.keys_eq_nil hlru]
      · rfl

theorem length_erase_keys {victim : K} (hmem : victim ∈ s.entries) :
    (s.entries.erase victim).keys.length + 1 = s.entries.keys.length := by
  have hkey : victim ∈ s.entries.keys := AList.mem_keys.2 hmem
  have hpos := List.length_pos_of_mem hkey
  rw [AList.keys_erase, List.length_erase_of_mem hkey]
  omega

/-- **One round is enough.** In a cache that is full and not over its capacity, `evict_lru` takes
    the front of the list and its entry, and nothing else. -/
theorem InStep.evictLru_eq {capacity : ℕ} (hcap : 0 < capacity) (h : s.InStep)
    (hfull : s.entries.keys.length = capacity) :
    ∃ victim rest, s.lru = victim :: rest ∧
      s.evictLru capacity = { s with lru := rest }.evict victim := by
  cases hlru : s.lru with
  | nil =>
      rw [h.keys_eq_nil hlru] at hfull
      simp only [List.length_nil] at hfull
      omega
  | cons victim rest =>
      have hmem : victim ∈ s.entries := by
        rw [← h victim, hlru]
        exact List.mem_cons_self
      have hroom : (s.entries.erase victim).keys.length < capacity := by
        have := length_erase_keys hmem
        omega
      refine ⟨victim, rest, rfl, ?_⟩
      have hloop : ∀ fuel, evictLoop capacity fuel ({ s with lru := rest }.evict victim) =
          { s with lru := rest }.evict victim := by
        intro fuel
        cases fuel with
        | zero => rfl
        | succ fuel =>
            unfold evictLoop
            rw [if_neg]
            exact Nat.not_le_of_lt hroom
      rw [evictLru, if_neg (by omega), hlru, List.length_cons, Nat.succ_add, evictLoop,
        if_pos (Nat.le_of_eq hfull.symm), hlru]
      simp only [hmem, if_true]
      exact hloop _

end CacheState

/-! ## The invariant -/

/-- The state agrees with the books. -/
structure Exact (cache : Config) (b : Books K V D) : Prop where
  recency : Recency b.state.lru b.usedAt b.clock
  inStep : b.state.InStep
  bounded : 0 < cache.capacity → b.state.entries.keys.length ≤ cache.capacity
  hits : b.state.stats.hits = min b.hits (2 ^ 64 - 1)
  misses : b.state.stats.misses = min b.misses (2 ^ 64 - 1)

variable {cache : Config} {b : Books K V D}

omit [DecidableEq K] in
theorem Exact.init (cache : Config) : Exact cache (Books.init : Books K V D) where
  recency := Recency.nil _ _
  inStep := by
    intro k
    simp [Books.init, CacheState.default]
  bounded := fun _ => Nat.zero_le _
  hits := rfl
  misses := rfl

theorem saturatingInc_min (n : ℕ) :
    saturatingInc (min n (2 ^ 64 - 1)) = min (n + 1) (2 ^ 64 - 1) := by
  unfold saturatingInc
  omega

/-- Moving a key that has an entry to the back keeps the list in step. -/
theorem mem_touchLru {lru : List K} {key k : K} :
    k ∈ touchLru lru key ↔ k = key ∨ k ∈ lru := by
  by_cases hk : k = key
  · simp [touchLru, hk]
  · simp [touchLru, removeLru, hk]

/-- A lookup that finds a fresh entry finds an entry. -/
theorem mem_of_fresh {s : CacheState K V D} {ttl : Option ℕ} {now : ℕ} {key : K} {c : Cached V}
    (h : (s.entries.lookup key).filter (isFresh ttl now) = some c) : key ∈ s.entries :=
  AList.lookup_isSome.1 (Option.isSome_of_mem (Option.filter_eq_some_iff.1 h).1)

theorem Exact.countHit (h : Exact cache b) {key : K} (hmem : key ∈ b.state.entries) :
    Exact cache (b.use (b.state.countHit key) key).hit where
  recency := h.recency.touch
  inStep := by
    intro k
    show k ∈ touchLru b.state.lru key ↔ k ∈ b.state.entries
    rw [mem_touchLru, h.inStep k]
    constructor
    · rintro (rfl | hk)
      · exact hmem
      · exact hk
    · exact .inr
  bounded := h.bounded
  hits := by
    show saturatingInc b.state.stats.hits = min (b.hits + 1) (2 ^ 64 - 1)
    rw [h.hits, saturatingInc_min]
  misses := h.misses

omit [DecidableEq K] in
theorem Exact.countMiss (h : Exact cache b) : Exact cache (b.pass b.state.countMiss).miss where
  recency := h.recency.tick
  inStep := h.inStep
  bounded := h.bounded
  hits := h.hits
  misses := by
    show saturatingInc b.state.stats.misses = min (b.misses + 1) (2 ^ 64 - 1)
    rw [h.misses, saturatingInc_min]

omit [DecidableEq K] in
/-- What is in flight does not matter here. -/
theorem Exact.setInFlight (h : Exact cache b) (inFlight : AList fun _ : K => D) :
    Exact cache { b with state := { b.state with inFlight := inFlight } } where
  recency := h.recency
  inStep := h.inStep
  bounded := h.bounded
  hits := h.hits
  misses := h.misses

omit [DecidableEq K] in
theorem Exact.pass (h : Exact cache b) : Exact cache (b.pass b.state) where
  recency := h.recency.tick
  inStep := h.inStep
  bounded := h.bounded
  hits := h.hits
  misses := h.misses

theorem Exact.invalidate (h : Exact cache b) (key : K) :
    Exact cache (b.pass (b.state.invalidate key).2) where
  recency := h.recency.remove.tick
  inStep := by
    intro k
    show k ∈ removeLru b.state.lru key ↔ k ∈ b.state.entries.erase key
    rw [AList.mem_erase, ← h.inStep k, removeLru, List.mem_filter, decide_eq_true_iff, and_comm]
  bounded := by
    intro hcap
    refine Nat.le_trans ?_ (h.bounded hcap)
    show (b.state.entries.erase key).keys.length ≤ b.state.entries.keys.length
    rw [AList.keys_erase]
    exact List.length_erase_le
  hits := h.hits
  misses := h.misses

/-! ### Storing an entry -/

/-- Evicting from a full cache. -/
theorem Exact.evictLru (h : Exact cache b) (hcap : 0 < cache.capacity)
    (hfull : b.state.entries.keys.length = cache.capacity) :
    Exact cache { b with state := b.state.evictLru cache.capacity } := by
  obtain ⟨victim, rest, hlru, heq⟩ := h.inStep.evictLru_eq hcap hfull
  have hroom := CacheState.evictLru_length hcap b.state
  have hrec := h.recency
  rw [hlru] at hrec
  refine ⟨?_, ?_, fun _ => Nat.le_of_lt hroom, ?_, ?_⟩
  · rw [heq]
    exact hrec.sublist (List.sublist_cons_self _ _)
  · rw [heq]
    exact h.inStep.evict h.recency.nodup hlru
  · rw [heq]
    exact h.hits
  · rw [heq]
    exact h.misses

theorem length_insert_keys {entries : AList fun _ : K => Cached V} {key : K} {c : Cached V} :
    (entries.insert key c).keys.length =
      if key ∈ entries then entries.keys.length else entries.keys.length + 1 := by
  rw [AList.keys_insert, List.length_cons]
  split
  · next hmem =>
      have hkey : key ∈ entries.keys := AList.mem_keys.2 hmem
      have hpos := List.length_pos_of_mem hkey
      rw [List.length_erase_of_mem hkey]
      omega
  · next hmem =>
      have hkey : key ∉ entries.keys := fun hkey => hmem (AList.mem_keys.1 hkey)
      rw [List.erase_of_not_mem hkey]

/-- The second half of `put_entry`. -/
def CacheState.store (now : ℕ) (key : K) (value : V) (s : CacheState K V D) : CacheState K V D :=
  { s with
    entries := s.entries.insert key ⟨value, now⟩
    lru := removeLru s.lru key ++ [key] }

/-- Is an entry evicted before `key` is stored? -/
def CacheState.MustEvict (capacity : ℕ) (key : K) (s : CacheState K V D) : Prop :=
  ¬ key ∈ s.entries ∧ capacity > 0 ∧ s.entries.keys.length ≥ capacity

theorem CacheState.putEntry_of_mustEvict {s : CacheState K V D} {capacity : ℕ} {key : K}
    (h : s.MustEvict capacity key) (now : ℕ) (value : V) :
    s.putEntry capacity now key value = (s.evictLru capacity).store now key value := by
  unfold MustEvict at h
  simp only [putEntry, if_pos h, store]

theorem CacheState.putEntry_of_not_mustEvict {s : CacheState K V D} {capacity : ℕ} {key : K}
    (h : ¬ s.MustEvict capacity key) (now : ℕ) (value : V) :
    s.putEntry capacity now key value = s.store now key value := by
  unfold MustEvict at h
  simp only [putEntry, if_neg h, store]

/-- Storing an entry there is room for. -/
theorem Exact.store (h : Exact cache b) (now : ℕ) (key : K) (value : V)
    (hroom : 0 < cache.capacity → key ∉ b.state.entries →
      b.state.entries.keys.length < cache.capacity) :
    Exact cache (b.use (b.state.store now key value) key) where
  recency := h.recency.touch
  inStep := by
    intro k
    show k ∈ touchLru b.state.lru key ↔ k ∈ b.state.entries.insert key ⟨value, now⟩
    rw [mem_touchLru, AList.mem_insert, h.inStep k]
  bounded := by
    intro hcap
    show (b.state.entries.insert key ⟨value, now⟩).keys.length ≤ cache.capacity
    rw [length_insert_keys]
    split
    · exact h.bounded hcap
    · next hnew => exact hroom hcap hnew
  hits := h.hits
  misses := h.misses

theorem Exact.putEntry (h : Exact cache b) (now : ℕ) (key : K) (value : V) :
    Exact cache (b.use (b.state.putEntry cache.capacity now key value) key) := by
  by_cases hevict : b.state.MustEvict cache.capacity key
  · have hcap : 0 < cache.capacity := hevict.2.1
    have hfull := Nat.le_antisymm (h.bounded hcap) hevict.2.2
    rw [CacheState.putEntry_of_mustEvict hevict]
    exact (h.evictLru hcap hfull).store now key value
      fun _ _ => CacheState.evictLru_length hcap b.state
  · rw [CacheState.putEntry_of_not_mustEvict hevict]
    exact h.store now key value fun hcap hnew =>
      Nat.lt_of_not_le fun hfull => hevict ⟨hnew, hcap, hfull⟩

omit [DecidableEq K] in
theorem Exact.countLoad (h : Exact cache b) :
    Exact cache { b with state := b.state.countLoad } where
  recency := h.recency
  inStep := h.inStep
  bounded := h.bounded
  hits := h.hits
  misses := h.misses

/-- **One update.** Whatever the state, the time and the outcome of a load, an update of `get` or
    `invalidate` keeps the list, the entries and the counters exact. -/
theorem Exact.apply (h : Exact cache b) (u : Update K V D) : Exact cache (b.apply cache u) := by
  cases u with
  | phase1 now key =>
      simp only [Books.apply, CacheState.phase1]
      cases hc : (b.state.entries.lookup key).filter (isFresh cache.ttl now) with
      | some c => exact h.countHit (mem_of_fresh hc)
      | none =>
          cases b.state.inFlight.lookup key with
          | some d => exact h.countMiss
          | none => exact h.pass
  | phase2 now key dLeader =>
      simp only [Books.apply, CacheState.phase2]
      cases hc : (b.state.entries.lookup key).filter (isFresh cache.ttl now) with
      | some c => exact h.countHit (mem_of_fresh hc)
      | none =>
          cases b.state.inFlight.lookup key with
          | some d => exact h.countMiss
          | none => exact h.countMiss.setInFlight _
  | commit now key won value =>
      cases won with
      | true => exact ((h.setInFlight _).putEntry now key value).countLoad
      | false => exact (h.setInFlight _).pass
  | failCleanup key => exact (h.setInFlight _).pass
  | invalidate key => exact h.invalidate key

/-- **Any sequence of updates.** -/
theorem Exact.after (cache : Config) (us : List (Update K V D)) :
    Exact cache (Books.after cache us) := by
  suffices hgen : ∀ b : Books K V D, Exact cache b →
      Exact cache (us.foldl (Books.apply cache) b) from hgen _ (.init cache)
  induction us with
  | nil => exact fun b h => h
  | cons u us ih => exact fun b h => ih _ (h.apply u)

/-! ## The bookkeeping of a cache -/

/-- Storing a new key into a full cache: the front of the list goes, the key comes, and every other
    entry stays as it is. -/
theorem Exact.commit_lookup_of_full (h : Exact cache b) (hcap : 0 < cache.capacity) {key : K}
    (hnew : key ∉ b.state.entries) (hfull : b.state.entries.keys.length = cache.capacity)
    (now : ℕ) (value : V) :
    ∃ victim rest, b.state.lru = victim :: rest ∧
      ∀ k, (b.state.commit cache.capacity now key true value).entries.lookup k =
        if k = key then some ⟨value, now⟩
        else if k = victim then none else b.state.entries.lookup k := by
  have hin : (b.state.failCleanup key).InStep := h.inStep
  obtain ⟨victim, rest, hlru, heq⟩ := hin.evictLru_eq hcap hfull
  have hput := CacheState.putEntry_of_mustEvict (s := b.state.failCleanup key)
    ⟨hnew, hcap, Nat.le_of_eq hfull.symm⟩ now value
  rw [heq] at hput
  refine ⟨victim, rest, hlru, fun k => ?_⟩
  show ((b.state.failCleanup key).putEntry cache.capacity now key value).entries.lookup k = _
  rw [hput]
  show ((b.state.entries.erase victim).insert key ⟨value, now⟩).lookup k = _
  by_cases hk : k = key
  · rw [hk, AList.lookup_insert, if_pos rfl]
  · rw [AList.lookup_insert_ne hk, if_neg hk]
    by_cases hv : k = victim
    · rw [hv, AList.lookup_erase, if_pos rfl]
    · rw [AList.lookup_erase_ne hv, if_neg hv]

/-- **The bookkeeping is exact.** After any sequence of updates, the recency list has no duplicate
    and holds the keys of the entries in the order of their last hit or store. With a capacity, the
    entries do not exceed it, a new key stored into a full cache takes the place of the least
    recently used one and of nothing else, and `evict_lru` never comes to a list that has lost
    entries. The counters are the number of lookups decided as hits and as misses, up to
    `u64::MAX`. -/
theorem lru_bookkeeping (cache : Config) (us : List (Update K V D)) :
    (Books.after cache us).state.lru.Nodup ∧
    (∀ k, k ∈ (Books.after cache us).state.lru ↔ k ∈ (Books.after cache us).state.entries) ∧
    ((Books.after cache us).state.lru.Pairwise fun k k' =>
      (Books.after cache us).usedAt k < (Books.after cache us).usedAt k') ∧
    (0 < cache.capacity →
      (Books.after cache us).state.entries.keys.length ≤ cache.capacity ∧
      ∀ now key value, key ∉ (Books.after cache us).state.entries →
        (Books.after cache us).state.entries.keys.length = cache.capacity →
        ∃ victim ∈ (Books.after cache us).state.entries,
          (∀ k ∈ (Books.after cache us).state.entries, k ≠ victim →
            (Books.after cache us).usedAt victim < (Books.after cache us).usedAt k) ∧
          ∀ k, ((Books.after cache us).state.commit cache.capacity now key true
              value).entries.lookup k =
            if k = key then some ⟨value, now⟩
            else if k = victim then none else (Books.after cache us).state.entries.lookup k) ∧
    (∀ key fuel,
      ((Books.after cache us).state.failCleanup key).desynced cache.capacity fuel = false) ∧
    (Books.after cache us).state.stats.hits = min (Books.after cache us).hits (2 ^ 64 - 1) ∧
    (Books.after cache us).state.stats.misses = min (Books.after cache us).misses (2 ^ 64 - 1) := by
  have h := Exact.after cache us
  generalize Books.after cache us = b at h
  refine ⟨h.recency.nodup, h.inStep, h.recency.sorted, ?_, ?_, h.hits, h.misses⟩
  · intro hcap
    refine ⟨h.bounded hcap, ?_⟩
    intro now key value hnew hfull
    obtain ⟨victim, rest, hlru, hlookup⟩ := h.commit_lookup_of_full hcap hnew hfull now value
    have hrec := h.recency
    rw [hlru] at hrec
    refine ⟨victim, ?_, ?_, hlookup⟩
    · rw [← h.inStep victim, hlru]
      exact List.mem_cons_self
    · intro k hk hne
      rw [← h.inStep k, hlru, List.mem_cons] at hk
      rcases hk with heq | hrest
      · exact absurd heq hne
      · exact hrec.head_lt hrest
  · intro key fuel
    have hin : (b.state.failCleanup key).InStep := h.inStep
    exact hin.not_desynced fuel h.recency.nodup

/-- Lookups of a key that is never stored are misses. -/
theorem after_replicate_phase2 (cache : Config) (now : ℕ) (key : K) (d : D) (n : ℕ) :
    let b : Books K V D := Books.after cache (List.replicate n (.phase2 now key d))
    b.state.entries = ∅ ∧ b.hits = 0 ∧ b.misses = n := by
  induction n with
  | zero => exact ⟨rfl, rfl, rfl⟩
  | succ n ih =>
      obtain ⟨hentries, hhits, hmisses⟩ := ih
      simp only [List.replicate_succ', Books.after, List.foldl_append, List.foldl_cons,
        List.foldl_nil]
      generalize hb : List.foldl (Books.apply cache) Books.init
        (List.replicate n (Update.phase2 now key d)) = b
      simp only [Books.after, hb] at hentries hhits hmisses
      simp only [Books.apply, CacheState.phase2, hentries, AList.lookup_empty, Option.filter_none]
      cases b.state.inFlight.lookup key with
      | some d' => exact ⟨hentries, hhits, congrArg (· + 1) hmisses⟩
      | none => exact ⟨hentries, hhits, congrArg (· + 1) hmisses⟩

/-- The counters saturate: after `2 ^ 64` misses, one of them is no longer counted. -/
theorem lookups_not_counted :
    ¬ ∀ us : List (Update Unit Unit Unit),
      (Books.after ⟨1, none⟩ us).state.stats.hits + (Books.after ⟨1, none⟩ us).state.stats.misses =
        (Books.after ⟨1, none⟩ us).hits + (Books.after ⟨1, none⟩ us).misses := by
  intro hall
  have hsum := hall (List.replicate (2 ^ 64) (.phase2 0 () ()))
  obtain ⟨-, hhits, hmisses⟩ :=
    after_replicate_phase2 (V := Unit) ⟨1, none⟩ 0 () () (2 ^ 64)
  have hexact := Exact.after ⟨1, none⟩
    (List.replicate (2 ^ 64) (.phase2 0 () () : Update Unit Unit Unit))
  rw [hexact.hits, hexact.misses, hhits, hmisses] at hsum
  omega

/-! ## The calls make such updates -/

/-- The state after an update, without the books. -/
def CacheState.update (cache : Config) (s : CacheState K V D) : Update K V D → CacheState K V D
  | .phase1 now key => (s.phase1 cache.ttl now key).2
  | .phase2 now key dLeader => (s.phase2 cache.ttl now key dLeader).2
  | .commit now key won value => s.commit cache.capacity now key won value
  | .failCleanup key => s.failCleanup key
  | .invalidate key => (s.invalidate key).2

theorem Books.apply_state (cache : Config) (b : Books K V D) (u : Update K V D) :
    (b.apply cache u).state = b.state.update cache u := by
  cases u with
  | phase1 now key =>
      simp only [Books.apply, CacheState.update]
      split <;> next hphase => rw [hphase]; rfl
  | phase2 now key dLeader =>
      simp only [Books.apply, CacheState.update]
      split <;> next hphase => rw [hphase]; rfl
  | commit now key won value => cases won <;> rfl
  | failCleanup key => rfl
  | invalidate key => rfl

variable {E Tid : Type} [DecidableEq Tid] {s s' : Sys K V E Tid} {l : Label K V E Tid}

theorem stepCall_update {t : Tid} (h : stepCall cache s t = some s') :
    s'.state = s.state ∨ ∃ u, s'.state = s.state.update cache u := by
  cases hcall : s.calls t with
  | phase1 key =>
      refine .inr ⟨.phase1 s.now key, ?_⟩
      simp only [stepCall, hcall] at h
      simp only [CacheState.update]
      split at h <;> next hphase => rw [hphase, ← Option.some.inj h]; rfl
  | phase2 key =>
      refine .inr ⟨.phase2 s.now key t, ?_⟩
      simp only [stepCall, hcall] at h
      simp only [CacheState.update]
      split at h <;> next hphase => rw [hphase, ← Option.some.inj h]; rfl
  | committing key v won =>
      simp only [stepCall, hcall] at h
      exact .inr ⟨.commit s.now key won ⟨v, t⟩, Option.some.inj h ▸ rfl⟩
  | failing key e =>
      simp only [stepCall, hcall] at h
      exact .inr ⟨.failCleanup key, Option.some.inj h ▸ rfl⟩
  | invalidating key =>
      refine .inr ⟨.invalidate key, ?_⟩
      simp only [stepCall, hcall] at h
      split at h <;> exact Option.some.inj h ▸ rfl
  | waiting key d =>
      simp only [stepCall, hcall] at h
      split at h
      · exact .inl (Option.some.inj h ▸ rfl)
      · cases h
  | leader key =>
      simp only [stepCall, hcall] at h
      exact .inl (Option.some.inj h ▸ rfl)
  | loaded key result =>
      cases result with
      | ok v =>
          simp only [stepCall, hcall] at h
          exact .inl (Option.some.inj h ▸ rfl)
      | error e =>
          simp only [stepCall, hcall] at h
          exact .inl (Option.some.inj h ▸ rfl)
  | interrupting key d =>
      simp only [stepCall, hcall] at h
      exact .inl (Option.some.inj h ▸ rfl)
  | idle => simp [stepCall, hcall] at h
  | loading key => simp [stepCall, hcall] at h
  | got key result => simp [stepCall, hcall] at h
  | invalidated key => simp [stepCall, hcall] at h

theorem step_update (h : step cache s l = some s') :
    s'.state = s.state ∨ ∃ u, s'.state = s.state.update cache u := by
  cases l with
  | step t => exact stepCall_update h
  | _ =>
      refine .inl ?_
      cases Step.of_step h
      rfl

/-- **The state of a cache in use is reached by updates.** So what holds after any sequence of
    updates holds along any interleaving of calls. -/
theorem run_updates {ls : List (Label K V E Tid)}
    (h : Transition.run (step cache) .init ls = some s) :
    ∃ us, s.state = (Books.after cache us).state := by
  refine Transition.run_invariant (I := fun s => ∃ us, s.state = (Books.after cache us).state)
    ?_ ⟨[], rfl⟩ h
  rintro s l s' ⟨us, hus⟩ hstep
  rcases step_update hstep with heq | ⟨u, hu⟩
  · exact ⟨us, heq.trans hus⟩
  · refine ⟨us ++ [u], ?_⟩
    rw [hu, hus, Books.after, Books.after, List.foldl_append, List.foldl_cons, List.foldl_nil,
      Books.apply_state]

end IdEffect.Cache
