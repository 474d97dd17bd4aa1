import Mathlib.Algebra.Ring.Nat
import Mathlib.Data.List.AList
import Mathlib.Logic.Function.Basic
import IdEffect.Lib.Transition
import IdEffect.Coordination.Deferred

set_option autoImplicit false

/-! # The cache: `resource/cache.rs`

Any number of calls of `get` and `invalidate` share the state of one cache. The state sits under the
mutex of a `SynchronizedRef`, so each `modify` is one step; between them a call awaits its load,
completes its `Deferred` or waits on another call's.

The first half is the state and its updates, generic in keys, values and the handles of deferreds.
The second half is the system. A `get` makes at most one `Deferred`, so deferreds are known by the
call that made them; and since the cache never looks into its values, the system runs it on values
that carry the call whose load produced them (`Loaded`). What a load answers, and when, is up to the
run. `began`, `ended`, `loadAt` and `invalidatedAt` keep the books: the number of the step in which
a call began and returned, in which its load started, and in which an `invalidate` last updated the
state of a key. -/

namespace IdEffect.Cache

open Transition

variable {K V D : Type} [DecidableEq K]

/-! ## The state -/

structure CacheStats where
  hits : ℕ
  misses : ℕ
  evictions : ℕ
  loads : ℕ
  deriving DecidableEq, Repr

/-- `u64::saturating_add(1)`. -/
def saturatingInc (n : ℕ) : ℕ := min (n + 1) (2 ^ 64 - 1)

structure Cached (V : Type) where
  value : V
  storedAt : ℕ
  deriving DecidableEq, Repr

/-- The hash maps are lists of pairs with distinct keys, in the order of their iteration. -/
structure CacheState (K V D : Type) where
  entries : AList fun _ : K => Cached V
  inFlight : AList fun _ : K => D
  lru : List K
  stats : CacheStats

namespace CacheState

def default : CacheState K V D where
  entries := ∅
  inFlight := ∅
  lru := []
  stats := ⟨0, 0, 0, 0⟩

end CacheState

/-- Ages are measured with a monotone clock; `elapsed` saturates at zero. -/
def isFresh (ttl : Option ℕ) (now : ℕ) (c : Cached V) : Bool :=
  match ttl with
  | none => true
  | some t => decide (now - c.storedAt ≤ t)

def removeLru (lru : List K) (key : K) : List K := lru.filter fun k => decide (k ≠ key)

def touchLru (lru : List K) (key : K) : List K := removeLru lru key ++ [key]

namespace CacheState

/-- Remove an entry to honor the capacity. -/
def evict (s : CacheState K V D) (victim : K) : CacheState K V D :=
  { s with
    entries := s.entries.erase victim
    stats := { s.stats with evictions := saturatingInc s.stats.evictions } }

/-- The `while` of `evict_lru`. A round takes a key from the deque, or an entry if the deque is
    empty: their number is enough `fuel`. -/
def evictLoop (capacity : ℕ) : ℕ → CacheState K V D → CacheState K V D
  | 0, s => s
  | fuel + 1, s =>
      if s.entries.keys.length ≥ capacity then
        match s.lru with
        | victim :: rest =>
            if victim ∈ s.entries then evictLoop capacity fuel ({ s with lru := rest }.evict victim)
            else evictLoop capacity fuel { s with lru := rest }
        | [] =>
            -- LRU desynced: drop one arbitrary entry
            match s.entries.keys with
            | k :: _ => evictLoop capacity fuel ({ s with lru := removeLru s.lru k }.evict k)
            | [] => s
      else s

def evictLru (capacity : ℕ) (s : CacheState K V D) : CacheState K V D :=
  if capacity = 0 then s else evictLoop capacity (s.lru.length + s.entries.keys.length) s

def putEntry (capacity now : ℕ) (key : K) (value : V) (s : CacheState K V D) : CacheState K V D :=
  let s := if ¬ key ∈ s.entries ∧ capacity > 0 ∧ s.entries.keys.length ≥ capacity then
      s.evictLru capacity else s
  { s with
    entries := s.entries.insert key ⟨value, now⟩
    lru := removeLru s.lru key ++ [key] }

/-! ## The updates -/

/-- A lookup is answered from a fresh entry. -/
def countHit (key : K) (s : CacheState K V D) : CacheState K V D :=
  { s with
    stats := { s.stats with hits := saturatingInc s.stats.hits }
    lru := touchLru s.lru key }

def countMiss (s : CacheState K V D) : CacheState K V D :=
  { s with stats := { s.stats with misses := saturatingInc s.stats.misses } }

end CacheState

inductive Phase1 (V D : Type) where
  | hit (v : V)
  | join (d : D)
  | miss

inductive Phase2 (V D : Type) where
  | hit (v : V)
  | follow (d : D)
  | leader (d : D)

namespace CacheState

def phase1 (ttl : Option ℕ) (now : ℕ) (key : K) (s : CacheState K V D) :
    Phase1 V D × CacheState K V D :=
  match (s.entries.lookup key).filter (isFresh ttl now) with
  | some c => (.hit c.value, s.countHit key)
  | none =>
      match s.inFlight.lookup key with
      | some d => (.join d, s.countMiss)
      | none => (.miss, s)

def phase2 (ttl : Option ℕ) (now : ℕ) (key : K) (dLeader : D) (s : CacheState K V D) :
    Phase2 V D × CacheState K V D :=
  match (s.entries.lookup key).filter (isFresh ttl now) with
  | some c => (.hit c.value, s.countHit key)
  | none =>
      match s.inFlight.lookup key with
      | some d => (.follow d, s.countMiss)
      | none =>
          (.leader dLeader, { s.countMiss with inFlight := s.inFlight.insert key dLeader })

/-- The leader's update after a load that failed. -/
def failCleanup (key : K) (s : CacheState K V D) : CacheState K V D :=
  { s with inFlight := s.inFlight.erase key }

def countLoad (s : CacheState K V D) : CacheState K V D :=
  { s with stats := { s.stats with loads := saturatingInc s.stats.loads } }

/-- The leader's update after a load that succeeded: the value is stored if the leader `won`. -/
def commit (capacity now : ℕ) (key : K) (won : Bool) (value : V) (s : CacheState K V D) :
    CacheState K V D :=
  if won then ((s.failCleanup key).putEntry capacity now key value).countLoad else s.failCleanup key

def invalidate (key : K) (s : CacheState K V D) : Option D × CacheState K V D :=
  (s.inFlight.lookup key,
    { s with
      entries := s.entries.erase key
      lru := removeLru s.lru key
      inFlight := s.inFlight.erase key })

/-! ## What the updates do to the maps -/

variable {s : CacheState K V D}

/-- The `while` ends by its condition: there is room for one more entry. -/
theorem evictLoop_length {capacity : ℕ} (hcap : 0 < capacity) (fuel : ℕ) (s : CacheState K V D)
    (hfuel : s.lru.length + s.entries.keys.length ≤ fuel) :
    (evictLoop capacity fuel s).entries.keys.length < capacity := by
  induction fuel generalizing s with
  | zero =>
      have hnone : s.entries.keys.length = 0 := by omega
      show s.entries.keys.length < capacity
      omega
  | succ fuel ih =>
      unfold evictLoop
      split
      · split
        · next victim rest hlru =>
            rw [hlru, List.length_cons] at hfuel
            split
            · refine ih _ ?_
              have hle := List.length_erase_le (a := victim) (l := s.entries.keys)
              show rest.length + (s.entries.erase victim).keys.length ≤ fuel
              rw [AList.keys_erase]
              omega
            · refine ih _ ?_
              show rest.length + s.entries.keys.length ≤ fuel
              omega
        · next hlru =>
            split
            · next k ks hkeys =>
                refine ih _ ?_
                show (removeLru s.lru k).length + (s.entries.erase k).keys.length ≤ fuel
                rw [AList.keys_erase, hkeys, List.erase_cons_head, hlru]
                rw [hlru, hkeys, List.length_cons] at hfuel
                simpa [removeLru] using hfuel
            · next hkeys =>
                rw [hkeys]
                exact hcap
      · omega

theorem evictLru_length {capacity : ℕ} (hcap : 0 < capacity) (s : CacheState K V D) :
    (s.evictLru capacity).entries.keys.length < capacity := by
  rw [evictLru, if_neg (by omega)]
  exact evictLoop_length hcap _ s (Nat.le_refl _)

theorem evictLoop_inFlight (capacity fuel : ℕ) (s : CacheState K V D) :
    (evictLoop capacity fuel s).inFlight = s.inFlight := by
  induction fuel generalizing s with
  | zero => rfl
  | succ fuel ih =>
      unfold evictLoop
      split
      · split
        · split
          · exact ih _
          · exact ih _
        · split
          · exact ih _
          · rfl
      · rfl

/-- Eviction only takes entries away. -/
theorem evict_lookup {victim k : K} {c : Cached V}
    (h : (s.evict victim).entries.lookup k = some c) : s.entries.lookup k = some c := by
  have hk : k ≠ victim := by
    rintro rfl
    simp [evict] at h
  simpa [evict, hk] using h

theorem evictLoop_lookup {capacity fuel : ℕ} {k : K} {c : Cached V}
    (h : (evictLoop capacity fuel s).entries.lookup k = some c) : s.entries.lookup k = some c := by
  induction fuel generalizing s with
  | zero => exact h
  | succ fuel ih =>
      unfold evictLoop at h
      split at h
      · split at h
        · next victim rest _ =>
            split at h
            · exact evict_lookup (s := { s with lru := rest }) (ih h)
            · exact ih (s := { s with lru := rest }) h
        · split at h
          · next first _ _ =>
              exact evict_lookup (s := { s with lru := removeLru s.lru first }) (ih h)
          · exact h
      · exact h

@[simp] theorem evictLru_inFlight (capacity : ℕ) : (s.evictLru capacity).inFlight = s.inFlight := by
  unfold evictLru
  split
  · rfl
  · exact evictLoop_inFlight capacity _ s

theorem evictLru_lookup {capacity : ℕ} {k : K} {c : Cached V}
    (h : (s.evictLru capacity).entries.lookup k = some c) : s.entries.lookup k = some c := by
  unfold evictLru at h
  split at h
  · exact h
  · exact evictLoop_lookup h

@[simp] theorem putEntry_inFlight (capacity now : ℕ) (key : K) (v : V) :
    (s.putEntry capacity now key v).inFlight = s.inFlight := by
  unfold putEntry
  split <;> simp

theorem putEntry_lookup {capacity now : ℕ} {key k : K} {v : V} {c : Cached V}
    (h : (s.putEntry capacity now key v).entries.lookup k = some c) :
    s.entries.lookup k = some c ∨ k = key ∧ c.value = v := by
  by_cases hk : k = key
  · subst hk
    simp only [putEntry, AList.lookup_insert, Option.some.injEq] at h
    exact .inr ⟨rfl, h ▸ rfl⟩
  · simp only [putEntry, AList.lookup_insert_ne hk] at h
    split at h
    · exact .inl (evictLru_lookup h)
    · exact .inl h

@[simp] theorem commit_inFlight (capacity now : ℕ) (key : K) (won : Bool) (v : V) :
    (s.commit capacity now key won v).inFlight = s.inFlight.erase key := by
  unfold commit
  split
  · exact putEntry_inFlight capacity now key v
  · rfl

/-- A commit adds at most its own value, and only if the leader won. -/
theorem commit_lookup {capacity now : ℕ} {key k : K} {won : Bool} {v : V} {c : Cached V}
    (h : (s.commit capacity now key won v).entries.lookup k = some c) :
    s.entries.lookup k = some c ∨ won = true ∧ k = key ∧ c.value = v := by
  unfold commit at h
  split at h
  · next hwon =>
      rcases putEntry_lookup h with hold | hnew
      · exact .inl hold
      · exact .inr ⟨hwon, hnew⟩
  · exact .inl h

end CacheState

/-! ## The system -/

/-- A value and the call whose load produced it. -/
structure Loaded (V Tid : Type) where
  value : V
  loader : Tid
  deriving DecidableEq, Repr

/-- The fields of a `Cache` that do not change. The load is left to the run. -/
structure Config where
  capacity : ℕ
  ttl : Option ℕ

/-- Where a call stands. A `get` in `leader`, `loading`, `loaded`, `committing` or `failing` was
    made the leader of its key; `got` and `invalidated` have returned. -/
inductive Call (K V E Tid : Type) where
  | idle
  | phase1 (key : K)
  | phase2 (key : K)
  | waiting (key : K) (d : Tid)
  | leader (key : K)
  | loading (key : K)
  | loaded (key : K) (result : Except E V)
  | committing (key : K) (v : V) (won : Bool)
  | failing (key : K) (e : E)
  | got (key : K) (result : Except (Cause E) (Loaded V Tid))
  | invalidating (key : K)
  | interrupting (key : K) (d : Tid)
  | invalidated (key : K)

/-- `now` is the time of the monotone clock, `fiber` the next fresh fiber id, `clock` the number of
    the next step. -/
structure Sys (K V E Tid : Type) where
  state : CacheState K (Loaded V Tid) Tid
  deferred : Tid → Deferred (Loaded V Tid) E
  calls : Tid → Call K V E Tid
  now : ℕ
  fiber : ℕ
  clock : ℕ
  began : Tid → ℕ
  ended : Tid → ℕ
  loadAt : Tid → ℕ
  invalidatedAt : K → ℕ

inductive Label (K V E Tid : Type) where
  | get (t : Tid) (key : K)
  | invalidate (t : Tid) (key : K)
  | step (t : Tid)
  | loaded (t : Tid) (result : Except E V)
  | tick (d : ℕ)

variable {E Tid : Type} [DecidableEq Tid]

namespace Sys

def init : Sys K V E Tid where
  state := .default
  deferred := fun _ => .make
  calls := fun _ => .idle
  now := 0
  fiber := 1
  clock := 1
  began := fun _ => 0
  ended := fun _ => 0
  loadAt := fun _ => 0
  invalidatedAt := fun _ => 0

/-- A call moves on. -/
def setCall (s : Sys K V E Tid) (t : Tid) (c : Call K V E Tid) : Sys K V E Tid :=
  { s with calls := Function.update s.calls t c, clock := s.clock + 1 }

def start (s : Sys K V E Tid) (t : Tid) (c : Call K V E Tid) : Sys K V E Tid :=
  { s with began := Function.update s.began t s.clock }.setCall t c

def finish (s : Sys K V E Tid) (t : Tid) (c : Call K V E Tid) : Sys K V E Tid :=
  { s with ended := Function.update s.ended t s.clock }.setCall t c

def startLoad (s : Sys K V E Tid) (t : Tid) (key : K) : Sys K V E Tid :=
  { s with loadAt := Function.update s.loadAt t s.clock }.setCall t (.loading key)

def setState (s : Sys K V E Tid) (st : CacheState K (Loaded V Tid) Tid) : Sys K V E Tid :=
  { s with state := st }

def setDeferred (s : Sys K V E Tid) (d : Tid) (x : Deferred (Loaded V Tid) E) : Sys K V E Tid :=
  { s with deferred := Function.update s.deferred d x }

/-- The state update of `invalidate`. -/
def drop (s : Sys K V E Tid) (key : K) : Sys K V E Tid :=
  { s with
    state := (s.state.invalidate key).2
    invalidatedAt := Function.update s.invalidatedAt key s.clock }

/-- The interrupt of `invalidate`. A fiber id is drawn only if it comes first. -/
def interrupt (s : Sys K V E Tid) (d : Tid) : Sys K V E Tid :=
  { s.setDeferred d ((s.deferred d).interrupt s.fiber).2 with
    fiber := if ((s.deferred d).interrupt s.fiber).1 then s.fiber + 1 else s.fiber }

end Sys

def stepCall (cache : Config) (s : Sys K V E Tid) (t : Tid) : Option (Sys K V E Tid) :=
  match s.calls t with
  | .phase1 key =>
      match s.state.phase1 cache.ttl s.now key with
      | (.hit v, st) => some ((s.setState st).finish t (.got key (.ok v)))
      | (.join d, st) => some ((s.setState st).setCall t (.waiting key d))
      | (.miss, st) => some ((s.setState st).setCall t (.phase2 key))
  | .phase2 key =>
      match s.state.phase2 cache.ttl s.now key t with
      | (.hit v, st) => some ((s.setState st).finish t (.got key (.ok v)))
      | (.follow d, st) => some ((s.setState st).setCall t (.waiting key d))
      | (.leader _, st) => some ((s.setState st).setCall t (.leader key))
  | .waiting key d =>
      match (s.deferred d).wait with
      | some result => some (s.finish t (.got key result))
      | none => none
  | .leader key => some (s.startLoad t key)
  | .loaded key (.ok v) =>
      match (s.deferred t).succeed ⟨v, t⟩ with
      | (won, d) => some ((s.setDeferred t d).setCall t (.committing key v won))
  | .loaded key (.error e) =>
      match (s.deferred t).fail e with
      | (_, d) => some ((s.setDeferred t d).setCall t (.failing key e))
  | .committing key v won =>
      some ((s.setState (s.state.commit cache.capacity s.now key won ⟨v, t⟩)).finish t
        (.got key (.ok ⟨v, t⟩)))
  | .failing key e =>
      some ((s.setState (s.state.failCleanup key)).finish t (.got key (.error (.fail e))))
  | .invalidating key =>
      match (s.state.invalidate key).1 with
      | some d => some ((s.drop key).setCall t (.interrupting key d))
      | none => some ((s.drop key).finish t (.invalidated key))
  | .interrupting key d => some ((s.interrupt d).finish t (.invalidated key))
  | _ => none

def step (cache : Config) (s : Sys K V E Tid) : Label K V E Tid → Option (Sys K V E Tid)
  | .get t key =>
      match s.calls t with
      | .idle => some (s.start t (.phase1 key))
      | _ => none
  | .invalidate t key =>
      match s.calls t with
      | .idle => some (s.start t (.invalidating key))
      | _ => none
  | .step t => stepCall cache s t
  | .loaded t result =>
      match s.calls t with
      | .loading key => some (s.setCall t (.loaded key result))
      | _ => none
  | .tick d => some { s with now := s.now + d }

/-! ## What a step can do -/

variable {cache : Config} {s s' : Sys K V E Tid} {l : Label K V E Tid}

inductive Step (cache : Config) (s : Sys K V E Tid) : Label K V E Tid → Sys K V E Tid → Prop
  | get {t : Tid} {key : K} (h : s.calls t = .idle) :
      Step cache s (.get t key) (s.start t (.phase1 key))
  | invalidate {t : Tid} {key : K} (h : s.calls t = .idle) :
      Step cache s (.invalidate t key) (s.start t (.invalidating key))
  | hit {t : Tid} {key : K} {c : Cached (Loaded V Tid)}
      (h : s.calls t = .phase1 key ∨ s.calls t = .phase2 key)
      (hc : s.state.entries.lookup key = some c) (hf : isFresh cache.ttl s.now c = true) :
      Step cache s (.step t)
        ((s.setState (s.state.countHit key)).finish t (.got key (.ok c.value)))
  | join {t d : Tid} {key : K} (h : s.calls t = .phase1 key ∨ s.calls t = .phase2 key)
      (hd : s.state.inFlight.lookup key = some d) :
      Step cache s (.step t) ((s.setState s.state.countMiss).setCall t (.waiting key d))
  | miss {t : Tid} {key : K} (h : s.calls t = .phase1 key) :
      Step cache s (.step t) (s.setCall t (.phase2 key))
  | lead {t : Tid} {key : K} (h : s.calls t = .phase2 key)
      (hd : s.state.inFlight.lookup key = none) :
      Step cache s (.step t)
        ((s.setState { s.state.countMiss with inFlight := s.state.inFlight.insert key t }).setCall t
          (.leader key))
  | wait {t d : Tid} {key : K} {result : Except (Cause E) (Loaded V Tid)}
      (h : s.calls t = .waiting key d) (hr : (s.deferred d).wait = some result) :
      Step cache s (.step t) (s.finish t (.got key result))
  | startLoad {t : Tid} {key : K} (h : s.calls t = .leader key) :
      Step cache s (.step t) (s.startLoad t key)
  | loaded {t : Tid} {key : K} {result : Except E V} (h : s.calls t = .loading key) :
      Step cache s (.loaded t result) (s.setCall t (.loaded key result))
  | succeed {t : Tid} {key : K} {v : V} (h : s.calls t = .loaded key (.ok v)) :
      Step cache s (.step t)
        ((s.setDeferred t ((s.deferred t).succeed ⟨v, t⟩).2).setCall t
          (.committing key v ((s.deferred t).succeed ⟨v, t⟩).1))
  | fail {t : Tid} {key : K} {e : E} (h : s.calls t = .loaded key (.error e)) :
      Step cache s (.step t)
        ((s.setDeferred t ((s.deferred t).fail e).2).setCall t (.failing key e))
  | commit {t : Tid} {key : K} {v : V} {won : Bool} (h : s.calls t = .committing key v won) :
      Step cache s (.step t)
        ((s.setState (s.state.commit cache.capacity s.now key won ⟨v, t⟩)).finish t
          (.got key (.ok ⟨v, t⟩)))
  | cleanup {t : Tid} {key : K} {e : E} (h : s.calls t = .failing key e) :
      Step cache s (.step t)
        ((s.setState (s.state.failCleanup key)).finish t (.got key (.error (.fail e))))
  | dropLoad {t d : Tid} {key : K} (h : s.calls t = .invalidating key)
      (hd : s.state.inFlight.lookup key = some d) :
      Step cache s (.step t) ((s.drop key).setCall t (.interrupting key d))
  | drop {t : Tid} {key : K} (h : s.calls t = .invalidating key)
      (hd : s.state.inFlight.lookup key = none) :
      Step cache s (.step t) ((s.drop key).finish t (.invalidated key))
  | interrupt {t d : Tid} {key : K} (h : s.calls t = .interrupting key d) :
      Step cache s (.step t) ((s.interrupt d).finish t (.invalidated key))
  | tick {d : ℕ} : Step cache s (.tick d) { s with now := s.now + d }

theorem Step.of_phase1 {t : Tid} {key : K} (h : s.calls t = .phase1 key)
    (hs : stepCall cache s t = some s') : Step cache s (.step t) s' := by
  simp only [stepCall, h, CacheState.phase1] at hs
  cases hc : (s.state.entries.lookup key).filter (isFresh cache.ttl s.now) with
  | some c =>
      rw [hc] at hs
      obtain ⟨hlook, hfresh⟩ := Option.filter_eq_some_iff.1 hc
      exact Option.some.inj hs ▸ .hit (.inl h) hlook hfresh
  | none =>
      rw [hc] at hs
      cases hd : s.state.inFlight.lookup key with
      | some d =>
          rw [hd] at hs
          exact Option.some.inj hs ▸ .join (.inl h) hd
      | none =>
          rw [hd] at hs
          exact Option.some.inj hs ▸ .miss h

theorem Step.of_phase2 {t : Tid} {key : K} (h : s.calls t = .phase2 key)
    (hs : stepCall cache s t = some s') : Step cache s (.step t) s' := by
  simp only [stepCall, h, CacheState.phase2] at hs
  cases hc : (s.state.entries.lookup key).filter (isFresh cache.ttl s.now) with
  | some c =>
      rw [hc] at hs
      obtain ⟨hlook, hfresh⟩ := Option.filter_eq_some_iff.1 hc
      exact Option.some.inj hs ▸ .hit (.inr h) hlook hfresh
  | none =>
      rw [hc] at hs
      cases hd : s.state.inFlight.lookup key with
      | some d =>
          rw [hd] at hs
          exact Option.some.inj hs ▸ .join (.inr h) hd
      | none =>
          rw [hd] at hs
          exact Option.some.inj hs ▸ .lead h hd

theorem Step.of_stepCall {t : Tid} (hs : stepCall cache s t = some s') :
    Step cache s (.step t) s' := by
  cases h : s.calls t with
  | phase1 key => exact .of_phase1 h hs
  | phase2 key => exact .of_phase2 h hs
  | waiting key d =>
      simp only [stepCall, h] at hs
      split at hs
      · next result hr => exact Option.some.inj hs ▸ .wait h hr
      · cases hs
  | leader key =>
      simp only [stepCall, h] at hs
      exact Option.some.inj hs ▸ .startLoad h
  | loaded key result =>
      cases result with
      | ok v =>
          simp only [stepCall, h] at hs
          exact Option.some.inj hs ▸ .succeed h
      | error e =>
          simp only [stepCall, h] at hs
          exact Option.some.inj hs ▸ .fail h
  | committing key v won =>
      simp only [stepCall, h] at hs
      exact Option.some.inj hs ▸ .commit h
  | failing key e =>
      simp only [stepCall, h] at hs
      exact Option.some.inj hs ▸ .cleanup h
  | invalidating key =>
      simp only [stepCall, h, CacheState.invalidate] at hs
      split at hs
      · next d hd => exact Option.some.inj hs ▸ .dropLoad h hd
      · next hd => exact Option.some.inj hs ▸ .drop h hd
  | interrupting key d =>
      simp only [stepCall, h] at hs
      exact Option.some.inj hs ▸ .interrupt h
  | idle => simp [stepCall, h] at hs
  | loading key => simp [stepCall, h] at hs
  | got key result => simp [stepCall, h] at hs
  | invalidated key => simp [stepCall, h] at hs

theorem Step.of_step (hs : step cache s l = some s') : Step cache s l s' := by
  cases l with
  | get t key =>
      simp only [step] at hs
      split at hs
      · next h => exact Option.some.inj hs ▸ .get h
      · cases hs
  | invalidate t key =>
      simp only [step] at hs
      split at hs
      · next h => exact Option.some.inj hs ▸ .invalidate h
      · cases hs
  | step t => exact .of_stepCall hs
  | loaded t result =>
      simp only [step] at hs
      split at hs
      · next key h => exact Option.some.inj hs ▸ .loaded h
      · cases hs
  | tick d => exact Option.some.inj hs ▸ .tick

/-! ## What a step leaves alone -/

omit [DecidableEq K] in
@[simp] theorem setCall_calls (t u : Tid) (c : Call K V E Tid) :
    (s.setCall t c).calls u = if u = t then c else s.calls u := by
  simp only [Sys.setCall, Function.update_apply]

omit [DecidableEq K] in
@[simp] theorem start_calls (t u : Tid) (c : Call K V E Tid) :
    (s.start t c).calls u = if u = t then c else s.calls u := setCall_calls t u c

omit [DecidableEq K] in
@[simp] theorem finish_calls (t u : Tid) (c : Call K V E Tid) :
    (s.finish t c).calls u = if u = t then c else s.calls u := setCall_calls t u c

omit [DecidableEq K] in
@[simp] theorem startLoad_calls (t u : Tid) (key : K) :
    (s.startLoad t key).calls u = if u = t then .loading key else s.calls u := setCall_calls t u _

omit [DecidableEq K] [DecidableEq Tid] in
@[simp] theorem setState_calls (st : CacheState K (Loaded V Tid) Tid) :
    (s.setState st).calls = s.calls := rfl

omit [DecidableEq K] in
@[simp] theorem setDeferred_calls (d : Tid) (x : Deferred (Loaded V Tid) E) :
    (s.setDeferred d x).calls = s.calls := rfl

omit [DecidableEq Tid] in
@[simp] theorem drop_calls (key : K) : (s.drop key).calls = s.calls := rfl

omit [DecidableEq K] in
@[simp] theorem interrupt_calls (d : Tid) : (s.interrupt d).calls = s.calls := rfl

/-- The key a call was made the leader of, until it has cleaned up. -/
def Call.leads : Call K V E Tid → Option K
  | .leader key => some key
  | .loading key => some key
  | .loaded key _ => some key
  | .committing key _ _ => some key
  | .failing key _ => some key
  | _ => none

/-- The key whose state an `invalidate` has updated. -/
def Call.updated : Call K V E Tid → Option K
  | .interrupting key _ => some key
  | .invalidated key => some key
  | _ => none

/-- A call begins once. -/
theorem Step.began_eq (h : Step cache s l s') {u : Tid} (hu : s.calls u ≠ .idle) :
    s'.began u = s.began u := by
  cases h with
  | get h =>
      refine Function.update_of_ne ?_ _ _
      rintro rfl
      exact hu h
  | invalidate h =>
      refine Function.update_of_ne ?_ _ _
      rintro rfl
      exact hu h
  | _ => rfl

/-- The load of a call starts once, when it has become the leader. -/
theorem Step.loadAt_eq (h : Step cache s l s') (w : Tid) :
    s'.loadAt w = s.loadAt w ∨
      ∃ key, s.calls w = .leader key ∧ s'.calls w = .loading key ∧ s'.loadAt w = s.clock := by
  cases h with
  | @startLoad t key h =>
      by_cases hw : w = t
      · subst hw
        exact .inr ⟨key, h, by simp, Function.update_self _ _ _⟩
      · exact .inl (Function.update_of_ne hw _ _)
  | _ => exact .inl rfl

/-- An `invalidate` updates the state once. -/
theorem Step.updated (h : Step cache s l s') {u : Tid} {k : K}
    (hu : (s'.calls u).updated = some k) :
    (s.calls u).updated = some k ∨ l = .step u ∧ s.calls u = .invalidating k := by
  cases h with
  | tick => exact .inl hu
  | @dropLoad t d key h hd =>
      simp only [setCall_calls, drop_calls] at hu
      split at hu
      · next hut =>
          subst hut
          obtain rfl : key = k := Option.some.inj hu
          exact .inr ⟨rfl, h⟩
      · exact .inl hu
  | @drop t key h hd =>
      simp only [finish_calls, drop_calls] at hu
      split at hu
      · next hut =>
          subst hut
          obtain rfl : key = k := Option.some.inj hu
          exact .inr ⟨rfl, h⟩
      · exact .inl hu
  | @interrupt t d key h =>
      simp only [finish_calls, interrupt_calls] at hu
      split at hu
      · next hut => exact .inl (by rw [hut, h]; exact hu)
      · exact .inl hu
  | _ =>
      simp only [start_calls, setCall_calls, finish_calls, startLoad_calls, setState_calls,
        setDeferred_calls] at hu
      split at hu
      · simp [Call.updated] at hu
      · exact .inl hu

end IdEffect.Cache
