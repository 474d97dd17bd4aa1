import IdEffect.Resource.CacheCoalescing

set_option autoImplicit false

/-! # `invalidate` as a barrier

After `invalidate` has returned, no `get` that starts should be answered with a value whose load had
started before the `invalidate` began. There are three ways for a `get` to be answered: from an
entry, from the `Deferred` of the leader it joined, or by its own load. The second is safe, since
`invalidate` empties the slot of its key and a leader takes a slot only before its load; so is the
third. The first is not: `invalidate` relies on its interrupt to keep a leader that is still loading
from storing its value, and the leader may complete its `Deferred` before the interrupt comes, or
may have completed it before and not committed yet. Its commit then stores the value after the
`invalidate` (`invalidate_is_no_barrier`).

`Current` excludes just that: a leader that completes its `Deferred` first, or has done so and not
yet committed, while an `invalidate` that began after its load started has updated the state. -/

namespace IdEffect.Cache

open Transition

variable {K V E Tid : Type} [DecidableEq K] [DecidableEq Tid]
variable {cache : Config} {s s' : Sys K V E Tid} {l : Label K V E Tid}

/-! ## The promise and when it is kept -/

/-- A `get` that began after an `invalidate` of its key had returned is answered with a value whose
    load started after that `invalidate` began. -/
def Barrier (s : Sys K V E Tid) : Prop :=
  ∀ t u k x, s.calls t = .got k (.ok x) → s.calls u = .invalidated k → s.ended u < s.began t →
    s.began u < s.loadAt x.loader

/-- No leader comes first on its `Deferred` after the update of an `invalidate` that began after its
    load had started, and no such `invalidate` updates the state between that and the commit. -/
def Current (s : Sys K V E Tid) : Label K V E Tid → Prop
  | .step t =>
      (∀ k v, s.calls t = .loaded k (.ok v) → (s.deferred t).slot = none →
        ∀ u, (s.calls u).updated = some k → s.began u < s.loadAt t) ∧
      ∀ k, s.calls t = .invalidating k →
        ∀ w v, s.calls w = .committing k v true → s.began t < s.loadAt w
  | _ => True

/-! ## Where values come from -/

theorem lookup_of_erase {B : Type} {m : AList fun _ : K => B} {key k : K} {b : B}
    (h : (m.erase key).lookup k = some b) : m.lookup k = some b := by
  have hk : k ≠ key := by
    rintro rfl
    rw [AList.lookup_erase] at h
    cases h
  rwa [AList.lookup_erase_ne hk] at h

/-- The key a `get` is after and the call whose load it will be answered from. -/
def Call.awaits (t : Tid) : Call K V E Tid → Option (K × Tid)
  | .waiting key d => some (key, d)
  | .leader key => some (key, t)
  | .loading key => some (key, t)
  | .loaded key _ => some (key, t)
  | .committing key _ _ => some (key, t)
  | _ => none

/-- The load of the call, if it had one, is over. -/
def Call.isPast : Call K V E Tid → Bool
  | .committing _ _ _ => true
  | .got _ _ => true
  | _ => false

/-- The load of `w` starts after `u` began: it has done so, or is still to start. -/
def Newer (s : Sys K V E Tid) (w u : Tid) : Prop :=
  (∃ k, s.calls w = .leader k) ∨ s.began u < s.loadAt w

theorem Step.isPast (h : Step cache s l s') {w : Tid} (hw : (s.calls w).isPast = true) :
    (s'.calls w).isPast = true ∧ s'.loadAt w = s.loadAt w := by
  constructor
  · cases h with
    | tick => exact hw
    | commit h =>
        simp only [finish_calls, setState_calls]
        split
        · rfl
        · exact hw
    | join h hd =>
        simp only [setCall_calls, setState_calls]
        split
        · next hwt => rcases h with h | h <;> simp [hwt, h, Call.isPast] at hw
        · exact hw
    | _ =>
        simp only [start_calls, setCall_calls, finish_calls, startLoad_calls, setState_calls,
          setDeferred_calls, drop_calls, interrupt_calls]
        split
        · next hwt => simp_all [Call.isPast]
        · exact hw
  · rcases h.loadAt_eq w with heq | ⟨key, hlead, -, -⟩
    · exact heq
    · rw [hlead] at hw
      cases hw

/-- A leader either stays one or starts its load. -/
theorem Step.leader (h : Step cache s l s') {w : Tid} {k : K} (hw : s.calls w = .leader k) :
    s'.calls w = .leader k ∨ s'.loadAt w = s.clock := by
  cases h with
  | tick => exact .inl hw
  | @startLoad t key h =>
      by_cases hwt : w = t
      · exact .inr (hwt ▸ Function.update_self _ _ _)
      · exact .inl (by rw [startLoad_calls, if_neg hwt, hw])
  | _ =>
      refine .inl ?_
      simp only [start_calls, setCall_calls, finish_calls, setState_calls, setDeferred_calls,
        drop_calls, interrupt_calls]
      split
      · next hwt => simp_all
      · exact hw

theorem Newer.step {w u : Tid} (hn : Newer s w u) (h : Step cache s l s')
    (hu : s.calls u ≠ .idle) (hlt : s.began u < s.clock) : Newer s' w u := by
  have hbegan := h.began_eq hu
  rcases hn with ⟨k, hw⟩ | hn
  · rcases h.leader hw with hw' | hat
    · exact .inl ⟨k, hw'⟩
    · exact .inr (by omega)
  · rcases h.loadAt_eq w with hat | ⟨-, -, -, hat⟩
    · exact .inr (by omega)
    · exact .inr (by omega)

/-- A call that has returned from `invalidate` did so before, or does so now. -/
theorem Step.invalidated (h : Step cache s l s') {u : Tid} {k : K}
    (hu : s'.calls u = .invalidated k) :
    s.calls u = .invalidated k ∧ s'.ended u = s.ended u ∨
      s.calls u ≠ .idle ∧ s'.ended u = s.clock := by
  cases h with
  | tick => exact .inl ⟨hu, rfl⟩
  | @drop t key h hd =>
      by_cases hut : u = t
      · refine .inr ⟨by simp [hut, h], hut ▸ Function.update_self _ _ _⟩
      · rw [finish_calls, if_neg hut] at hu
        exact .inl ⟨hu, Function.update_of_ne hut _ _⟩
  | @interrupt t d key h =>
      by_cases hut : u = t
      · refine .inr ⟨by simp [hut, h], hut ▸ Function.update_self _ _ _⟩
      · rw [finish_calls, if_neg hut] at hu
        exact .inl ⟨hu, Function.update_of_ne hut _ _⟩
  | _ =>
      simp only [start_calls, setCall_calls, finish_calls, startLoad_calls, setState_calls,
        setDeferred_calls, drop_calls] at hu
      split at hu
      · cases hu
      · next hut => exact .inl ⟨hu, by first | rfl | exact Function.update_of_ne hut _ _⟩

/-- A slot is taken by the leader phase 2 has just elected. -/
theorem Step.flight (h : Step cache s l s') {w : Tid} {k : K}
    (hw : s'.state.inFlight.lookup k = some w) :
    s.state.inFlight.lookup k = some w ∨ s'.calls w = .leader k := by
  cases h with
  | @lead t key h hd =>
      by_cases hk : k = key
      · subst hk
        obtain rfl : t = w := Option.some.inj ((AList.lookup_insert _).symm.trans hw)
        exact .inr (by simp)
      · exact .inl ((AList.lookup_insert_ne hk).symm.trans hw)
  | @commit t key v won h =>
      have hw' : (s.state.commit cache.capacity s.now key won ⟨v, t⟩).inFlight.lookup k = some w :=
        hw
      rw [CacheState.commit_inFlight] at hw'
      exact .inl (lookup_of_erase hw')
  | cleanup h => exact .inl (lookup_of_erase hw)
  | dropLoad h hd => exact .inl (lookup_of_erase hw)
  | drop h hd => exact .inl (lookup_of_erase hw)
  | _ => exact .inl hw

/-- An entry is stored by the commit of a leader that won. -/
theorem Step.entries (h : Step cache s l s') {k : K} {c : Cached (Loaded V Tid)}
    (hc : s'.state.entries.lookup k = some c) :
    s.state.entries.lookup k = some c ∨
      ∃ t v, s.calls t = .committing k v true ∧ c.value = ⟨v, t⟩ := by
  cases h with
  | @commit t key v won h =>
      rcases CacheState.commit_lookup hc with hold | ⟨rfl, rfl, hv⟩
      · exact .inl hold
      · exact .inr ⟨t, v, h, hv⟩
  | dropLoad h hd => exact .inl (lookup_of_erase hc)
  | drop h hd => exact .inl (lookup_of_erase hc)
  | _ => exact .inl hc

/-- The update of an `invalidate` leaves nothing behind. -/
theorem Step.dropped {u : Tid} {k : K} (h : Step cache s (.step u) s')
    (hu : s.calls u = .invalidating k) :
    s'.state.inFlight.lookup k = none ∧ s'.state.entries.lookup k = none := by
  cases h with
  | dropLoad h hd =>
      obtain rfl : _ = k := Call.invalidating.inj (h.symm.trans hu)
      exact ⟨AList.lookup_erase _ _, AList.lookup_erase _ _⟩
  | drop h hd =>
      obtain rfl : _ = k := Call.invalidating.inj (h.symm.trans hu)
      exact ⟨AList.lookup_erase _ _, AList.lookup_erase _ _⟩
  | hit h hc hf => simp [hu] at h
  | join h hd => simp [hu] at h
  | _ => simp_all

omit [DecidableEq K] in
/-- Completing some `Deferred` with a failure makes no slot hold a value. -/
theorem slot_of_update_failure {d w : Tid} {c : Cause E} {x : Loaded V Tid}
    (h : (Function.update s.deferred d ((s.deferred d).complete (.failure c)).2 w).slot =
      some (.success x)) : (s.deferred w).slot = some (.success x) := by
  rw [Function.update_apply] at h
  split at h
  · next hwd =>
      subst hwd
      rw [Deferred.complete_slot, Option.some.injEq] at h
      cases hslot : (s.deferred w).slot with
      | none =>
          rw [hslot, Option.getD_none] at h
          cases h
      | some e =>
          rw [hslot, Option.getD_some] at h
          exact congrArg some h
  · exact h

/-- A `Deferred` is completed with a value by its own leader only. -/
theorem Step.slot (h : Step cache s l s') {w : Tid} {x : Loaded V Tid}
    (hw : (s'.deferred w).slot = some (.success x)) :
    (s.deferred w).slot = some (.success x) ∨
      x.loader = w ∧ (s'.calls w).isPast = true := by
  cases h with
  | @succeed t key v h =>
      have hw' : (Function.update s.deferred t ((s.deferred t).succeed ⟨v, t⟩).2 w).slot =
          some (.success x) := hw
      rw [Function.update_apply] at hw'
      split at hw'
      · next hwt =>
          subst hwt
          rw [Deferred.succeed, Deferred.complete_slot, Option.some.injEq] at hw'
          cases hslot : (s.deferred w).slot with
          | none =>
              rw [hslot, Option.getD_none] at hw'
              cases hw'
              exact .inr ⟨rfl, by simp [Call.isPast]⟩
          | some e =>
              rw [hslot, Option.getD_some] at hw'
              exact .inl (congrArg some hw')
      · exact .inl hw'
  | @fail t key e h => exact .inl (slot_of_update_failure hw)
  | @interrupt t d key h => exact .inl (slot_of_update_failure hw)
  | _ => exact .inl hw

/-- A leader comes first on its own `Deferred`, which was empty. -/
theorem Step.won (h : Step cache s l s') {w : Tid} {k : K} {v : V}
    (hw : s'.calls w = .committing k v true) :
    s.calls w = .committing k v true ∨
      l = .step w ∧ s.calls w = .loaded k (.ok v) ∧ (s.deferred w).slot = none := by
  cases h with
  | tick => exact .inl hw
  | @succeed t key v' h =>
      simp only [setCall_calls, setDeferred_calls] at hw
      split at hw
      · next hwt =>
          subst hwt
          obtain ⟨rfl, rfl, hwon⟩ := Call.committing.inj hw
          exact .inr ⟨rfl, h, Deferred.complete_fst.1 hwon⟩
      · exact .inl hw
  | _ =>
      simp only [start_calls, setCall_calls, finish_calls, startLoad_calls, setState_calls,
        setDeferred_calls, drop_calls, interrupt_calls] at hw
      split at hw
      · cases hw
      · exact .inl hw

/-- A `get` comes to await the load of the call it finds in the slot, or its own. -/
theorem Step.awaits (h : Step cache s l s') {t w : Tid} {k : K}
    (ht : (s'.calls t).awaits t = some (k, w)) :
    s.calls t ≠ .idle ∧ ((s.calls t).awaits t = some (k, w) ∨
      s.state.inFlight.lookup k = some w ∨ s'.calls w = .leader k) := by
  have hidle : ∀ {c : Call K V E Tid}, c.awaits t = some (k, w) → c ≠ .idle := by
    rintro _ hc rfl
    cases hc
  -- a step of the leader towards its commit
  have hgo : ∀ {u : Tid} {key : K} {c : Call K V E Tid}, (s.calls u).awaits u = some (key, u) →
      c.awaits u = some (key, u) → (if t = u then c else s.calls t).awaits t = some (k, w) →
      s.calls t ≠ .idle ∧ (s.calls t).awaits t = some (k, w) := by
    intro u key c hold hnew hc
    split at hc
    · next htu =>
        subst htu
        rw [hold, ← hnew]
        refine ⟨?_, hc⟩
        rintro hi
        rw [hi] at hold
        cases hold
    · exact ⟨hidle hc, hc⟩
  cases h with
  | tick => exact ⟨hidle ht, .inl ht⟩
  | @join u d key h hd =>
      simp only [setCall_calls, setState_calls] at ht
      split at ht
      · next htu =>
          cases ht
          exact ⟨by rcases h with h | h <;> simp [htu, h], .inr (.inl hd)⟩
      · exact ⟨hidle ht, .inl ht⟩
  | @lead u key h hd =>
      simp only [setCall_calls, setState_calls] at ht ⊢
      split at ht
      · next htu =>
          subst htu
          cases ht
          exact ⟨by rw [h]; nofun, .inr (.inr (if_pos rfl))⟩
      · exact ⟨hidle ht, .inl ht⟩
  | startLoad h =>
      rw [startLoad_calls] at ht
      exact (hgo (by rw [h]; rfl) rfl ht).imp_right .inl
  | loaded h =>
      rw [setCall_calls] at ht
      exact (hgo (by rw [h]; rfl) rfl ht).imp_right .inl
  | succeed h =>
      rw [setCall_calls] at ht
      exact (hgo (by rw [h]; rfl) rfl ht).imp_right .inl
  | _ =>
      simp only [start_calls, setCall_calls, finish_calls, setState_calls, setDeferred_calls,
        drop_calls, interrupt_calls] at ht
      split at ht
      · cases ht
      · exact ⟨hidle ht, .inl ht⟩

/-- The four ways for a `get` to be answered with a value. -/
theorem Step.got (h : Step cache s l s') {t : Tid} {k : K} {x : Loaded V Tid}
    (ht : s'.calls t = .got k (.ok x)) :
    s.calls t ≠ .idle ∧ (s.calls t = .got k (.ok x) ∨
      (∃ c, s.state.entries.lookup k = some c ∧ c.value = x) ∨
      (∃ d, s.calls t = .waiting k d ∧ (s.deferred d).slot = some (.success x)) ∨
      ∃ v won, s.calls t = .committing k v won ∧ x = ⟨v, t⟩) := by
  cases h with
  | tick => exact ⟨by rw [show s.calls t = _ from ht]; nofun, .inl ht⟩
  | hit h hc hf =>
      simp only [finish_calls, setState_calls] at ht
      split at ht
      · next htt =>
          obtain ⟨rfl, hx⟩ := Call.got.inj ht
          refine ⟨by rcases h with h | h <;> simp [htt, h], .inr (.inl ⟨_, hc, Except.ok.inj hx⟩)⟩
      · exact ⟨by rw [ht]; nofun, .inl ht⟩
  | wait h hr =>
      simp only [finish_calls] at ht
      split at ht
      · next htt =>
          obtain ⟨rfl, rfl⟩ := Call.got.inj ht
          subst htt
          exact ⟨by rw [h]; nofun, .inr (.inr (.inl ⟨_, h, Deferred.wait_eq_ok.1 hr⟩))⟩
      · exact ⟨by rw [ht]; nofun, .inl ht⟩
  | commit h =>
      simp only [finish_calls, setState_calls] at ht
      split at ht
      · next htt =>
          obtain ⟨rfl, hx⟩ := Call.got.inj ht
          subst htt
          exact ⟨by rw [h]; nofun, .inr (.inr (.inr ⟨_, _, h, (Except.ok.inj hx).symm⟩))⟩
      · exact ⟨by rw [ht]; nofun, .inl ht⟩
  | _ =>
      simp only [start_calls, setCall_calls, finish_calls, startLoad_calls, setState_calls,
        setDeferred_calls, drop_calls, interrupt_calls] at ht
      split at ht
      · cases ht
      · exact ⟨by rw [ht]; nofun, .inl ht⟩

/-! ## The invariant -/

structure BarrierInv (s : Sys K V E Tid) : Prop where
  began_lt : ∀ u, s.began u < s.clock
  slots : ∀ w x, (s.deferred w).slot = some (.success x) → x.loader = w ∧ (s.calls w).isPast = true
  flight : ∀ k w u, s.state.inFlight.lookup k = some w → (s.calls u).updated = some k → Newer s w u
  entries : ∀ k c, s.state.entries.lookup k = some c → (s.calls c.value.loader).isPast = true ∧
    ∀ u, (s.calls u).updated = some k → s.began u < s.loadAt c.value.loader
  won : ∀ w k v, s.calls w = .committing k v true →
    ∀ u, (s.calls u).updated = some k → s.began u < s.loadAt w
  awaits : ∀ t k w, (s.calls t).awaits t = some (k, w) →
    ∀ u, s.calls u = .invalidated k → s.ended u < s.began t → Newer s w u
  got : ∀ t k x, s.calls t = .got k (.ok x) → (s.calls x.loader).isPast = true
  barrier : Barrier s

omit [DecidableEq Tid] in
theorem barrierInv_init : BarrierInv (Sys.init : Sys K V E Tid) where
  began_lt := fun _ => Nat.one_pos
  slots := fun _ _ h => nomatch h
  flight := fun _ _ _ h => nomatch h
  entries := fun _ _ h => nomatch h
  won := fun _ _ _ h => nomatch h
  awaits := fun _ _ _ h => nomatch h
  got := fun _ _ _ h => nomatch h
  barrier := fun _ _ _ _ h => nomatch h

theorem Step.began_lt (h : Step cache s l s') (hs : ∀ u, s.began u < s.clock) (u : Tid) :
    s'.began u < s'.clock := by
  have hu := hs u
  cases h with
  | @get t key h =>
      show Function.update s.began t s.clock u < s.clock + 1
      rw [Function.update_apply]
      split <;> omega
  | @invalidate t key h =>
      show Function.update s.began t s.clock u < s.clock + 1
      rw [Function.update_apply]
      split <;> omega
  | tick => exact hu
  | _ => exact Nat.lt_succ_of_lt hu

omit [DecidableEq K] [DecidableEq Tid] in
theorem ne_idle_of_updated {u : Tid} {k : K} (h : (s.calls u).updated = some k) :
    s.calls u ≠ .idle := by
  intro hu
  rw [hu] at h
  cases h

omit [DecidableEq K] [DecidableEq Tid] in
theorem updated_of_invalidated {u : Tid} {k : K} (h : s.calls u = .invalidated k) :
    (s.calls u).updated = some k := by
  rw [h]
  rfl

omit [DecidableEq K] [DecidableEq Tid] in
theorem Newer.lt {w u : Tid} (h : Newer s w u) (hw : (s.calls w).isPast = true) :
    s.began u < s.loadAt w := by
  rcases h with ⟨k, hk⟩ | h
  · rw [hk] at hw
    cases hw
  · exact h

/-- A load that is over stays newer. -/
theorem Step.lt (h : Step cache s l s') {w u : Tid} (hw : (s.calls w).isPast = true)
    (hu : s.calls u ≠ .idle) (hlt : s.began u < s.loadAt w) : s'.began u < s'.loadAt w := by
  rw [h.began_eq hu, (h.isPast hw).2]
  exact hlt

/-- If a `get` has begun by now, an `invalidate` that returned before it returned before now. -/
theorem Step.invalidated_before (h : Step cache s l s') (hs : ∀ u, s.began u < s.clock) {t u : Tid}
    {k : K} (ht : s.calls t ≠ .idle) (hu : s'.calls u = .invalidated k)
    (hlt : s'.ended u < s'.began t) : s.calls u = .invalidated k ∧ s.ended u < s.began t := by
  have hbegan := h.began_eq ht
  have hnow := hs t
  rcases h.invalidated hu with ⟨hold, hended⟩ | ⟨-, hended⟩
  · exact ⟨hold, by omega⟩
  · omega

namespace BarrierInv

variable (hs : BarrierInv s) (h : Step cache s l s')
include hs h

theorem step_slots (w : Tid) (x : Loaded V Tid) (hx : (s'.deferred w).slot = some (.success x)) :
    x.loader = w ∧ (s'.calls w).isPast = true := by
  rcases h.slot hx with hold | hnew
  · obtain ⟨hl, hp⟩ := hs.slots w x hold
    exact ⟨hl, (h.isPast hp).1⟩
  · exact hnew

theorem step_flight (k : K) (w u : Tid) (hw : s'.state.inFlight.lookup k = some w)
    (hu : (s'.calls u).updated = some k) : Newer s' w u := by
  rcases h.updated hu with hold | ⟨rfl, hinv⟩
  · rcases h.flight hw with hw | hlead
    · exact (hs.flight k w u hw hold).step h (ne_idle_of_updated hold) (hs.began_lt u)
    · exact .inl ⟨k, hlead⟩
  · rw [(h.dropped hinv).1] at hw
    cases hw

theorem step_entries (k : K) (c : Cached (Loaded V Tid))
    (hc : s'.state.entries.lookup k = some c) : (s'.calls c.value.loader).isPast = true ∧
      ∀ u, (s'.calls u).updated = some k → s'.began u < s'.loadAt c.value.loader := by
  -- what is known of the call that loaded the entry, in the state before the step
  have hload : (s.calls c.value.loader).isPast = true ∧
      ∀ u, (s.calls u).updated = some k → s.began u < s.loadAt c.value.loader := by
    rcases h.entries hc with hold | ⟨t, v, ht, hv⟩
    · exact hs.entries k c hold
    · rw [hv]
      exact ⟨by rw [ht]; rfl, hs.won t k v ht⟩
  refine ⟨(h.isPast hload.1).1, fun u hu => ?_⟩
  rcases h.updated hu with hold | ⟨rfl, hinv⟩
  · exact h.lt hload.1 (ne_idle_of_updated hold) (hload.2 u hold)
  · rw [(h.dropped hinv).2] at hc
    cases hc

theorem step_won (hg : Current s l) (w : Tid) (k : K) (v : V)
    (hw : s'.calls w = .committing k v true) (u : Tid) (hu : (s'.calls u).updated = some k) :
    s'.began u < s'.loadAt w := by
  rcases h.won hw with hold | ⟨rfl, hloaded, hslot⟩
  · have hpast : (s.calls w).isPast = true := by rw [hold]; rfl
    rcases h.updated hu with hu | ⟨rfl, hinv⟩
    · exact h.lt hpast (ne_idle_of_updated hu) (hs.won w k v hold u hu)
    · exact h.lt hpast (by rw [hinv]; nofun) (hg.2 k hinv w v hold)
  · rcases h.updated hu with hu | ⟨heq, hinv⟩
    · have hlt := hg.1 k v hloaded hslot u hu
      rcases h.loadAt_eq w with hat | ⟨key, hlead, -, -⟩
      · rw [hat, h.began_eq (ne_idle_of_updated hu)]
        exact hlt
      · rw [hloaded] at hlead
        cases hlead
    · cases heq
      rw [hloaded] at hinv
      cases hinv

theorem step_awaits (t : Tid) (k : K) (w : Tid) (ht : (s'.calls t).awaits t = some (k, w)) (u : Tid)
    (hu : s'.calls u = .invalidated k) (hlt : s'.ended u < s'.began t) : Newer s' w u := by
  obtain ⟨hidle, hcases⟩ := h.awaits ht
  obtain ⟨hold, hlt⟩ := h.invalidated_before hs.began_lt hidle hu hlt
  have hup := updated_of_invalidated hold
  rcases hcases with ht | hw | hlead
  · exact (hs.awaits t k w ht u hold hlt).step h (ne_idle_of_updated hup) (hs.began_lt u)
  · exact (hs.flight k w u hw hup).step h (ne_idle_of_updated hup) (hs.began_lt u)
  · exact .inl ⟨k, hlead⟩

theorem step_got (t : Tid) (k : K) (x : Loaded V Tid) (ht : s'.calls t = .got k (.ok x)) :
    (s'.calls x.loader).isPast = true ∧ ∀ u, s'.calls u = .invalidated k →
      s'.ended u < s'.began t → s'.began u < s'.loadAt x.loader := by
  obtain ⟨hidle, hcases⟩ := h.got ht
  -- what is known of the call that loaded the value, in the state before the step
  have hload : (s.calls x.loader).isPast = true ∧ ∀ u, s.calls u = .invalidated k →
      s.ended u < s.began t → s.began u < s.loadAt x.loader := by
    rcases hcases with ht | ⟨c, hc, rfl⟩ | ⟨d, hd, hslot⟩ | ⟨v, won, hcom, rfl⟩
    · exact ⟨hs.got t k x ht, fun u => hs.barrier t u k x ht⟩
    · obtain ⟨hpast, hlt⟩ := hs.entries k c hc
      exact ⟨hpast, fun u hu _ => hlt u (updated_of_invalidated hu)⟩
    · obtain ⟨hl, hpast⟩ := hs.slots d x hslot
      rw [hl]
      exact ⟨hpast, fun u hu hlt => (hs.awaits t k d (by rw [hd]; rfl) u hu hlt).lt hpast⟩
    · have hpast : (s.calls t).isPast = true := by rw [hcom]; rfl
      exact ⟨hpast, fun u hu hlt => (hs.awaits t k t (by rw [hcom]; rfl) u hu hlt).lt hpast⟩
  refine ⟨(h.isPast hload.1).1, fun u hu hlt => ?_⟩
  obtain ⟨hold, hlt⟩ := h.invalidated_before hs.began_lt hidle hu hlt
  exact h.lt hload.1 (by rw [hold]; nofun) (hload.2 u hold hlt)

theorem step (hg : Current s l) : BarrierInv s' where
  began_lt := h.began_lt hs.began_lt
  slots := hs.step_slots h
  flight := hs.step_flight h
  entries := hs.step_entries h
  won := hs.step_won h hg
  awaits := hs.step_awaits h
  got := fun t k x ht => (hs.step_got h t k x ht).1
  barrier := fun t u k x ht => (hs.step_got h t k x ht).2 u

end BarrierInv

/-! ## The results -/

/-- A `get` that starts after an `invalidate` has returned is answered with a value loaded before
    the `invalidate` began: the leader completes its `Deferred` before the interrupt and commits
    after the update (the first run), or completes it between the update and the interrupt (the
    second). -/
theorem invalidate_is_no_barrier :
    (∃ s : Sys ℕ ℕ ℕ ℕ, run (step ⟨8, none⟩) Sys.init [.get 0 7, .step 0, .step 0, .step 0,
        .loaded 0 (.ok 1), .step 0, .invalidate 1 7, .step 1, .step 1, .step 0, .get 2 7,
        .step 2] = some s ∧
      s.calls 2 = .got 7 (.ok ⟨1, 0⟩) ∧ s.calls 1 = .invalidated 7 ∧ s.ended 1 < s.began 2 ∧
      s.loadAt 0 < s.began 1) ∧
    (∃ s : Sys ℕ ℕ ℕ ℕ, run (step ⟨8, none⟩) Sys.init [.get 0 7, .step 0, .step 0, .step 0,
        .invalidate 1 7, .step 1, .loaded 0 (.ok 1), .step 0, .step 1, .step 0, .get 2 7,
        .step 2] = some s ∧
      s.calls 2 = .got 7 (.ok ⟨1, 0⟩) ∧ s.calls 1 = .invalidated 7 ∧ s.ended 1 < s.began 2 ∧
      s.loadAt 0 < s.began 1) ∧
    ¬ ∀ (ls : List (Label ℕ ℕ ℕ ℕ)) (s : Sys ℕ ℕ ℕ ℕ),
      run (step ⟨8, none⟩) Sys.init ls = some s → Barrier s := by
  refine ⟨⟨_, rfl, rfl, rfl, by decide, by decide⟩, ⟨_, rfl, rfl, rfl, by decide, by decide⟩,
    fun h => ?_⟩
  have hbarrier := h [.get 0 7, .step 0, .step 0, .step 0, .invalidate 1 7, .step 1,
    .loaded 0 (.ok 1), .step 0, .step 1, .step 0, .get 2 7, .step 2] _ rfl
  have hlt := hbarrier 2 1 7 ⟨1, 0⟩ rfl rfl (by decide)
  exact absurd hlt (by decide)

/-- **`invalidate` is a barrier** in every run in which no leader completes its `Deferred` first, or
    still has its commit ahead after that, once an `invalidate` that began after its load started
    has updated the state. -/
theorem invalidate_is_barrier (cache : Config) (ls : List (Label K V E Tid)) (s : Sys K V E Tid)
    (hrun : run (step cache) Sys.init ls = some s)
    (hg : Along (step cache) Current Sys.init ls) : Barrier s :=
  (run_invariant_along (I := BarrierInv) (fun _ _ _ hs hg h => hs.step (.of_step h) hg)
    barrierInv_init hg hrun).barrier

/-- A leader interrupted by an `invalidate` loses, and the next `get` loads anew. -/
theorem invalidate_is_barrier_interrupt : ∃ s : Sys ℕ ℕ ℕ ℕ,
    run (step ⟨8, none⟩) Sys.init [.get 0 7, .step 0, .step 0, .step 0, .invalidate 1 7, .step 1,
      .step 1, .loaded 0 (.ok 1), .step 0, .step 0, .get 2 7, .step 2, .step 2, .step 2,
      .loaded 2 (.ok 5), .step 2, .step 2] = some s ∧
    s.calls 1 = .invalidated 7 ∧ s.ended 1 < s.began 2 ∧ s.calls 2 = .got 7 (.ok ⟨5, 2⟩) ∧
    Barrier s := by
  refine ⟨_, rfl, rfl, by decide, rfl, invalidate_is_barrier ⟨8, none⟩ [.get 0 7, .step 0, .step 0,
    .step 0, .invalidate 1 7, .step 1, .step 1, .loaded 0 (.ok 1), .step 0, .step 0, .get 2 7,
    .step 2, .step 2, .step 2, .loaded 2 (.ok 5), .step 2, .step 2] _ rfl ?_⟩
  refine along_cons rfl trivial <| along_cons rfl ⟨nofun, nofun⟩ <|
    along_cons rfl ⟨nofun, nofun⟩ <| along_cons rfl ⟨nofun, nofun⟩ <| along_cons rfl trivial <|
    along_cons rfl ⟨nofun, fun k hk w v hw => ?_⟩ <| along_cons rfl ⟨nofun, nofun⟩ <|
    along_cons rfl trivial <| along_cons rfl ⟨nofun, nofun⟩ <|
    along_cons rfl ⟨nofun, nofun⟩ <| along_cons rfl trivial <| along_cons rfl ⟨nofun, nofun⟩ <|
    along_cons rfl ⟨nofun, nofun⟩ <| along_cons rfl ⟨nofun, nofun⟩ <| along_cons rfl trivial <|
    along_cons rfl ⟨fun k v hk _ u hu => ?_, nofun⟩ <| along_cons rfl ⟨nofun, nofun⟩ trivial
  · -- nobody is about to commit when the `invalidate` updates the state
    match w, hw with
    | 0, hw => cases hw
    | 1, hw => cases hw
    | w + 2, hw => cases hw
  · -- the second load started after the `invalidate` began
    match u, hu with
    | 0, hu => cases hu
    | 1, _ => decide
    | 2, hu => cases hu
    | u + 3, hu => cases hu

/-! ## The condition is needed

A step that breaks `Current` leaves a run that goes wrong: the leader commits, the `invalidate`
returns, and the next `get` is answered with the old value. -/

theorem Step.ended_lt (h : Step cache s l s') (hs : ∀ u, s.ended u < s.clock) (u : Tid) :
    s'.ended u < s'.clock := by
  have hu := hs u
  have hfinish : ∀ t : Tid, Function.update s.ended t s.clock u < s.clock + 1 := by
    intro t
    rw [Function.update_apply]
    split <;> omega
  cases h with
  | hit h hc hf => exact hfinish _
  | wait h hr => exact hfinish _
  | commit h => exact hfinish _
  | cleanup h => exact hfinish _
  | drop h hd => exact hfinish _
  | interrupt h => exact hfinish _
  | tick => exact hu
  | _ => exact Nat.lt_succ_of_lt hu

theorem step_phase1_hit {t : Tid} {k : K} {c : Cached (Loaded V Tid)} (ht : s.calls t = .phase1 k)
    (hc : s.state.entries.lookup k = some c) (hf : isFresh cache.ttl s.now c = true) :
    step cache s (.step t) =
      some ((s.setState (s.state.countHit k)).finish t (.got k (.ok c.value))) := by
  simp only [step, stepCall, ht, CacheState.phase1, hc, Option.filter_some, hf, if_true]

/-- A `get` that starts now is answered with the value of `w`, loaded before `u`, which has
    returned. -/
theorem stale_get (cache : Config) {t w u : Tid} {k : K} {v : V}
    (hentry : s.state.entries.lookup k = some ⟨⟨v, w⟩, s.now⟩) (hu : s.calls u = .invalidated k)
    (hended : s.ended u < s.clock) (hold : ¬ s.began u < s.loadAt w) (ht : s.calls t = .idle) :
    ∃ ls s', run (step cache) s ls = some s' ∧ ¬ Barrier s' := by
  have hfresh : isFresh cache.ttl s.now (⟨⟨v, w⟩, s.now⟩ : Cached (Loaded V Tid)) = true := by
    unfold isFresh
    split <;> simp
  have hut : u ≠ t := by
    rintro rfl
    rw [ht] at hu
    cases hu
  have hstart : step cache s (.get t k) = some (s.start t (.phase1 k)) := by
    simp only [step, ht]
  have hhit : step cache (s.start t (.phase1 k)) (.step t) = _ :=
    step_phase1_hit (by simp) hentry hfresh
  refine exists_run_cons hstart (exists_run_cons hhit ⟨[], _, rfl, fun hb => hold ?_⟩)
  have hlt := hb t u k ⟨v, w⟩ (by simp) (by simp [hut, hu]) ?_
  · have hbegan : Function.update s.began t s.clock u = s.began u := Function.update_of_ne hut _ _
    exact hbegan ▸ hlt
  · show Function.update s.ended t (s.clock + 1) u < Function.update s.began t s.clock t
    rw [Function.update_of_ne hut, Function.update_self]
    exact hended

/-- The `invalidate` makes its interrupt and returns. -/
theorem stale_interrupt (cache : Config) {t w u d : Tid} {k : K} {v : V}
    (hentry : s.state.entries.lookup k = some ⟨⟨v, w⟩, s.now⟩)
    (hu : s.calls u = .interrupting k d) (hold : ¬ s.began u < s.loadAt w)
    (ht : s.calls t = .idle) :
    ∃ ls s', run (step cache) s ls = some s' ∧ ¬ Barrier s' := by
  have htu : t ≠ u := by
    rintro rfl
    rw [ht] at hu
    cases hu
  have hstep : step cache s (.step u) = some ((s.interrupt d).finish u (.invalidated k)) := by
    simp only [step, stepCall, hu]
  refine exists_run_cons hstep (stale_get (u := u) (t := t) cache hentry (by simp) ?_ hold
    (by simp [htu, ht]))
  show Function.update s.ended u s.clock u < s.clock + 1
  rw [Function.update_self]
  exact Nat.lt_succ_self _

/-- The leader commits. -/
theorem stale_commit (cache : Config) {t w u : Tid} {k : K} {v : V}
    (hw : s.calls w = .committing k v true) (hu : (s.calls u).updated = some k)
    (hended : s.ended u < s.clock) (hold : ¬ s.began u < s.loadAt w) (ht : s.calls t = .idle) :
    ∃ ls s', run (step cache) s ls = some s' ∧ ¬ Barrier s' := by
  have huw : u ≠ w := by
    rintro rfl
    rw [hw] at hu
    cases hu
  have htw : t ≠ w := by
    rintro rfl
    rw [ht] at hw
    cases hw
  have hstep : step cache s (.step w) =
      some ((s.setState (s.state.commit cache.capacity s.now k true ⟨v, w⟩)).finish w
        (.got k (.ok ⟨v, w⟩))) := by
    simp only [step, stepCall, hw]
  have hentry : (s.state.commit cache.capacity s.now k true ⟨v, w⟩).entries.lookup k =
      some ⟨⟨v, w⟩, s.now⟩ := AList.lookup_insert _
  refine exists_run_cons hstep ?_
  cases hc : s.calls u with
  | interrupting k' d =>
      rw [hc] at hu
      obtain rfl : k' = k := Option.some.inj hu
      exact stale_interrupt (u := u) (t := t) (d := d) cache hentry (by simp [huw, hc]) hold
        (by simp [htw, ht])
  | invalidated k' =>
      rw [hc] at hu
      obtain rfl : k' = k := Option.some.inj hu
      refine stale_get (u := u) (t := t) cache hentry (by simp [huw, hc]) ?_ hold
        (by simp [htw, ht])
      show Function.update s.ended w s.clock u < s.clock + 1
      rw [Function.update_of_ne huw]
      exact Nat.lt_succ_of_lt hended
  | _ =>
      rw [hc] at hu
      cases hu

/-- **A step that breaks `Current` breaks the barrier**: whatever state it is taken in, a few more
    steps and a `get` that starts after the `invalidate` has returned is answered with the old
    value. So the condition of `invalidate_is_barrier` asks for no more than it must. -/
theorem stale_of_not_current (cache : Config) {ls : List (Label K V E Tid)}
    (hrun : run (step cache) Sys.init ls = some s) (h : step cache s l = some s')
    (hp : ¬ Current s l) {t : Tid} (ht : s'.calls t = .idle) :
    ∃ ls' s'', run (step cache) s' ls' = some s'' ∧ ¬ Barrier s'' := by
  have hended : ∀ u, s.ended u < s.clock :=
    run_invariant (I := fun s => ∀ u, s.ended u < s.clock)
      (fun _ _ _ hs h => (Step.of_step h).ended_lt hs) (fun _ => Nat.one_pos) hrun
  have hended' := (Step.of_step h).ended_lt hended
  cases l with
  | step x =>
      simp only [Current, not_and_or, not_forall] at hp
      rcases hp with ⟨k, v, hx, hslot, u, hu, hold⟩ | ⟨k, hx, w, v, hw, hold⟩
      · -- the leader comes first on its `Deferred`
        have hux : u ≠ x := by
          rintro rfl
          rw [hx] at hu
          cases hu
        have hwon : ((s.deferred x).succeed ⟨v, x⟩).1 = true := Deferred.complete_fst.2 hslot
        simp only [step, stepCall, hx, Option.some.injEq] at h
        subst h
        exact stale_commit (w := x) (u := u) (t := t) (k := k) (v := v) cache (by simp [hwon])
          (by simp [hux, hu]) (hended' u) hold ht
      · -- the `invalidate` updates the state before the commit
        have hwx : w ≠ x := by
          rintro rfl
          rw [hx] at hw
          cases hw
        simp only [step, stepCall, hx] at h
        split at h
        · obtain rfl := Option.some.inj h
          exact stale_commit (w := w) (u := x) (t := t) (k := k) (v := v) cache
            (by simp [hwx, hw]) (by simp [Call.updated]) (hended' x) hold ht
        · obtain rfl := Option.some.inj h
          exact stale_commit (w := w) (u := x) (t := t) (k := k) (v := v) cache
            (by simp [hwx, hw]) (by simp [Call.updated]) (hended' x) hold ht
  | _ => exact absurd trivial hp

/-! ## The windows

If slots are cleaned up by their owners, `Current` can only fail in two windows: between the update
of an `invalidate` and its interrupt, and between the completion of a `Deferred` and the commit. -/

/-- No leader completes its `Deferred` while an `invalidate` is about to interrupt it, and no
    `invalidate` updates the state while a leader that came first has its commit ahead. -/
def OutsideWindows (s : Sys K V E Tid) : Label K V E Tid → Prop
  | .step t =>
      (∀ k v, s.calls t = .loaded k (.ok v) → ∀ u, s.calls u ≠ .interrupting k t) ∧
      ∀ k, s.calls t = .invalidating k → ∀ w v, s.calls w ≠ .committing k v true
  | _ => True

/-- A leader whose `Deferred` is empty holds the slot of its key, or is about to be interrupted by
    the `invalidate` that took it. -/
def Revocable (s : Sys K V E Tid) : Prop :=
  ∀ w k, (s.calls w).leads = some k → (s.deferred w).slot = none →
    s.state.inFlight.lookup k = some w ∨ ∃ u, s.calls u = .interrupting k w

/-- A leader takes the slot of its key when it becomes one. -/
theorem Step.leads (h : Step cache s l s') {w : Tid} {k : K} (hw : (s'.calls w).leads = some k) :
    (s.calls w).leads = some k ∨ s'.state.inFlight.lookup k = some w := by
  -- a step of the leader towards its cleanup
  have hgo : ∀ {t : Tid} {c : Call K V E Tid}, c.leads = (s.calls t).leads →
      (if w = t then c else s.calls w).leads = some k → (s.calls w).leads = some k := by
    intro t c heq hc
    split at hc
    · next hwt => rw [hwt, ← heq, hc]
    · exact hc
  cases h with
  | tick => exact .inl hw
  | @lead t key h hd =>
      simp only [setCall_calls, setState_calls] at hw
      split at hw
      · next hwt =>
          cases hw
          exact .inr (hwt ▸ AList.lookup_insert _)
      · exact .inl hw
  | startLoad h =>
      rw [startLoad_calls] at hw
      exact .inl (hgo (by rw [h]; rfl) hw)
  | loaded h =>
      rw [setCall_calls] at hw
      exact .inl (hgo (by rw [h]; rfl) hw)
  | succeed h =>
      rw [setCall_calls] at hw
      exact .inl (hgo (by rw [h]; rfl) hw)
  | fail h =>
      rw [setCall_calls] at hw
      exact .inl (hgo (by rw [h]; rfl) hw)
  | _ =>
      simp only [start_calls, setCall_calls, finish_calls, setState_calls, drop_calls,
        interrupt_calls] at hw
      split at hw
      · cases hw
      · exact .inl hw

omit [DecidableEq K] in
theorem slot_of_update_eq_none {d w : Tid} {exit : Exit (Loaded V Tid) E}
    (h : (Function.update s.deferred d ((s.deferred d).complete exit).2 w).slot = none) :
    w ≠ d ∧ (s.deferred w).slot = none := by
  rw [Function.update_apply] at h
  split at h
  · rw [Deferred.complete_slot] at h
    cases h
  · next hwd => exact ⟨hwd, h⟩

theorem Step.slot_eq_none (h : Step cache s l s') {w : Tid} (hw : (s'.deferred w).slot = none) :
    (s.deferred w).slot = none := by
  cases h with
  | succeed h => exact (slot_of_update_eq_none hw).2
  | fail h => exact (slot_of_update_eq_none hw).2
  | interrupt h => exact (slot_of_update_eq_none hw).2
  | _ => exact hw

/-- An interrupt leaves its `Deferred` completed. -/
theorem Step.interrupting (h : Step cache s l s') {u w : Tid} {k : K}
    (hu : s.calls u = .interrupting k w) (hw : (s'.deferred w).slot = none) :
    s'.calls u = .interrupting k w := by
  cases h with
  | tick => exact hu
  | @interrupt t d key h =>
      have hne := (slot_of_update_eq_none hw).1
      rw [finish_calls, interrupt_calls]
      split
      · next hut =>
          rw [hut, h] at hu
          exact absurd (Call.interrupting.inj hu).2.symm hne
      · exact hu
  | hit h hc hf =>
      rw [finish_calls, setState_calls]
      split
      · next hut => rcases h with h | h <;> simp [hut, h] at hu
      · exact hu
  | join h hd =>
      rw [setCall_calls, setState_calls]
      split
      · next hut => rcases h with h | h <;> simp [hut, h] at hu
      · exact hu
  | _ =>
      simp only [start_calls, setCall_calls, finish_calls, startLoad_calls, setState_calls,
        setDeferred_calls, drop_calls]
      split
      · next hut => simp_all
      · exact hu

theorem Step.leads_of_cleansUp {w : Tid} {k : K} (h : Step cache s (.step w) s')
    (hw : (s.calls w).cleansUp = some k) : (s'.calls w).leads = none := by
  cases h with
  | commit h => simp [Call.leads]
  | cleanup h => simp [Call.leads]
  | hit h hc hf => rcases h with h | h <;> simp [h, Call.cleansUp] at hw
  | join h hd => rcases h with h | h <;> simp [h, Call.cleansUp] at hw
  | _ => simp_all [Call.cleansUp]

/-- An `invalidate` that finds a slot taken will interrupt its owner. -/
theorem Step.takes {u w : Tid} {k : K} (h : Step cache s (.step u) s')
    (hu : s.calls u = .invalidating k) (hw : s.state.inFlight.lookup k = some w) :
    s'.calls u = .interrupting k w := by
  cases h with
  | dropLoad h hd =>
      obtain rfl : _ = k := Call.invalidating.inj (h.symm.trans hu)
      obtain rfl : _ = w := Option.some.inj (hd.symm.trans hw)
      simp
  | drop h hd =>
      obtain rfl : _ = k := Call.invalidating.inj (h.symm.trans hu)
      rw [hd] at hw
      cases hw
  | hit h hc hf => simp [hu] at h
  | join h hd => simp [hu] at h
  | _ => simp_all

theorem Revocable.step (hs : Revocable s) (h : step cache s l = some s') (hown : OwnCleanup s l) :
    Revocable s' := by
  intro w k hw hslot
  have hstep := Step.of_step h
  rcases hstep.leads hw with hold | hnew
  · rcases hs w k hold (hstep.slot_eq_none hslot) with hin | ⟨u, hu⟩
    · by_cases hin' : s'.state.inFlight.lookup k = some w
      · exact .inl hin'
      -- the slot was emptied: not by `w` itself, which still leads, so by an `invalidate`
      · rcases hown.ownerRemoves s' w k h hin hin' with ⟨rfl, hclean⟩ | ⟨u, rfl, hu⟩
        · rw [hstep.leads_of_cleansUp hclean] at hw
          cases hw
        · exact .inr ⟨u, hstep.takes hu hin⟩
    · exact .inr ⟨u, hstep.interrupting hu hslot⟩
  · exact .inl hnew

omit [DecidableEq Tid] in
theorem revocable_init : Revocable (Sys.init : Sys K V E Tid) := fun _ _ h => nomatch h

omit [DecidableEq Tid] in
/-- A leader whose slot has been taken and whose `Deferred` is empty is in the first window. -/
theorem OutsideWindows.current (hg : OutsideWindows s l) (hs : BarrierInv s) (hr : Revocable s) :
    Current s l := by
  cases l with
  | step t =>
      refine ⟨fun k v ht hslot u hu => ?_, fun k hk w v hw => absurd hw (hg.2 k hk w v)⟩
      rcases hr t k (by rw [ht]; rfl) hslot with hin | ⟨u', hu'⟩
      · rcases hs.flight k t u hin hu with ⟨k', hlead⟩ | hlt
        · rw [ht] at hlead
          cases hlead
        · exact hlt
      · exact absurd hu' (hg.1 k v ht u')
  | _ => trivial

/-- **Outside the windows `invalidate` is a barrier**, if slots are cleaned up by their owners. -/
theorem barrier_outsideWindows (cache : Config) {ls : List (Label K V E Tid)} {s : Sys K V E Tid}
    (hrun : run (step cache) Sys.init ls = some s)
    (hg : Along (step cache) (fun s l => OwnCleanup s l ∧ OutsideWindows s l) Sys.init ls) :
    Barrier s := by
  have hinv : BarrierInv s ∧ Revocable s := run_invariant_along
    (I := fun s => BarrierInv s ∧ Revocable s)
    (fun _ _ _ hs hg h => ⟨hs.1.step (.of_step h) (hg.2.current hs.1 hs.2), hs.2.step h hg.1⟩)
    ⟨barrierInv_init, revocable_init⟩ hg hrun
  exact hinv.1.barrier

end IdEffect.Cache
