import IdEffect.Resource.Cache

set_option autoImplicit false

/-! # One load per key

The cache promises one shared load per key: the leader of a key holds the key's slot in `in_flight`
from the moment phase 2 made it the leader until it cleans up, and everybody else joins it. An
`invalidate` empties the slot, so a second leader may come up while the first is still loading; that
is intended. What is not intended is the first leader's cleanup: it removes whatever sits in the
slot of its key, not its own `Deferred`. A third leader then finds the slot empty while the load of
the second is running (`loads_do_not_coalesce`).

The invariant `Owned` says who owns the slot: a leader whose load started after the last
`invalidate`. Every step keeps it except a cleanup that meets another leader's slot (`OwnCleanup`)
and an `invalidate` that falls between the election of a leader and the start of its load, which
then starts without a slot (`LoadStarted`). -/

namespace IdEffect.Cache

open Transition

variable {K V E Tid : Type} [DecidableEq K] [DecidableEq Tid]
variable {cache : Config} {s s' : Sys K V E Tid} {l : Label K V E Tid}

/-! ## The promise and when it is kept -/

/-- At most one running load of a key started after the last `invalidate` of the key took effect. -/
def AtMostOneLoad (s : Sys K V E Tid) : Prop :=
  ∀ t t' k, s.calls t = .loading k → s.calls t' = .loading k →
    s.invalidatedAt k < s.loadAt t → s.invalidatedAt k < s.loadAt t' → t = t'

/-- The key whose slot the call is about to clean up. -/
def Call.cleansUp : Call K V E Tid → Option K
  | .committing key _ _ => some key
  | .failing key _ => some key
  | _ => none

/-- What the step removes from `in_flight` is its own leader's, or an `invalidate` removes it. -/
def OwnerRemoves (cache : Config) (s : Sys K V E Tid) (l : Label K V E Tid) : Prop :=
  ∀ s' t k, step cache s l = some s' → s.state.inFlight.lookup k = some t →
    s'.state.inFlight.lookup k ≠ some t →
    (l = .step t ∧ (s.calls t).cleansUp = some k) ∨ ∃ u, l = .step u ∧ s.calls u = .invalidating k

/-- A leader that cleans up finds its own `Deferred` in the slot of its key, or none. -/
def OwnCleanup (s : Sys K V E Tid) : Label K V E Tid → Prop
  | .step t => ∀ k, (s.calls t).cleansUp = some k →
      ∀ t', s.state.inFlight.lookup k = some t' → t' = t
  | _ => True

/-- An `invalidate` does not fall between the election of a leader and the start of its load. -/
def LoadStarted (s : Sys K V E Tid) : Label K V E Tid → Prop
  | .step u => ∀ k, s.calls u = .invalidating k → ∀ t, s.calls t ≠ .leader k
  | _ => True

/-! ## Who owns the slot -/

structure Owned (s : Sys K V E Tid) : Prop where
  loadAt_lt : ∀ t, s.loadAt t < s.clock
  leader : ∀ t k, s.calls t = .leader k → s.state.inFlight.lookup k = some t
  owner : ∀ t k, (s.calls t).leads = some k → s.invalidatedAt k < s.loadAt t →
    s.state.inFlight.lookup k = some t

omit [DecidableEq Tid] in
theorem Owned.atMostOneLoad (hs : Owned s) : AtMostOneLoad s := by
  intro t t' k ht ht' hat hat'
  have h := hs.owner t k (by rw [ht]; rfl) hat
  have h' := hs.owner t' k (by rw [ht']; rfl) hat'
  exact Option.some.inj (h.symm.trans h')

omit [DecidableEq Tid] in
theorem owned_init : Owned (Sys.init : Sys K V E Tid) where
  loadAt_lt := fun _ => Nat.one_pos
  leader := fun _ _ h => nomatch h
  owner := fun _ _ h => nomatch h

omit [DecidableEq Tid] in
/-- A step that touches no slot and makes no leader. -/
theorem Owned.frame (hs : Owned s) (hin : s'.state.inFlight = s.state.inFlight)
    (hload : s'.loadAt = s.loadAt) (hinv : s'.invalidatedAt = s.invalidatedAt)
    (hclock : s.clock ≤ s'.clock)
    (hcalls : ∀ u k, (s'.calls u).leads = some k → (s.calls u).leads = some k ∧
      (s'.calls u = .leader k → s.calls u = .leader k)) : Owned s' where
  loadAt_lt := fun t => by
    rw [hload]
    exact Nat.lt_of_lt_of_le (hs.loadAt_lt t) hclock
  leader := fun t k ht => by
    rw [hin]
    exact hs.leader t k ((hcalls t k (by rw [ht]; rfl)).2 ht)
  owner := fun t k ht hat => by
    rw [hin]
    rw [hinv, hload] at hat
    exact hs.owner t k (hcalls t k ht).1 hat

/-- The call `t` moves on to `c` without becoming a leader. -/
theorem Owned.move (hs : Owned s) {t : Tid} {c : Call K V E Tid}
    (hin : s'.state.inFlight = s.state.inFlight) (hload : s'.loadAt = s.loadAt)
    (hinv : s'.invalidatedAt = s.invalidatedAt) (hclock : s.clock ≤ s'.clock)
    (hcalls : ∀ u, s'.calls u = if u = t then c else s.calls u)
    (hc : ∀ k, c.leads = some k → (s.calls t).leads = some k ∧ c ≠ .leader k) : Owned s' := by
  refine hs.frame hin hload hinv hclock fun u k hu => ?_
  rw [hcalls u] at hu ⊢
  split at hu
  · next hut =>
      rw [if_pos hut, hut]
      exact ⟨(hc k hu).1, fun h => absurd h (hc k hu).2⟩
  · next hut =>
      rw [if_neg hut]
      exact ⟨hu, id⟩

/-- A leader frees the slot of its key, which is nobody else's, and returns. -/
theorem Owned.cleanup (hs : Owned s) {t : Tid} {key : K}
    {result : Except (Cause E) (Loaded V Tid)} {st : CacheState K (Loaded V Tid) Tid}
    (hst : st.inFlight = s.state.inFlight.erase key)
    (hown : ∀ t', s.state.inFlight.lookup key = some t' → t' = t) :
    Owned ((s.setState st).finish t (.got key result)) := by
  have hkeep : ∀ u k, u ≠ t → s.state.inFlight.lookup k = some u →
      st.inFlight.lookup k = some u := by
    intro u k hut hu
    have hk : k ≠ key := by
      rintro rfl
      exact hut (hown u hu)
    rw [hst, AList.lookup_erase_ne hk, hu]
  refine ⟨fun u => Nat.lt_succ_of_lt (hs.loadAt_lt u), fun u k hu => ?_, fun u k hu hat => ?_⟩
  · simp only [finish_calls, setState_calls] at hu
    split at hu
    · cases hu
    · next hut => exact hkeep u k hut (hs.leader u k hu)
  · simp only [finish_calls, setState_calls] at hu
    split at hu
    · cases hu
    · next hut => exact hkeep u k hut (hs.owner u k hu hat)

/-- An `invalidate` frees the slot: every load of the key that has started is older than it. -/
theorem Owned.drop (hs : Owned s) {key : K} (hlead : ∀ t, s.calls t ≠ .leader key) :
    Owned { s.drop key with clock := s.clock + 1 } := by
  have hkeep : ∀ k, k ≠ key →
      (s.state.invalidate key).2.inFlight.lookup k = s.state.inFlight.lookup k :=
    fun k hk => AList.lookup_erase_ne hk
  refine ⟨fun u => Nat.lt_succ_of_lt (hs.loadAt_lt u), fun u k hu => ?_, fun u k hu hat => ?_⟩
  · have hk : k ≠ key := by
      rintro rfl
      exact hlead u hu
    exact (hkeep k hk).trans (hs.leader u k hu)
  · have hold := hs.loadAt_lt u
    have hat' : Function.update s.invalidatedAt key s.clock k < s.loadAt u := hat
    rw [Function.update_apply] at hat'
    split at hat'
    · omega
    · next hk => exact (hkeep k hk).trans (hs.owner u k hu hat')

theorem Owned.lead (hs : Owned s) {t : Tid} {key : K} (hd : s.state.inFlight.lookup key = none) :
    Owned ((s.setState { s.state.countMiss with
      inFlight := s.state.inFlight.insert key t }).setCall t (.leader key)) := by
  have hkeep : ∀ u k, s.state.inFlight.lookup k = some u →
      (s.state.inFlight.insert key t).lookup k = some u := by
    intro u k hu
    have hk : k ≠ key := by
      rintro rfl
      rw [hd] at hu
      cases hu
    rw [AList.lookup_insert_ne hk, hu]
  refine ⟨fun u => Nat.lt_succ_of_lt (hs.loadAt_lt u), fun u k hu => ?_, fun u k hu hat => ?_⟩
  · simp only [setCall_calls, setState_calls] at hu
    split at hu
    · next hut =>
        cases hu
        exact hut ▸ AList.lookup_insert _
    · exact hkeep u k (hs.leader u k hu)
  · simp only [setCall_calls, setState_calls] at hu
    split at hu
    · next hut =>
        cases hu
        exact hut ▸ AList.lookup_insert _
    · exact hkeep u k (hs.owner u k hu hat)

theorem Owned.startLoad (hs : Owned s) {t : Tid} {key : K} (h : s.calls t = .leader key) :
    Owned (s.startLoad t key) := by
  refine ⟨fun u => ?_, fun u k hu => ?_, fun u k hu hat => ?_⟩
  · have hu := hs.loadAt_lt u
    show Function.update s.loadAt t s.clock u < s.clock + 1
    rw [Function.update_apply]
    split <;> omega
  · simp only [startLoad_calls] at hu
    split at hu
    · cases hu
    · exact hs.leader u k hu
  · simp only [startLoad_calls] at hu
    split at hu
    · next hut =>
        cases hu
        exact hut ▸ hs.leader t key h
    · next hut =>
        have hat' : s.invalidatedAt k < Function.update s.loadAt t s.clock u := hat
        rw [Function.update_of_ne hut] at hat'
        exact hs.owner u k hu hat'

theorem Owned.step (hs : Owned s) (h : Step cache s l s') (hown : OwnCleanup s l)
    (hload : LoadStarted s l) : Owned s' := by
  have hle := Nat.le_succ s.clock
  cases h with
  | get h => exact hs.move rfl rfl rfl hle (start_calls _ · _) nofun
  | invalidate h => exact hs.move rfl rfl rfl hle (start_calls _ · _) nofun
  | hit h hc hf => exact hs.move rfl rfl rfl hle (finish_calls _ · _) nofun
  | join h hd => exact hs.move rfl rfl rfl hle (setCall_calls _ · _) nofun
  | miss h => exact hs.move rfl rfl rfl hle (setCall_calls _ · _) nofun
  | lead h hd => exact hs.lead hd
  | wait h hr => exact hs.move rfl rfl rfl hle (finish_calls _ · _) nofun
  | startLoad h => exact hs.startLoad h
  | loaded h =>
      exact hs.move rfl rfl rfl hle (setCall_calls _ · _) fun k hk => ⟨by rw [h]; exact hk, nofun⟩
  | succeed h =>
      exact hs.move rfl rfl rfl hle (setCall_calls _ · _) fun k hk => ⟨by rw [h]; exact hk, nofun⟩
  | fail h =>
      exact hs.move rfl rfl rfl hle (setCall_calls _ · _) fun k hk => ⟨by rw [h]; exact hk, nofun⟩
  | commit h => exact hs.cleanup (CacheState.commit_inFlight _ _ _ _ _) (hown _ (by rw [h]; rfl))
  | cleanup h => exact hs.cleanup rfl (hown _ (by rw [h]; rfl))
  | dropLoad h hd =>
      exact (hs.drop (hload _ h)).move rfl rfl rfl (Nat.le_refl _) (setCall_calls _ · _) nofun
  | drop h hd =>
      exact (hs.drop (hload _ h)).move rfl rfl rfl (Nat.le_refl _) (finish_calls _ · _) nofun
  | interrupt h => exact hs.move rfl rfl rfl hle (finish_calls _ · _) nofun
  | tick => exact hs.frame rfl rfl rfl (Nat.le_refl _) fun _ _ hu => ⟨hu, id⟩

/-! ## Who empties the slot -/

omit [DecidableEq Tid] in
/-- Cleaning up the key `key` changes the slot of no other key. -/
theorem eq_of_lookup_erase {m : AList fun _ : K => Tid} {key k : K} {t : Tid}
    (h : m.lookup k = some t) (hne : (m.erase key).lookup k ≠ some t) : k = key := by
  by_contra hk
  exact hne ((AList.lookup_erase_ne hk).trans h)

theorem OwnCleanup.ownerRemoves (hown : OwnCleanup s l) : OwnerRemoves cache s l := by
  intro s' t k hs ht hne
  cases Step.of_step hs with
  | lead h hd =>
      refine absurd ?_ hne
      refine (AList.lookup_insert_ne ?_).trans ht
      rintro rfl
      rw [hd] at ht
      cases ht
  | @commit u key v won h =>
      have hne' : (s.state.commit cache.capacity s.now key won ⟨v, u⟩).inFlight.lookup k ≠ some t :=
        hne
      rw [CacheState.commit_inFlight] at hne'
      obtain rfl := eq_of_lookup_erase ht hne'
      have hu : (s.calls u).cleansUp = some k := by rw [h]; rfl
      obtain rfl := hown k hu t ht
      exact .inl ⟨rfl, hu⟩
  | @cleanup u key e h =>
      obtain rfl := eq_of_lookup_erase ht hne
      have hu : (s.calls u).cleansUp = some k := by rw [h]; rfl
      obtain rfl := hown k hu t ht
      exact .inl ⟨rfl, hu⟩
  | @dropLoad u d key h hd =>
      obtain rfl := eq_of_lookup_erase ht hne
      exact .inr ⟨u, rfl, h⟩
  | @drop u key h hd =>
      obtain rfl := eq_of_lookup_erase ht hne
      exact .inr ⟨u, rfl, h⟩
  | _ => exact absurd ht hne

/-- The call that cleans up empties the slot. -/
theorem exists_step_of_cleansUp (cache : Config) {t : Tid} {k : K}
    (h : (s.calls t).cleansUp = some k) :
    ∃ s', step cache s (.step t) = some s' ∧ s'.state.inFlight.lookup k = none := by
  cases hc : s.calls t with
  | committing key v won =>
      rw [hc] at h
      obtain rfl : key = k := Option.some.inj h
      refine ⟨_, by simp only [step, stepCall, hc]; rfl, ?_⟩
      show AList.lookup key (s.state.commit _ _ key won _).inFlight = none
      rw [CacheState.commit_inFlight, AList.lookup_erase]
  | failing key e =>
      rw [hc] at h
      obtain rfl : key = k := Option.some.inj h
      refine ⟨_, by simp only [step, stepCall, hc]; rfl, ?_⟩
      exact AList.lookup_erase key s.state.inFlight
  | _ => rw [hc] at h; cases h

theorem ownCleanup_iff : OwnCleanup s l ↔ OwnerRemoves cache s l := by
  refine ⟨OwnCleanup.ownerRemoves, fun hrem => ?_⟩
  cases l with
  | step t =>
      intro k hk t' ht'
      obtain ⟨s', hs, hnone⟩ := exists_step_of_cleansUp cache hk
      have hne : s'.state.inFlight.lookup k ≠ some t' := by rw [hnone]; nofun
      rcases hrem s' t' k hs ht' hne with ⟨heq, -⟩ | ⟨u, heq, hu⟩
      · cases heq
        rfl
      · cases heq
        rw [hu] at hk
        cases hk
  | _ => trivial

/-! ## The results -/

/-- Two loads of one key run although both started after the last `invalidate`: a superseded leader
    cleans up the slot of its successor (the first run), or starts its load after the `invalidate`
    that took its slot (the second). -/
theorem loads_do_not_coalesce :
    (∃ s : Sys ℕ ℕ ℕ ℕ, run (step ⟨8, none⟩) Sys.init [.get 0 7, .step 0, .step 0, .step 0,
        .invalidate 9 7, .step 9, .step 9, .get 1 7, .step 1, .step 1, .step 1, .loaded 0 (.ok 1),
        .step 0, .step 0, .get 2 7, .step 2, .step 2, .step 2] = some s ∧
      s.calls 1 = .loading 7 ∧ s.calls 2 = .loading 7 ∧ s.invalidatedAt 7 < s.loadAt 1 ∧
      s.invalidatedAt 7 < s.loadAt 2) ∧
    (∃ s : Sys ℕ ℕ ℕ ℕ, run (step ⟨8, none⟩) Sys.init [.get 0 7, .step 0, .step 0,
        .invalidate 9 7, .step 9, .step 9, .step 0, .get 1 7, .step 1, .step 1, .step 1] = some s ∧
      s.calls 0 = .loading 7 ∧ s.calls 1 = .loading 7 ∧ s.invalidatedAt 7 < s.loadAt 0 ∧
      s.invalidatedAt 7 < s.loadAt 1) ∧
    ¬ ∀ (ls : List (Label ℕ ℕ ℕ ℕ)) (s : Sys ℕ ℕ ℕ ℕ),
      run (step ⟨8, none⟩) Sys.init ls = some s →
        AtMostOneLoad s ∧ Along (step ⟨8, none⟩) (OwnerRemoves ⟨8, none⟩) Sys.init ls := by
  refine ⟨⟨_, rfl, rfl, rfl, by decide, by decide⟩, ⟨_, rfl, rfl, rfl, by decide, by decide⟩,
    fun h => ?_⟩
  have hone := (h [.get 0 7, .step 0, .step 0, .invalidate 9 7, .step 9, .step 9, .step 0, .get 1 7,
    .step 1, .step 1, .step 1] _ rfl).1
  have heq : 0 = 1 := hone 0 1 7 rfl rfl (by decide) (by decide)
  cases heq

/-- **Loads coalesce.** In every run, slots are emptied by their owners and by `invalidate` only, if
    and only if every leader that cleans up finds its own `Deferred` in the slot or none; and if
    moreover no `invalidate` falls between the election of a leader and the start of its load, at
    most one running load of a key started after the last `invalidate` of the key. -/
theorem loads_coalesce (cache : Config) (ls : List (Label K V E Tid)) (s : Sys K V E Tid)
    (hrun : run (step cache) Sys.init ls = some s) :
    (Along (step cache) (OwnerRemoves cache) Sys.init ls ↔
      Along (step cache) OwnCleanup Sys.init ls) ∧
    (Along (step cache) (fun s l => OwnCleanup s l ∧ LoadStarted s l) Sys.init ls →
      AtMostOneLoad s) := by
  constructor
  · have heq : OwnerRemoves cache = (OwnCleanup : Sys K V E Tid → _) :=
      funext fun s => funext fun l => propext ownCleanup_iff.symm
    rw [heq]
  · intro hg
    have howned : Owned s := run_invariant_along (I := Owned)
      (fun _ _ _ hs hg h => hs.step (.of_step h) hg.1 hg.2) owned_init hg hrun
    exact howned.atMostOneLoad

/-- A second leader after an `invalidate`. -/
theorem loads_coalesce_second : ∃ s : Sys ℕ ℕ ℕ ℕ, run (step ⟨8, none⟩) Sys.init [.get 0 7, .step 0,
      .step 0, .step 0, .invalidate 9 7, .step 9, .step 9, .get 1 7, .step 1, .step 1, .step 1] =
      some s ∧ s.calls 0 = .loading 7 ∧ s.calls 1 = .loading 7 ∧ AtMostOneLoad s := by
  refine ⟨_, rfl, rfl, rfl, (loads_coalesce ⟨8, none⟩ [.get 0 7, .step 0, .step 0, .step 0,
    .invalidate 9 7, .step 9, .step 9, .get 1 7, .step 1, .step 1, .step 1] _ rfl).2 ?_⟩
  refine along_cons rfl ⟨trivial, trivial⟩ <| along_cons rfl ⟨nofun, nofun⟩ <|
    along_cons rfl ⟨nofun, nofun⟩ <| along_cons rfl ⟨nofun, nofun⟩ <|
    along_cons rfl ⟨trivial, trivial⟩ <| along_cons rfl ⟨nofun, fun k hk t => ?_⟩ <|
    along_cons rfl ⟨nofun, nofun⟩ <| along_cons rfl ⟨trivial, trivial⟩ <|
    along_cons rfl ⟨nofun, nofun⟩ <| along_cons rfl ⟨nofun, nofun⟩ <|
    along_cons rfl ⟨nofun, nofun⟩ trivial
  rw [start_calls]
  split
  · nofun
  · rw [startLoad_calls]
    split
    · nofun
    · next ht => simp [ht, Sys.init]

/-! ## The second condition is needed -/

theorem step_phase1_miss {t : Tid} {k : K} (ht : s.calls t = .phase1 k)
    (hc : s.state.entries.lookup k = none) (hd : s.state.inFlight.lookup k = none) :
    step cache s (.step t) = some (s.setCall t (.phase2 k)) := by
  simp only [step, stepCall, ht, CacheState.phase1, hc, Option.filter_none, hd]
  rfl

theorem step_phase2_lead {t : Tid} {k : K} (ht : s.calls t = .phase2 k)
    (hc : s.state.entries.lookup k = none) (hd : s.state.inFlight.lookup k = none) :
    step cache s (.step t) =
      some ((s.setState { s.state.countMiss with
        inFlight := s.state.inFlight.insert k t }).setCall t (.leader k)) := by
  simp only [step, stepCall, ht, CacheState.phase2, hc, Option.filter_none, hd]

theorem step_startLoad {t : Tid} {k : K} (ht : s.calls t = .leader k) :
    step cache s (.step t) = some (s.startLoad t k) := by
  simp only [step, stepCall, ht]

/-- A leader without a slot starts its load, and the next `get` starts another. -/
theorem two_loads (cache : Config) {t u : Tid} {k : K} (ht : s.calls t = .leader k)
    (hu : s.calls u = .idle) (hc : s.state.entries.lookup k = none)
    (hd : s.state.inFlight.lookup k = none) (hinv : s.invalidatedAt k < s.clock) :
    ∃ ls s', run (step cache) s ls = some s' ∧ ¬ AtMostOneLoad s' := by
  have hut : u ≠ t := by
    rintro rfl
    rw [hu] at ht
    cases ht
  have hget : step cache (s.startLoad t k) (.get u k) =
      some ((s.startLoad t k).start u (.phase1 k)) := by
    simp only [step, startLoad_calls, if_neg hut, hu]
  refine exists_run_cons (step_startLoad ht) (exists_run_cons hget ?_)
  refine exists_run_cons (step_phase1_miss (t := u) (k := k) (by simp) hc hd) ?_
  refine exists_run_cons (step_phase2_lead (t := u) (k := k) (by simp) hc hd) ?_
  refine exists_run_cons (step_startLoad (t := u) (k := k) (by simp)) ⟨[], _, rfl, fun hone => ?_⟩
  refine hut (hone u t k (by simp) (by simp [hut.symm]) ?_ ?_)
  · show s.invalidatedAt k < Function.update (Function.update s.loadAt t s.clock) u
      (s.clock + 1 + 1 + 1 + 1) u
    rw [Function.update_self]
    omega
  · show s.invalidatedAt k < Function.update (Function.update s.loadAt t s.clock) u
      (s.clock + 1 + 1 + 1 + 1) t
    rw [Function.update_of_ne hut.symm, Function.update_self]
    exact hinv

/-- **An `invalidate` that comes before the load of a leader has started** makes room for a second
    load beside it: whatever state it is made in, a few more steps and both are running. -/
theorem two_loads_of_not_loadStarted (cache : Config) (h : step cache s l = some s')
    (hp : ¬ LoadStarted s l) {t : Tid} (ht : s'.calls t = .idle) :
    ∃ ls s'', run (step cache) s' ls = some s'' ∧ ¬ AtMostOneLoad s'' := by
  cases l with
  | step x =>
      simp only [LoadStarted, not_forall, not_not] at hp
      obtain ⟨k, hx, w, hw⟩ := hp
      have hwx : w ≠ x := by
        rintro rfl
        rw [hx] at hw
        cases hw
      have hnow : Function.update s.invalidatedAt k s.clock k < s.clock + 1 := by
        rw [Function.update_self]
        exact Nat.lt_succ_self _
      simp only [step, stepCall, hx] at h
      split at h
      · obtain rfl := Option.some.inj h
        exact two_loads (t := w) (u := t) (k := k) cache (by simp [hwx, hw]) ht
          (AList.lookup_erase _ _) (AList.lookup_erase _ _) hnow
      · obtain rfl := Option.some.inj h
        exact two_loads (t := w) (u := t) (k := k) cache (by simp [hwx, hw]) ht
          (AList.lookup_erase _ _) (AList.lookup_erase _ _) hnow
  | _ => exact absurd trivial hp

end IdEffect.Cache
