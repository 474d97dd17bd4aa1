import IdEffect.Resource.PoolBound

set_option autoImplicit false

/-! # A failed checkout: `Pool::get` and `KeyedPool::get`

The two functions are the same but for the idle items they look at: `KeyedPool` keeps a list of them
for each key. Here a call of `get` runs by itself, from the pool, the semaphore and the scope as it
finds them to how it leaves them (`get`); that this is what the call does in the system of all calls
is `get_alone`.

When the factory is asked, the permit has been tied to the scope of the caller already, and an error
of the factory leaves `get` at once (`?`). Nothing hands the permit back before the scope is closed,
unless `add_finalizer` has refused it, because the scope was closed then. So a failed `get` gives
back what it took exactly if it was called in a closed scope (`failed_get_gives_back_iff`). -/

namespace IdEffect.Pool

open Transition

variable {P A E I L Tid Sid K : Type}

/-! ## Keyed pools -/

/-- A key without idle items has no entry in `perKey`. -/
structure KeyedPoolState (K A : Type) where
  perKey : K → Option (List (IdleSlot A))
  discard : List (K × A)

namespace KeyedPoolState

variable [DecidableEq K] [DecidableEq A]

def default : KeyedPoolState K A := ⟨fun _ => none, []⟩

/-- The items that have been invalidated for `key`. -/
def discarded (st : KeyedPoolState K A) (key : K) : List A :=
  st.discard.filterMap fun d => if d.1 = key then some d.2 else none

def setKey (st : KeyedPoolState K A) (key : K) (slots : Option (List (IdleSlot A))) :
    KeyedPoolState K A :=
  { st with perKey := Function.update st.perKey key slots }

def takeIdleKeyed (ttl : Option ℕ) (key : K) (now : ℕ) (st : KeyedPoolState K A) :
    Option A × KeyedPoolState K A :=
  match st.perKey key with
  | none => (none, st)
  | some slots =>
      match PoolState.takeFrom ttl now (st.discarded key) slots with
      | (some a, []) => (some a, st.setKey key none)
      | (some a, rest) => (some a, st.setKey key (some rest))
      | (none, _) => (none, st.setKey key none)

end KeyedPoolState

/-! ## One call of `get` -/

/-- What a call of `get` finds and leaves. `scopeClosed` is what `is_closed` of the caller's scope
    answers, and `bucket` are the finalizers of that scope, the last registered first. -/
structure World (P I Tid : Type) where
  permits : ℕ
  state : P
  now : ℕ
  scopeClosed : Bool
  bucket : List (Finalizer I Tid)

/-- What the outside has to do with a call: the time until it looks at the idle items, the time the
    factory takes, and what the factory returns. -/
structure Outside (E A : Type) where
  taking : ℕ
  making : ℕ
  made : Except E A

namespace World

/-- A finalizer that is dropped without having run. -/
def dropFinalizer (w : World P I Tid) : Finalizer I Tid → World P I Tid
  | .permit _ => { w with permits := w.permits + 1 }
  | .checkIn _ _ => w

def addFinalizer (w : World P I Tid) (f : Finalizer I Tid) : World P I Tid :=
  if w.scopeClosed then w.dropFinalizer f else { w with bucket := f :: w.bucket }

/-- `Semaphore::acquire` of the call `t`; it waits if there is no permit. -/
def acquire (w : World P I Tid) (t : Tid) : Option (World P I Tid) :=
  if w.permits = 0 then none
  else some ({ w with permits := w.permits - 1 }.addFinalizer (.permit t))

def wait (w : World P I Tid) (d : ℕ) : World P I Tid := { w with now := w.now + d }

def setState (w : World P I Tid) (st : P) : World P I Tid := { w with state := st }

end World

/-- `get` of a pool whose idle items are taken by `takeIdle` and checked in as `item` says. -/
def get (takeIdle : ℕ → P → Option A × P) (item : A → I) (t : Tid) (o : Outside E A)
    (w : World P I Tid) : Option (Except E A × World P I Tid) :=
  (w.acquire t).map fun w =>
    match takeIdle (w.now + o.taking) w.state with
    | (some a, st) => (.ok a, ((w.wait o.taking).setState st).addFinalizer (.checkIn t (item a)))
    | (none, st) =>
        let w := ((w.wait o.taking).setState st).wait o.making
        match o.made with
        | .ok a => (.ok a, w.addFinalizer (.checkIn t (item a)))
        | .error e => (.error e, w)

def PoolState.get [DecidableEq A] (ttl : Option ℕ) :
    Tid → Outside E A → World (PoolState A) A Tid →
      Option (Except E A × World (PoolState A) A Tid) :=
  Pool.get (PoolState.takeIdle ttl) id

def KeyedPoolState.get [DecidableEq K] [DecidableEq A] (ttl : Option ℕ) (key : K) :
    Tid → Outside E A → World (KeyedPoolState K A) (K × A) Tid →
      Option (Except E A × World (KeyedPoolState K A) (K × A) Tid) :=
  Pool.get (KeyedPoolState.takeIdleKeyed ttl key) fun a => (key, a)

/-! ## The promise -/

/-- Neither expired nor discarded. -/
def fresh [DecidableEq A] (ttl : Option ℕ) (now : ℕ) (discard : List A) (slot : IdleSlot A) :
    Bool :=
  !PoolState.expired ttl now slot && decide (slot.value ∉ discard)

def PoolState.live [DecidableEq A] (ttl : Option ℕ) (now : ℕ) (st : PoolState A) :
    List (IdleSlot A) :=
  st.idle.filter (fresh ttl now st.discard)

def KeyedPoolState.live [DecidableEq K] [DecidableEq A] (ttl : Option ℕ) (now : ℕ)
    (st : KeyedPoolState K A) (key : K) : List (IdleSlot A) :=
  ((st.perKey key).getD []).filter (fresh ttl now (st.discarded key))

/-- A call that began at `w` and returned `r` at `w'` has failed with `e` and kept nothing: there
    are as many permits as before, and the same idle items to take. -/
structure GivesBack (live : ℕ → P → L) (e : E) (w : World P I Tid) (r : Except E A)
    (w' : World P I Tid) : Prop where
  result : r = .error e
  permits : w'.permits = w.permits
  idle : live w'.now w'.state = live w'.now w.state

/-! ## What is taken from the idle items -/

section
variable [DecidableEq A]

/-- What is expired stays so. -/
theorem fresh_mono {ttl : Option ℕ} {now later : ℕ} (h : now ≤ later) {discard : List A}
    {slot : IdleSlot A} (hs : fresh ttl now discard slot = false) :
    fresh ttl later discard slot = false := by
  simp only [fresh, PoolState.expired] at hs ⊢
  cases ttl with
  | none => exact hs
  | some t =>
      simp only [gt_iff_lt, Bool.and_eq_false_iff, Bool.not_eq_false', decide_eq_true_eq] at hs ⊢
      exact hs.imp_left fun hlt => by omega

/-- If nothing is taken, there was nothing to take. -/
theorem takeFrom_none {ttl : Option ℕ} {now : ℕ} {discard : List A} {idle : List (IdleSlot A)}
    (h : (PoolState.takeFrom ttl now discard idle).1 = none) :
    ∀ slot ∈ idle, fresh ttl now discard slot = false := by
  induction idle with
  | nil => simp
  | cons slot rest ih =>
      unfold PoolState.takeFrom at h
      rw [List.forall_mem_cons]
      split at h
      · next hexp => exact ⟨by simp [fresh, hexp], ih h⟩
      · split at h
        · next hdis => exact ⟨by simp [fresh, hdis], ih h⟩
        · cases h

theorem filter_fresh_eq_nil {ttl : Option ℕ} {now later : ℕ} (hle : now ≤ later)
    {discard : List A} {idle : List (IdleSlot A)}
    (h : (PoolState.takeFrom ttl now discard idle).1 = none) :
    idle.filter (fresh ttl later discard) = [] := by
  rw [List.filter_eq_nil_iff]
  intro slot hslot
  simp [fresh_mono hle (takeFrom_none h slot hslot)]

namespace PoolState

theorem live_of_takeIdle {ttl : Option ℕ} {now later : ℕ} {st : PoolState A} (hle : now ≤ later)
    (h : (st.takeIdle ttl now).1 = none) :
    (st.takeIdle ttl now).2.live ttl later = st.live ttl later := by
  have htake : (takeFrom ttl now st.discard st.idle).1 = none := h
  have hnil : (takeFrom ttl now st.discard st.idle).2 = [] := by
    have := takeIdle_none (Prod.ext h rfl)
    exact congrArg idle this
  have hbefore : st.live ttl later = [] := filter_fresh_eq_nil hle htake
  rw [hbefore]
  simp only [live, takeIdle, hnil, List.filter_nil]

end PoolState

end

namespace KeyedPoolState

variable [DecidableEq K] [DecidableEq A]

/-- Other keys are left alone. -/
theorem live_of_takeIdleKeyed {ttl : Option ℕ} {key : K} {now later : ℕ}
    {st : KeyedPoolState K A} (hle : now ≤ later) (h : (st.takeIdleKeyed ttl key now).1 = none) :
    (st.takeIdleKeyed ttl key now).2.live ttl later = st.live ttl later := by
  unfold takeIdleKeyed at h ⊢
  split
  · rfl
  · next slots hslots =>
      simp only [hslots] at h
      split at h
      · cases h
      · cases h
      · next rest htake =>
          have hnone : (PoolState.takeFrom ttl now (st.discarded key) slots).1 = none := by
            rw [htake]
          funext q
          simp only [live, setKey, Function.update_apply]
          split
          · next hq =>
              rw [hq, hslots]
              exact (filter_fresh_eq_nil hle hnone).symm
          · rfl

end KeyedPoolState

/-! ## A call that fails -/

namespace World

@[simp] theorem addFinalizer_state (w : World P I Tid) (f : Finalizer I Tid) :
    (w.addFinalizer f).state = w.state := by
  unfold addFinalizer dropFinalizer
  split <;> cases f <;> rfl

@[simp] theorem addFinalizer_now (w : World P I Tid) (f : Finalizer I Tid) :
    (w.addFinalizer f).now = w.now := by
  unfold addFinalizer dropFinalizer
  split <;> cases f <;> rfl

theorem addFinalizer_of_closed {w : World P I Tid} (h : w.scopeClosed = true)
    (f : Finalizer I Tid) : w.addFinalizer f = w.dropFinalizer f := if_pos h

theorem addFinalizer_of_open {w : World P I Tid} (h : w.scopeClosed = false)
    (f : Finalizer I Tid) : w.addFinalizer f = { w with bucket := f :: w.bucket } :=
  if_neg (by simp [h])

@[simp] theorem addFinalizer_scopeClosed (w : World P I Tid) (f : Finalizer I Tid) :
    (w.addFinalizer f).scopeClosed = w.scopeClosed := by
  unfold addFinalizer dropFinalizer
  split <;> cases f <;> rfl

theorem addFinalizer_permits {w : World P I Tid} (h : w.scopeClosed = false)
    (f : Finalizer I Tid) : (w.addFinalizer f).permits = w.permits := by
  rw [addFinalizer_of_open h]

/-- A permit is given back at once in a closed scope. -/
theorem acquire_permits {w w' : World P I Tid} {t : Tid} (h : w.acquire t = some w') :
    w'.permits = w.permits ↔ w.scopeClosed = true := by
  unfold acquire at h
  split at h
  · cases h
  · next hpos =>
      rw [← Option.some.inj h]
      unfold addFinalizer dropFinalizer
      cases hcl : w.scopeClosed with
      | true =>
          simp
          omega
      | false =>
          simp
          omega

theorem acquire_state {w w' : World P I Tid} {t : Tid} (h : w.acquire t = some w') :
    w'.state = w.state ∧ w'.now = w.now := by
  unfold acquire at h
  split at h
  · cases h
  · rw [← Option.some.inj h]
    simp

end World

/-- **A failed call.** The permit is all that it may have kept. -/
theorem gives_back_iff {live : ℕ → P → L} {takeIdle : ℕ → P → Option A × P} {item : A → I}
    (hlive : ∀ {now later : ℕ} {st : P}, now ≤ later → (takeIdle now st).1 = none →
      live later (takeIdle now st).2 = live later st)
    {t : Tid} {o : Outside E A} {e : E} {w w' : World P I Tid} {r : Except E A}
    (hnone : (takeIdle (w.now + o.taking) w.state).1 = none) (hfail : o.made = .error e)
    (h : get takeIdle item t o w = some (r, w')) :
    GivesBack live e w r w' ↔ w.scopeClosed = true := by
  obtain ⟨m, hacq, hget⟩ := Option.map_eq_some_iff.1 h
  obtain ⟨hstate, hnow⟩ := World.acquire_state hacq
  have htake : takeIdle (w.now + o.taking) w.state =
      (none, (takeIdle (w.now + o.taking) w.state).2) := Prod.ext hnone rfl
  rw [hstate, hnow, htake, hfail] at hget
  obtain ⟨hr, hw⟩ := Prod.mk.inj hget
  rw [← World.acquire_permits hacq, ← hw]
  refine ⟨fun hg => hg.permits, fun hp => ⟨hr.symm, hp, hlive ?_ hnone⟩⟩
  simp only [World.wait, World.setState, hnow]
  omega

/-- A failed `get` of either pool gives back what it took exactly if the scope of the caller, or an
    ancestor of it, was closed. -/
theorem failed_get_gives_back_iff [DecidableEq K] [DecidableEq A] (ttl : Option ℕ) :
    (∀ (t : Tid) (o : Outside E A) (e : E) (w w' : World (PoolState A) A Tid) (r : Except E A),
      (w.state.takeIdle ttl (w.now + o.taking)).1 = none → o.made = .error e →
      PoolState.get ttl t o w = some (r, w') →
      (GivesBack (PoolState.live ttl) e w r w' ↔ w.scopeClosed = true)) ∧
    ∀ (key : K) (t : Tid) (o : Outside E A) (e : E) (w w' : World (KeyedPoolState K A) (K × A) Tid)
      (r : Except E A),
      (w.state.takeIdleKeyed ttl key (w.now + o.taking)).1 = none → o.made = .error e →
      KeyedPoolState.get ttl key t o w = some (r, w') →
      (GivesBack (KeyedPoolState.live ttl) e w r w' ↔ w.scopeClosed = true) := by
  refine ⟨fun t o e w w' r hnone hfail h => ?_, fun key t o e w w' r hnone hfail h => ?_⟩
  · exact gives_back_iff PoolState.live_of_takeIdle hnone hfail h
  · exact gives_back_iff KeyedPoolState.live_of_takeIdleKeyed hnone hfail h

/-- Pools of one permit and a factory that is down, in a closed scope and in an open one. -/
theorem failed_get_gives_back_down :
    GivesBack (PoolState.live none) "down" (⟨1, .default, 0, true, []⟩ : World (PoolState ℕ) ℕ ℕ)
      (.error "down" : Except String ℕ) ⟨1, .default, 0, true, []⟩ ∧
    ¬ GivesBack (KeyedPoolState.live none) "down"
      (⟨1, .default, 0, false, []⟩ : World (KeyedPoolState ℕ ℕ) (ℕ × ℕ) ℕ)
      (.error "down" : Except String ℕ) ⟨0, .default, 0, false, [.permit 0]⟩ := by
  refine ⟨((failed_get_gives_back_iff (K := ℕ) none).1 0 ⟨0, 0, .error "down"⟩ "down" _ _ _
    rfl rfl rfl).2 rfl, fun h => ?_⟩
  have hclosed := ((failed_get_gives_back_iff none).2 5 0 ⟨0, 0, .error "down"⟩ "down" _ _ _
    rfl rfl rfl).1 h
  cases hclosed

/-- After a failed `get`, a second one in the same scope waits for the permit of the first. -/
theorem failed_get_keeps_permit :
    (∃ w : World (PoolState ℕ) ℕ ℕ,
      PoolState.get none 0 ⟨0, 0, .error "down"⟩ ⟨1, .default, 0, false, []⟩
        = some (.error "down", w) ∧
      ¬ GivesBack (PoolState.live none) "down" ⟨1, .default, 0, false, []⟩
        (.error "down" : Except String ℕ) w ∧
      PoolState.get none 1 (⟨0, 0, .ok 7⟩ : Outside String ℕ) w = none) ∧
    ∃ w : World (KeyedPoolState ℕ ℕ) (ℕ × ℕ) ℕ,
      KeyedPoolState.get none 5 0 ⟨0, 0, .error "down"⟩ ⟨1, .default, 0, false, []⟩
        = some (.error "down", w) ∧
      ¬ GivesBack (KeyedPoolState.live none) "down" ⟨1, .default, 0, false, []⟩
        (.error "down" : Except String ℕ) w ∧
      KeyedPoolState.get none 5 1 (⟨0, 0, .ok 7⟩ : Outside String ℕ) w = none := by
  refine ⟨⟨_, rfl, fun h => ?_, rfl⟩, ⟨_, rfl, fun h => ?_, rfl⟩⟩
  · cases h.permits
  · cases h.permits

/-! ## A call among all calls -/

variable [DecidableEq A] [DecidableEq Tid] [DecidableEq Sid]
variable {pool : Config} {s s' m : Sys A Tid Sid} {t : Tid} {sc : Sid}

/-- What a call in the scope `sc` sees of the system. -/
def Sys.world (pool : Config) (s : Sys A Tid Sid) (sc : Sid) : World (PoolState A) A Tid :=
  ⟨pool.capacity - s.holders.length, s.pool, s.now, s.closed sc, s.bucket sc⟩

/-- A step of the call `t`, or one of the clock. -/
def Label.own (t : Tid) : Label A E Tid Sid → Bool
  | .get u _ | .step u | .factory u _ => decide (u = t)
  | .tick _ => true
  | _ => false

/-- The call `t` comes from `s` to `s'` while no other call does anything. -/
def Alone (E : Type) (pool : Config) (t : Tid) (s s' : Sys A Tid Sid) : Prop :=
  ∃ ls : List (Label A E Tid Sid), (∀ l ∈ ls, l.own t = true) ∧ run (step pool) s ls = some s'

/-- The call has returned `r`. -/
def Call.HasReturned (c : Call A Sid) (sc : Sid) : Except E A → Prop
  | .ok a => c = .out sc a ∨ c = .unscoped sc a
  | .error _ => c = .failed sc

theorem Alone.refl (s : Sys A Tid Sid) : Alone E pool t s s := ⟨[], by simp, rfl⟩

theorem Alone.head {l : Label A E Tid Sid} (h : step pool s l = some m) (hl : l.own t = true)
    (hm : Alone E pool t m s') : Alone E pool t s s' := by
  obtain ⟨ls, hown, hrun⟩ := hm
  exact ⟨l :: ls, List.forall_mem_cons.2 ⟨hl, hown⟩, run_cons_eq_some.2 ⟨m, h, hrun⟩⟩

theorem Alone.trans (h : Alone E pool t s m) (hm : Alone E pool t m s') : Alone E pool t s s' := by
  obtain ⟨ls, hown, hrun⟩ := h
  induction ls generalizing s with
  | nil => exact Option.some.inj hrun ▸ hm
  | cons l ls ih =>
      obtain ⟨n, hstep, hrest⟩ := run_cons_eq_some.1 hrun
      obtain ⟨hl, hown⟩ := List.forall_mem_cons.1 hown
      exact (ih hown hrest).head hstep hl

/-- A step of the call, from the state that the one before it has left. -/
theorem alone_step {c : Call A Sid} (h : stepCall pool (s.setCall t c) t = some m)
    (hm : Alone E pool t m s') : Alone E pool t (s.setCall t c) s' :=
  hm.head (l := .step t) h (decide_eq_true rfl)

theorem acquire_alone {w : World (PoolState A) A Tid} (h : s.calls t = .idle)
    (hacq : (s.world pool sc).acquire t = some w) :
    ∃ m : Sys A Tid Sid, Alone E pool t s (m.setCall t (.acquired sc)) ∧ m.world pool sc = w := by
  have hpos : (s.world pool sc).permits ≠ 0 := by
    intro hzero
    rw [World.acquire, if_pos hzero] at hacq
    cases hacq
  rw [World.acquire, if_neg hpos, Option.some.injEq] at hacq
  have hfree : s.holders.length < pool.capacity := by
    simp only [Sys.world] at hpos
    omega
  have hget : step (E := E) pool s (.get t sc) = some (s.setCall t (.acquiring sc)) := by
    simp only [step, h]
  have hgrant : stepCall pool (s.setCall t (.acquiring sc)) t =
      some ((s.grant t).setCall t (.granted sc)) := by
    simp [stepCall, Sys.setCall, Sys.grant, hfree]
  have hown : Label.own t (.get t sc : Label A E Tid Sid) = true := decide_eq_true rfl
  cases hcl : s.closed sc with
  | true =>
      have hrefuse : stepCall pool ((s.grant t).setCall t (.granted sc)) t =
          some (s.setCall t (.acquired sc)) := by
        simp [stepCall, Sys.setCall, Sys.grant, Sys.release, hcl]
      refine ⟨s, .head hget hown (alone_step hgrant (alone_step hrefuse (.refl _))), ?_⟩
      rw [← hacq, World.addFinalizer_of_closed hcl]
      simp only [World.dropFinalizer, Sys.world, World.mk.injEq, and_true]
      omega
  | false =>
      have haccept : stepCall pool ((s.grant t).setCall t (.granted sc)) t =
          some ((s.grant t).setCall t (.addingPermit sc)) := by
        simp [stepCall, Sys.setCall, Sys.grant, hcl]
      have hadd : stepCall pool ((s.grant t).setCall t (.addingPermit sc)) t =
          some (((s.grant t).push sc (.permit t)).setCall t (.acquired sc)) := by
        simp [stepCall, Sys.setCall, Sys.push]
      refine ⟨(s.grant t).push sc (.permit t), .head hget hown
        (alone_step hgrant (alone_step haccept (alone_step hadd (.refl _)))), ?_⟩
      rw [← hacq, World.addFinalizer_of_open hcl]
      simp [Sys.world, Sys.push, Sys.grant, Nat.sub_sub]

/-- The check-in of the item is registered, or refused. -/
theorem holding_alone (pool : Config) (s : Sys A Tid Sid) (t : Tid) (sc : Sid) (a : A) :
    ∃ s', Alone E pool t (s.setCall t (.holding sc a)) s' ∧
      s'.world pool sc = (s.world pool sc).addFinalizer (.checkIn t a) ∧
      (s'.calls t = .out sc a ∨ s'.calls t = .unscoped sc a) := by
  cases hcl : s.closed sc with
  | true =>
      have hrefuse : stepCall pool (s.setCall t (.holding sc a)) t =
          some (s.setCall t (.unscoped sc a)) := by
        simp [stepCall, Sys.setCall, hcl]
      refine ⟨_, alone_step hrefuse (.refl _), ?_, .inr (by simp)⟩
      rw [World.addFinalizer_of_closed hcl]
      rfl
  | false =>
      have haccept : stepCall pool (s.setCall t (.holding sc a)) t =
          some (s.setCall t (.addingCheckIn sc a)) := by
        simp [stepCall, Sys.setCall, hcl]
      have hadd : stepCall pool (s.setCall t (.addingCheckIn sc a)) t =
          some ((s.push sc (.checkIn t a)).setCall t (.out sc a)) := by
        simp [stepCall, Sys.setCall, Sys.push]
      refine ⟨_, alone_step haccept (alone_step hadd (.refl _)), ?_, .inl (by simp)⟩
      rw [World.addFinalizer_of_open hcl]
      simp [Sys.world, Sys.push, Sys.setCall]

/-- The factory has returned. -/
theorem making_alone (pool : Config) (s : Sys A Tid Sid) (t : Tid) (sc : Sid) (r : Except E A) :
    ∃ s', Alone E pool t (s.setCall t (.making sc)) s' ∧ (s'.calls t).HasReturned sc r ∧
      s'.world pool sc =
        match r with
        | .ok a => (s.world pool sc).addFinalizer (.checkIn t a)
        | .error _ => s.world pool sc := by
  have hown : Label.own t (.factory t r : Label A E Tid Sid) = true := decide_eq_true rfl
  cases r with
  | ok a =>
      have hmade : step pool (s.setCall t (.making sc)) (.factory t (.ok a) : Label A E Tid Sid) =
          some ({ s with made := a :: s.made }.setCall t (.holding sc a)) := by
        simp [step, Sys.setCall]
      obtain ⟨s', hs', hworld, hcall⟩ := holding_alone (E := E) pool
        { s with made := a :: s.made } t sc a
      exact ⟨s', hs'.head hmade hown, hcall, hworld⟩
  | error e =>
      have hfail : step pool (s.setCall t (.making sc)) (.factory t (.error e)) =
          some (s.setCall t (.failed sc)) := by
        simp [step, Sys.setCall]
      refine ⟨s.setCall t (.failed sc), (Alone.refl _).head hfail hown, ?_, rfl⟩
      rw [setCall_calls, if_pos rfl]
      rfl

/-- Time passes. -/
def Sys.later (s : Sys A Tid Sid) (d : ℕ) : Sys A Tid Sid := { s with now := s.now + d }

theorem later_alone (s : Sys A Tid Sid) (t : Tid) (c : Call A Sid) (d : ℕ) :
    Alone E pool t (s.setCall t c) ((s.later d).setCall t c) :=
  .head (l := .tick d) rfl rfl (.refl _)

/-- **`get` is what the call does.** Left alone, a call of the system of all calls comes to what
    `get` says. -/
theorem get_alone {o : Outside E A} {r : Except E A} {w : World (PoolState A) A Tid}
    (h : s.calls t = .idle) (hget : PoolState.get pool.ttl t o (s.world pool sc) = some (r, w)) :
    ∃ s', Alone E pool t s s' ∧ (s'.calls t).HasReturned sc r ∧ s'.world pool sc = w := by
  obtain ⟨wa, hacq, hrest⟩ := Option.map_eq_some_iff.1 hget
  obtain ⟨n, hn, rfl⟩ := acquire_alone (E := E) h hacq
  have hlook := hn.trans (later_alone n t _ o.taking)
  obtain ⟨v, st, htake⟩ : ∃ v st, n.pool.takeIdle pool.ttl (n.now + o.taking) = (v, st) :=
    ⟨_, _, rfl⟩
  have htakew : PoolState.takeIdle pool.ttl ((n.world pool sc).now + o.taking)
      (n.world pool sc).state = (v, st) := htake
  rw [htakew] at hrest
  cases v with
  | some a =>
      obtain ⟨rfl, rfl⟩ := Prod.mk.inj hrest
      have hstep : stepCall pool ((n.later o.taking).setCall t (.acquired sc)) t =
          some (((n.later o.taking).setPool st).setCall t (.holding sc a)) := by
        simp [stepCall, Sys.setCall, Sys.setPool, Sys.later, htake]
      obtain ⟨s', hs', hworld, hcall⟩ := holding_alone (E := E) pool
        ((n.later o.taking).setPool st) t sc a
      exact ⟨s', hlook.trans (alone_step hstep hs'), hcall, hworld⟩
  | none =>
      have hstep : stepCall pool ((n.later o.taking).setCall t (.acquired sc)) t =
          some (((n.later o.taking).setPool st).setCall t (.making sc)) := by
        simp [stepCall, Sys.setCall, Sys.setPool, Sys.later, htake]
      have hmaking := hlook.trans (alone_step hstep (later_alone _ t _ o.making))
      obtain ⟨s', hs', hcall, hworld⟩ := making_alone pool
        (((n.later o.taking).setPool st).later o.making) t sc o.made
      cases hmade : o.made with
      | ok a =>
          rw [hmade] at hrest hcall hworld
          obtain ⟨rfl, rfl⟩ := Prod.mk.inj hrest
          exact ⟨s', hmaking.trans hs', hcall, hworld⟩
      | error e =>
          rw [hmade] at hrest hcall hworld
          obtain ⟨rfl, rfl⟩ := Prod.mk.inj hrest
          exact ⟨s', hmaking.trans hs', hcall, hworld⟩

/-- A call by itself leaves the other calls and the flags of the scopes alone. -/
theorem Alone.frame (h : Alone E pool t s s') :
    s'.closed = s.closed ∧ ∀ u, u ≠ t → s'.calls u = s.calls u := by
  obtain ⟨ls, hown, hrun⟩ := h
  induction ls generalizing s with
  | nil => exact Option.some.inj hrun ▸ ⟨rfl, fun _ _ => rfl⟩
  | cons l ls ih =>
      obtain ⟨n, hstep, hrest⟩ := run_cons_eq_some.1 hrun
      obtain ⟨hl, hown⟩ := List.forall_mem_cons.1 hown
      obtain ⟨hclosed, hcalls⟩ := ih hown hrest
      have hn : n.closed = s.closed ∧ ∀ u, u ≠ t → n.calls u = s.calls u := by
        cases Step.of_step hstep with
        | invalidate => cases hl
        | close => cases hl
        | drainKept => cases hl
        | drainLost => cases hl
        | release => cases hl
        | checkIn => cases hl
        | tick => exact ⟨rfl, fun _ _ => rfl⟩
        | _ =>
            obtain rfl := of_decide_eq_true hl
            exact ⟨rfl, fun u hu => (setCall_calls _ u _).trans (if_neg hu)⟩
      exact ⟨hclosed.trans hn.1, fun u hu => (hcalls u hu).trans (hn.2 u hu)⟩

omit [DecidableEq Tid] in
/-- With a permit available, an open scope and a factory that does not fail, `get` returns an
    item at the price of one permit. -/
theorem get_succeeds {w : World (PoolState A) A Tid} (ttl : Option ℕ) (t : Tid) (a : A)
    (hpos : w.permits ≠ 0) (hopen : w.scopeClosed = false) :
    ∃ b w', PoolState.get ttl t (⟨0, 0, .ok a⟩ : Outside E A) w = some (.ok b, w') ∧
      w'.permits + 1 = w.permits := by
  have hacq : w.acquire t =
      some (World.addFinalizer { w with permits := w.permits - 1 } (.permit t)) := by
    rw [World.acquire, if_neg hpos]
  have hm : World.permits (World.addFinalizer { w with permits := w.permits - 1 } (.permit t)) + 1 =
      w.permits := by
    rw [World.addFinalizer_permits (w := { w with permits := w.permits - 1 }) hopen]
    exact Nat.succ_pred_eq_of_ne_zero hpos
  obtain ⟨v, st, htake⟩ : ∃ v st, PoolState.takeIdle ttl (w.now + 0) w.state = (v, st) :=
    ⟨_, _, rfl⟩
  rw [PoolState.get, get, hacq, Option.map_some]
  simp only [World.addFinalizer_now, World.addFinalizer_state, htake]
  cases v with
  | some b =>
      refine ⟨b, _, rfl, ?_⟩
      rw [World.addFinalizer_permits (by simpa [World.wait, World.setState] using hopen)]
      exact hm
  | none =>
      refine ⟨a, _, rfl, ?_⟩
      rw [World.addFinalizer_permits (by simpa [World.wait, World.setState] using hopen)]
      exact hm

end IdEffect.Pool
