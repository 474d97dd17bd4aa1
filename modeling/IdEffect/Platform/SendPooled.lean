import IdEffect.Lib.Gauge
import IdEffect.Resource.PoolGet

set_option autoImplicit false

/-! # Requests with a pooled client: `send_pooled` in `http/reqwest.rs`

Any number of runs of `send_pooled` share a `ReqwestPool`. Each makes a scope of its own, checks a
client out of the pool under that scope, and sends its request. If the request succeeds, the run
closes the scope: the client is checked in, the permit is released, and the run returns `Ok`. If it
fails, the run returns `Err` at once. The scope is dropped then, and with it its two finalizers,
which have not run: dropping the first one releases the permit it holds, but dropping the second one
drops the client.

So permits always come back, and clients come back in the runs in which no request fails
(`send_pooled_gives_back_iff`).

The pool is that of `Resource/Pool.lean`; its factory never fails. Of the HTTP client nothing is
known but whether a request succeeds. A run and its scope go by the same name. -/

namespace IdEffect.SendPooled

open Transition Pool

variable {A Tid : Type} [DecidableEq A] [DecidableEq Tid]

/-! ## The system -/

/-- Where a run stands. In `checkout` its call of `get` goes on, or has returned, and the request is
    under way. A `closing` run has got its response and closes its scope: it sets the flag, takes
    the finalizers and runs them (`running`). -/
inductive Run where
  | idle
  | checkout
  | closing
  | swapped
  | running
  | returned (ok : Bool)
  deriving DecidableEq, Repr

/-- The run has begun and not returned. -/
def Run.active : Run → Bool
  | .idle | .returned _ => false
  | _ => true

/-- `started` are the runs that have begun, and `expired` the clients that calls of `get` have
    thrown away because they had been idle for too long. -/
structure Sys (A Tid : Type) where
  pool : Pool.Sys A Tid Tid
  runs : Tid → Run
  started : List Tid
  expired : List A

inductive Label (A Tid : Type) where
  | start (t : Tid)
  | checkout (t : Tid)
  | factory (t : Tid) (client : A)
  | request (t : Tid) (ok : Bool)
  | close (t : Tid)
  | tick (d : ℕ)

namespace Sys

def init : Sys A Tid where
  pool := .init
  runs := fun _ => .idle
  started := []
  expired := []

def setRun (s : Sys A Tid) (t : Tid) (r : Run) : Sys A Tid :=
  { s with runs := Function.update s.runs t r }

def setPool (s : Sys A Tid) (p : Pool.Sys A Tid Tid) : Sys A Tid := { s with pool := p }

/-- A step of the pool, whose factory never fails. -/
def act (pool : Config) (s : Sys A Tid) (l : Pool.Label A Empty Tid Tid) : Option (Sys A Tid) :=
  (Pool.step pool s.pool l).map s.setPool

/-- The clients that the call `t` of `get` throws away when it looks for an idle one. -/
def thrown (ttl : Option ℕ) (s : Sys A Tid) (t : Tid) : List A :=
  match s.pool.calls t with
  | .acquired _ =>
      (s.pool.pool.idle.takeWhile fun slot => !fresh ttl s.pool.now s.pool.pool.discard slot).map
        IdleSlot.value
  | _ => []

/-- The scope of `t` is dropped, and with it the finalizers that have not run. -/
def dropScope (s : Sys A Tid) (t : Tid) : Sys A Tid := s.setPool (s.pool.drainLost t)

/-- The request of `t` has succeeded or not. -/
def respond (s : Sys A Tid) (t : Tid) (ok : Bool) : Sys A Tid :=
  if ok then s.setRun t .closing else (s.dropScope t).setRun t (.returned false)

end Sys

def step (pool : Config) (s : Sys A Tid) : Label A Tid → Option (Sys A Tid)
  | .start t =>
      match s.runs t with
      | .idle =>
          (s.act pool (.get t t)).map fun m =>
            { m.setRun t .checkout with started := t :: s.started }
      | _ => none
  | .checkout t =>
      match s.runs t with
      | .checkout =>
          (s.act pool (.step t)).map fun m =>
            { m with expired := s.expired ++ s.thrown pool.ttl t }
      | _ => none
  | .factory t client =>
      match s.runs t with
      | .checkout => s.act pool (.factory t (.ok client))
      | _ => none
  | .request t ok =>
      match s.runs t, s.pool.calls t with
      | .checkout, .out _ _ => some (s.respond t ok)
      | .checkout, .unscoped _ _ => some (s.respond t ok)
      | _, _ => none
  | .close t =>
      match s.runs t with
      | .closing => (s.act pool (.close t)).map (·.setRun t .swapped)
      | .swapped => (s.act pool (.drain t true)).map (·.setRun t .running)
      | .running =>
          match s.pool.closing t with
          | [] => some (s.setRun t (.returned true))
          | _ => s.act pool (.finalize t)
      | _ => none
  | .tick d => s.act pool (.tick d)

/-! ## The promise -/

/-- The client a run has checked out and not given back, before it returns. -/
def Sys.inUse (s : Sys A Tid) (t : Tid) : Option A :=
  if (s.runs t).active then (s.pool.calls t).item else none

/-- One call of `get` after the other returns a client without having to wait for anybody. -/
def CheckOuts (pool : Config) : List Tid → Pool.Sys A Tid Tid → Prop
  | [], _ => True
  | t :: ts, p => ∃ a p', Alone Empty pool t p p' ∧
      (p'.calls t).HasReturned t (.ok a : Except Empty A) ∧ CheckOuts pool ts p'

/-- Every client that was ever made is idle, or in use by a run that has not returned, or was thrown
    away as expired. -/
def Clients (s : Sys A Tid) : Prop :=
  ∀ a, s.pool.made.count a = s.pool.pool.values.count a +
    s.started.countP (fun t => decide (s.inUse t = some a)) + s.expired.count a

/-- What a run has taken is back once it has returned. Its permit is released and its client checked
    in, no client is lost, and once all runs have returned, as many clients as the pool has permits
    can be checked out without waiting. -/
structure GivesBack (pool : Config) (s : Sys A Tid) : Prop where
  permit : ∀ t ok, s.runs t = .returned ok → t ∉ s.pool.holders
  checkIn : ∀ t ok, s.runs t = .returned ok → s.pool.calls t = .checkedIn t
  clients : Clients s
  ready : (∀ t, (s.runs t).active = false) → ∀ ts, ts.Nodup → ts.length ≤ pool.capacity →
    (∀ t ∈ ts, s.runs t = .idle) → CheckOuts pool ts s.pool

/-- No request fails. -/
def Succeeds (_ : Sys A Tid) : Label A Tid → Prop
  | .request _ ok => ok = true
  | _ => True

/-! ## What a step can do -/

variable {pool : Config} {s s' : Sys A Tid} {l : Label A Tid} {p p' : Pool.Sys A Tid Tid}

inductive Step (pool : Config) (s : Sys A Tid) : Label A Tid → Sys A Tid → Prop
  | start {t : Tid} {p : Pool.Sys A Tid Tid} (h : s.runs t = .idle)
      (hp : Pool.Step (E := Empty) pool s.pool (.get t t) p) :
      Step pool s (.start t) { (s.setPool p).setRun t .checkout with started := t :: s.started }
  | checkout {t : Tid} {p : Pool.Sys A Tid Tid} (h : s.runs t = .checkout)
      (hp : Pool.Step (E := Empty) pool s.pool (.step t) p) :
      Step pool s (.checkout t) { s.setPool p with expired := s.expired ++ s.thrown pool.ttl t }
  | factory {t : Tid} {client : A} {p : Pool.Sys A Tid Tid} (h : s.runs t = .checkout)
      (hp : Pool.Step (E := Empty) pool s.pool (.factory t (.ok client)) p) :
      Step pool s (.factory t client) (s.setPool p)
  | respond {t sc : Tid} {ok : Bool} {a : A} (h : s.runs t = .checkout)
      (hout : s.pool.calls t = .out sc a ∨ s.pool.calls t = .unscoped sc a) :
      Step pool s (.request t ok) (s.respond t ok)
  | close {t : Tid} {p : Pool.Sys A Tid Tid} (h : s.runs t = .closing)
      (hp : Pool.Step (E := Empty) pool s.pool (.close t) p) :
      Step pool s (.close t) ((s.setPool p).setRun t .swapped)
  | drain {t : Tid} {p : Pool.Sys A Tid Tid} (h : s.runs t = .swapped)
      (hp : Pool.Step (E := Empty) pool s.pool (.drain t true) p) :
      Step pool s (.close t) ((s.setPool p).setRun t .running)
  | finalize {t : Tid} {p : Pool.Sys A Tid Tid} (h : s.runs t = .running)
      (hp : Pool.Step (E := Empty) pool s.pool (.finalize t) p) :
      Step pool s (.close t) (s.setPool p)
  | finish {t : Tid} (h : s.runs t = .running) (hnil : s.pool.closing t = []) :
      Step pool s (.close t) (s.setRun t (.returned true))
  | tick {d : ℕ} : Step pool s (.tick d) (s.setPool { s.pool with now := s.pool.now + d })

theorem act_eq_some {l : Pool.Label A Empty Tid Tid} (h : s.act pool l = some s') :
    ∃ p, Pool.Step pool s.pool l p ∧ s' = s.setPool p := by
  obtain ⟨p, hp, hs'⟩ := Option.map_eq_some_iff.1 h
  exact ⟨p, .of_step hp, hs'.symm⟩

theorem act_map_eq_some {l : Pool.Label A Empty Tid Tid} {f : Sys A Tid → Sys A Tid}
    (h : (s.act pool l).map f = some s') :
    ∃ p, Pool.Step pool s.pool l p ∧ s' = f (s.setPool p) := by
  obtain ⟨m, hm, hs'⟩ := Option.map_eq_some_iff.1 h
  obtain ⟨p, hp, rfl⟩ := act_eq_some hm
  exact ⟨p, hp, hs'.symm⟩

theorem Step.of_step (h : step pool s l = some s') : Step pool s l s' := by
  unfold step at h
  split at h
  · split at h
    · next hrun =>
        obtain ⟨p, hp, rfl⟩ := act_map_eq_some h
        exact .start hrun hp
    · cases h
  · split at h
    · next hrun =>
        obtain ⟨p, hp, rfl⟩ := act_map_eq_some h
        exact .checkout hrun hp
    · cases h
  · split at h
    · next hrun =>
        obtain ⟨p, hp, rfl⟩ := act_eq_some h
        exact .factory hrun hp
    · cases h
  · split at h
    · next hrun hc => exact Option.some.inj h ▸ .respond hrun (.inl hc)
    · next hrun hc => exact Option.some.inj h ▸ .respond hrun (.inr hc)
    · cases h
  · split at h
    · next hrun =>
        obtain ⟨p, hp, rfl⟩ := act_map_eq_some h
        exact .close hrun hp
    · next hrun =>
        obtain ⟨p, hp, rfl⟩ := act_map_eq_some h
        exact .drain hrun hp
    · next hrun =>
        split at h
        · next hnil => exact Option.some.inj h ▸ .finish hrun hnil
        · obtain ⟨p, hp, rfl⟩ := act_eq_some h
          exact .finalize hrun hp
    · cases h
  · exact Option.some.inj h ▸ .tick

/-! ## Where the permit and the finalizers of a run are -/

/-- What the semaphore and the scope of a run hold for it. -/
structure Holding (A Tid : Type) where
  permit : Bool
  bucket : List (Finalizer A Tid)
  closing : List (Finalizer A Tid)
  closed : Bool
  drained : Bool

def holding (p : Pool.Sys A Tid Tid) (t : Tid) : Holding A Tid :=
  ⟨decide (t ∈ p.holders), p.bucket t, p.closing t, p.closed t, p.drained t⟩

/-- What may be held for a run that stands at `r`, and its call of `get` at `c`. -/
def holdings (t : Tid) : Run → Call A Tid → List (Holding A Tid)
  | .idle, .idle => [⟨false, [], [], false, false⟩]
  | .checkout, .acquiring _ => [⟨false, [], [], false, false⟩]
  | .checkout, .granted _ => [⟨true, [], [], false, false⟩]
  | .checkout, .addingPermit _ => [⟨true, [], [], false, false⟩]
  | .checkout, .acquired _ => [⟨true, [.permit t], [], false, false⟩]
  | .checkout, .making _ => [⟨true, [.permit t], [], false, false⟩]
  | .checkout, .holding _ _ => [⟨true, [.permit t], [], false, false⟩]
  | .checkout, .addingCheckIn _ _ => [⟨true, [.permit t], [], false, false⟩]
  | .checkout, .out _ a => [⟨true, [.checkIn t a, .permit t], [], false, false⟩]
  | .closing, .out _ a => [⟨true, [.checkIn t a, .permit t], [], false, false⟩]
  | .swapped, .out _ a => [⟨true, [.checkIn t a, .permit t], [], true, false⟩]
  | .running, .out _ a => [⟨true, [], [.checkIn t a, .permit t], true, true⟩]
  | .running, .checkedIn _ => [⟨true, [], [.permit t], true, true⟩, ⟨false, [], [], true, true⟩]
  | .returned true, .checkedIn _ => [⟨false, [], [], true, true⟩]
  | .returned false, .out _ _ => [⟨false, [], [], false, true⟩]
  | _, _ => []

structure Inv (s : Sys A Tid) : Prop where
  nodup : s.pool.holders.Nodup
  discard : s.pool.pool.discard = []
  scope : ∀ t sc, (s.pool.calls t).scope = some sc → sc = t
  held : ∀ t, holding s.pool t ∈ holdings t (s.runs t) (s.pool.calls t)
  started : ∀ t, t ∈ s.started ↔ s.runs t ≠ .idle
  once : s.started.Nodup

omit [DecidableEq A] in
theorem inv_init : Inv (Sys.init : Sys A Tid) where
  nodup := List.nodup_nil
  discard := rfl
  scope := by simp [Sys.init, Pool.Sys.init, Call.scope]
  held t := by simp [Sys.init, Pool.Sys.init, holding, holdings]
  started := by simp [Sys.init]
  once := List.nodup_nil

section Holding

variable {t u : Tid}

omit [DecidableEq A] in
@[simp] theorem holding_setCall (c : Call A Tid) : holding (p.setCall t c) u = holding p u := rfl

omit [DecidableEq A] in
@[simp] theorem holding_setPool (st : PoolState A) : holding (p.setPool st) u = holding p u := rfl

omit [DecidableEq A] in
theorem holding_grant :
    holding (p.grant t) u = if u = t then { holding p t with permit := true } else holding p u := by
  split
  · next h => simp [h, holding, Pool.Sys.grant]
  · next h => simp [h, holding, Pool.Sys.grant]

omit [DecidableEq A] in
theorem holding_release (hn : p.holders.Nodup) :
    holding (p.release t) u =
      if u = t then { holding p t with permit := false } else holding p u := by
  split
  · next h => simp [h, holding, Pool.Sys.release, hn.mem_erase_iff]
  · next h => simp [h, holding, Pool.Sys.release, hn.mem_erase_iff]

omit [DecidableEq A] in
theorem holding_push (f : Finalizer A Tid) :
    holding (p.push t f) u =
      if u = t then { holding p t with bucket := f :: p.bucket t } else holding p u := by
  split
  · next h => simp only [h, holding, Pool.Sys.push, Function.update_self]
  · next h =>
      simp only [holding, Pool.Sys.push, Function.update_of_ne h]
      rfl

omit [DecidableEq A] in
theorem holding_close :
    holding { p with closed := Function.update p.closed t true } u =
      if u = t then { holding p t with closed := true } else holding p u := by
  split
  · next h => simp only [h, holding, Function.update_self]
  · next h => simp only [holding, Function.update_of_ne h]

omit [DecidableEq A] in
theorem holding_drainKept :
    holding (p.drainKept t) u =
      if u = t then { holding p t with bucket := [], closing := p.bucket t, drained := true }
      else holding p u := by
  split
  · next h => simp only [h, holding, Pool.Sys.drainKept, Function.update_self]
  · next h =>
      simp only [holding, Pool.Sys.drainKept, Function.update_of_ne h]
      rfl

omit [DecidableEq A] in
theorem holding_setClosing (fs : List (Finalizer A Tid)) :
    holding (p.setClosing t fs) u =
      if u = t then { holding p t with closing := fs } else holding p u := by
  split
  · next h => simp only [h, holding, Pool.Sys.setClosing, Function.update_self]
  · next h =>
      simp only [holding, Pool.Sys.setClosing, Function.update_of_ne h]
      rfl

/-- The scope held the permit of its own run only. -/
theorem holding_drainLost (h : ∀ v, .permit v ∈ p.bucket t ↔ v = t) :
    holding (p.drainLost t) u =
      if u = t then { holding p t with permit := false, bucket := [], drained := true }
      else holding p u := by
  split
  · next hu => simp [hu, holding, Pool.Sys.drainLost, h]
  · next hu => simp [hu, holding, Pool.Sys.drainLost, h]

end Holding

/-- The run `t` has moved on to `r`, and nothing is different for the others. -/
structure Moved (p p' : Pool.Sys A Tid Tid) (t : Tid) (r : Run) : Prop where
  nodup : p'.holders.Nodup
  discard : p'.pool.discard = []
  scope : (p'.calls t).scope = some t
  held : holding p' t ∈ holdings t r (p'.calls t)
  rest : ∀ u, u ≠ t → p'.calls u = p.calls u ∧ holding p' u = holding p u

omit [DecidableEq A] in
theorem Inv.moved {t : Tid} {r : Run} (hs : Inv s) (hm : Moved s.pool s'.pool t r)
    (hruns : s'.runs = Function.update s.runs t r) (hstarted : s'.started = s.started)
    (hbefore : s.runs t ≠ .idle) (hafter : r ≠ .idle) : Inv s' where
  nodup := hm.nodup
  discard := hm.discard
  scope u sc h := by
    by_cases hut : u = t
    · rw [hut, hm.scope] at h
      exact (Option.some.inj h).symm.trans hut.symm
    · exact hs.scope u sc (by rwa [(hm.rest u hut).1] at h)
  held u := by
    rw [hruns]
    by_cases hut : u = t
    · rw [hut, Function.update_self]
      exact hm.held
    · rw [Function.update_of_ne hut, (hm.rest u hut).1, (hm.rest u hut).2]
      exact hs.held u
  started u := by
    rw [hstarted, hs.started, hruns]
    by_cases hut : u = t
    · rw [hut, Function.update_self]
      exact iff_of_true hbefore hafter
    · rw [Function.update_of_ne hut]
  once := hstarted ▸ hs.once

omit [DecidableEq A] in
/-- The call has come from `s.pool` by way of `m`, which differs from it in what is held for `t`. -/
theorem Moved.of_setCall {m : Pool.Sys A Tid Tid} {t : Tid} {r : Run} {c : Call A Tid}
    {h : Holding A Tid} (hn : m.holders.Nodup) (hd : m.pool.discard = []) (hc : m.calls = p.calls)
    (hh : ∀ u, holding m u = if u = t then h else holding p u) (hscope : c.scope = some t)
    (hmem : h ∈ holdings t r c) : Moved p (m.setCall t c) t r where
  nodup := hn
  discard := hd
  scope := by rw [setCall_calls, if_pos rfl, hscope]
  held := by
    rw [holding_setCall, hh, setCall_calls, if_pos rfl, if_pos rfl]
    exact hmem
  rest u hu := by
    rw [holding_setCall, hh, setCall_calls, if_neg hu, if_neg hu, hc]
    exact ⟨rfl, rfl⟩

omit [DecidableEq A] in
theorem holding_self {t : Tid} {h : Holding A Tid} (hh : holding p t = h) (u : Tid) :
    holding p u = if u = t then h else holding p u := by
  split
  · next hu => rw [hu, hh]
  · rfl

omit [DecidableEq A] in
/-- The scope of a call is that of its run, and what is held for it depends on where it stands. -/
theorem Inv.held_of (hs : Inv s) {t sc : Tid} {r : Run} {c : Call A Tid} (hr : s.runs t = r)
    (hc : s.pool.calls t = c) (hsc : c.scope = some sc) :
    sc = t ∧ holding s.pool t ∈ holdings t r c := by
  refine ⟨hs.scope t sc (by rw [hc, hsc]), ?_⟩
  rw [← hr, ← hc]
  exact hs.held t

/-- A call of `get` goes on. -/
theorem Inv.moved_checkout (hs : Inv s) {t : Tid} (h : s.runs t = .checkout)
    (hp : Pool.Step (E := Empty) pool s.pool (.step t) p) : Moved s.pool p t .checkout := by
  cases hp with
  | @grant _ sc hc hfree =>
      obtain ⟨rfl, ht⟩ := hs.held_of h hc rfl
      rw [holdings, List.mem_singleton] at ht
      have hnot : sc ∉ s.pool.holders := by simpa [holding] using congrArg Holding.permit ht
      refine .of_setCall (List.nodup_cons.2 ⟨hnot, hs.nodup⟩) hs.discard rfl
        (fun u => holding_grant) rfl ?_
      rw [ht]
      exact List.mem_singleton_self _
  | @refusePermit _ sc hc hcl =>
      obtain ⟨rfl, ht⟩ := hs.held_of h hc rfl
      rw [holdings, List.mem_singleton] at ht
      have hopen : s.pool.closed sc = false := congrArg Holding.closed ht
      rw [hopen] at hcl
      cases hcl
  | @acceptPermit _ sc hc hcl =>
      obtain ⟨rfl, ht⟩ := hs.held_of h hc rfl
      rw [holdings, List.mem_singleton] at ht
      exact .of_setCall hs.nodup hs.discard rfl (holding_self ht) rfl (List.mem_singleton_self _)
  | @addPermit _ sc hc =>
      obtain ⟨rfl, ht⟩ := hs.held_of h hc rfl
      rw [holdings, List.mem_singleton] at ht
      refine .of_setCall hs.nodup hs.discard rfl (fun u => holding_push _) rfl ?_
      have hb : s.pool.bucket sc = [] := congrArg Holding.bucket ht
      rw [ht, hb]
      exact List.mem_singleton_self _
  | @take _ sc a st hc htake =>
      obtain ⟨rfl, ht⟩ := hs.held_of h hc rfl
      rw [holdings, List.mem_singleton] at ht
      obtain ⟨_, _, _, _, _, _, rfl⟩ := PoolState.takeIdle_some htake
      exact .of_setCall hs.nodup hs.discard rfl (holding_self ht) rfl (List.mem_singleton_self _)
  | @takeNone _ sc st hc htake =>
      obtain ⟨rfl, ht⟩ := hs.held_of h hc rfl
      rw [holdings, List.mem_singleton] at ht
      obtain rfl := PoolState.takeIdle_none htake
      exact .of_setCall hs.nodup hs.discard rfl (holding_self ht) rfl (List.mem_singleton_self _)
  | @refuseCheckIn _ sc a hc hcl =>
      obtain ⟨rfl, ht⟩ := hs.held_of h hc rfl
      rw [holdings, List.mem_singleton] at ht
      have hopen : s.pool.closed sc = false := congrArg Holding.closed ht
      rw [hopen] at hcl
      cases hcl
  | @acceptCheckIn _ sc a hc hcl =>
      obtain ⟨rfl, ht⟩ := hs.held_of h hc rfl
      rw [holdings, List.mem_singleton] at ht
      exact .of_setCall hs.nodup hs.discard rfl (holding_self ht) rfl (List.mem_singleton_self _)
  | @addCheckIn _ sc a hc =>
      obtain ⟨rfl, ht⟩ := hs.held_of h hc rfl
      rw [holdings, List.mem_singleton] at ht
      refine .of_setCall hs.nodup hs.discard rfl (fun u => holding_push _) rfl ?_
      have hb : s.pool.bucket sc = [.permit sc] := congrArg Holding.bucket ht
      rw [ht, hb]
      exact List.mem_singleton_self _

/-- The factory has made a client. -/
theorem Inv.moved_factory (hs : Inv s) {t : Tid} {client : A} (h : s.runs t = .checkout)
    (hp : Pool.Step (E := Empty) pool s.pool (.factory t (.ok client)) p) :
    Moved s.pool p t .checkout := by
  cases hp with
  | @make _ sc a hc =>
      obtain ⟨rfl, ht⟩ := hs.held_of h hc rfl
      rw [holdings, List.mem_singleton] at ht
      exact .of_setCall hs.nodup hs.discard rfl (holding_self ht) rfl (List.mem_singleton_self _)

omit [DecidableEq A] in
/-- The run moves on, and its call of `get` has returned already. -/
theorem Moved.of_holding {m : Pool.Sys A Tid Tid} {t : Tid} {r : Run} {h : Holding A Tid}
    (hn : m.holders.Nodup) (hd : m.pool.discard = []) (hc : m.calls = p.calls)
    (hh : ∀ u, holding m u = if u = t then h else holding p u)
    (hscope : (p.calls t).scope = some t) (hmem : h ∈ holdings t r (p.calls t)) :
    Moved p m t r where
  nodup := hn
  discard := hd
  scope := hc ▸ hscope
  held := by
    rw [hh, if_pos rfl, hc]
    exact hmem
  rest u hu := ⟨by rw [hc], by rw [hh, if_neg hu]⟩

omit [DecidableEq A] in
/-- After `get` the client is out, and both finalizers are registered. -/
theorem Inv.out_of_checkout (hs : Inv s) {t sc : Tid} {a : A} (h : s.runs t = .checkout)
    (hout : s.pool.calls t = .out sc a ∨ s.pool.calls t = .unscoped sc a) :
    s.pool.calls t = .out t a ∧
      holding s.pool t = ⟨true, [.checkIn t a, .permit t], [], false, false⟩ := by
  rcases hout with hc | hc
  · obtain ⟨rfl, ht⟩ := hs.held_of h hc rfl
    exact ⟨hc, List.mem_singleton.1 ht⟩
  · cases (hs.held_of h hc rfl).2

theorem Inv.moved_respond (hs : Inv s) {t sc : Tid} {a : A} (ok : Bool) (h : s.runs t = .checkout)
    (hout : s.pool.calls t = .out sc a ∨ s.pool.calls t = .unscoped sc a) :
    Moved s.pool (s.respond t ok).pool t (if ok then .closing else .returned false) := by
  obtain ⟨hc, ht⟩ := hs.out_of_checkout h hout
  have hscope : (s.pool.calls t).scope = some t := by rw [hc]; rfl
  cases ok with
  | true =>
      refine .of_holding hs.nodup hs.discard rfl (holding_self ht) hscope ?_
      rw [hc]
      exact List.mem_singleton_self _
  | false =>
      have hb : s.pool.bucket t = [.checkIn t a, .permit t] := congrArg Holding.bucket ht
      refine .of_holding (hs.nodup.filter _) hs.discard rfl
        (fun u => holding_drainLost (by simp [hb])) hscope ?_
      rw [hc, ht]
      exact List.mem_singleton_self _

omit [DecidableEq A] [DecidableEq Tid] in
/-- Until its check-in a client is out. -/
theorem out_of_held {t : Tid} {r : Run} {c : Call A Tid} {h : Holding A Tid}
    (hr : r = .closing ∨ r = .swapped) (ht : h ∈ holdings t r c) :
    ∃ sc a, c = .out sc a ∧
      h = ⟨true, [.checkIn t a, .permit t], [], decide (r = .swapped), false⟩ := by
  cases c with
  | out sc a =>
      refine ⟨sc, a, rfl, ?_⟩
      rcases hr with rfl | rfl <;> exact List.mem_singleton.1 ht
  | _ => rcases hr with rfl | rfl <;> cases ht

theorem Inv.moved_close (hs : Inv s) {t : Tid} (h : s.runs t = .closing)
    (hp : Pool.Step (E := Empty) pool s.pool (.close t) p) : Moved s.pool p t .swapped := by
  have ht := hs.held t
  rw [h] at ht
  obtain ⟨sc, a, hc, hh⟩ := out_of_held (.inl rfl) ht
  obtain rfl := hs.scope t sc (by rw [hc]; rfl)
  cases hp with
  | close =>
      refine .of_holding hs.nodup hs.discard rfl (fun u => holding_close) (by rw [hc]; rfl) ?_
      rw [hc, hh]
      exact List.mem_singleton_self _

theorem Inv.moved_drain (hs : Inv s) {t : Tid} (h : s.runs t = .swapped)
    (hp : Pool.Step (E := Empty) pool s.pool (.drain t true) p) : Moved s.pool p t .running := by
  have ht := hs.held t
  rw [h] at ht
  obtain ⟨sc, a, hc, hh⟩ := out_of_held (.inr rfl) ht
  obtain rfl := hs.scope t sc (by rw [hc]; rfl)
  cases hp with
  | drainKept hcl hd =>
      have hb : s.pool.bucket sc = [.checkIn sc a, .permit sc] := congrArg Holding.bucket hh
      refine .of_holding hs.nodup hs.discard rfl (fun u => holding_drainKept) (by rw [hc]; rfl) ?_
      rw [hc, hh, hb]
      exact List.mem_singleton_self _

omit [DecidableEq A] [DecidableEq Tid] in
/-- While the finalizers run, the client is out, or checked in with the permit still to come. -/
theorem running_of_held {t : Tid} {c : Call A Tid} {h : Holding A Tid}
    (ht : h ∈ holdings t .running c) :
    (∃ sc a, c = .out sc a ∧ h = ⟨true, [], [.checkIn t a, .permit t], true, true⟩) ∨
    ∃ sc, c = .checkedIn sc ∧
      (h = ⟨true, [], [.permit t], true, true⟩ ∨ h = ⟨false, [], [], true, true⟩) := by
  cases c with
  | out sc a => exact .inl ⟨sc, a, rfl, List.mem_singleton.1 ht⟩
  | checkedIn sc => exact .inr ⟨sc, rfl, by simpa [holdings] using ht⟩
  | _ => cases ht

omit [DecidableEq A] in
/-- The check-in that a scope runs is that of its run, whose client is still out. -/
theorem Inv.checkIn_closing (hs : Inv s) {t u : Tid} {b : A} {fs : List (Finalizer A Tid)}
    (h : s.runs t = .running) (hcl : s.pool.closing t = .checkIn u b :: fs) :
    u = t ∧ s.pool.calls t = .out t b ∧ fs = [.permit t] ∧
      holding s.pool t = ⟨true, [], [.checkIn t b, .permit t], true, true⟩ := by
  have ht := hs.held t
  rw [h] at ht
  rcases running_of_held ht with ⟨sc, a, hc, hh⟩ | ⟨sc, hc, hh | hh⟩
  · obtain ⟨hu, rfl⟩ := List.cons.inj (hcl.symm.trans (congrArg Holding.closing hh))
    cases hu
    obtain rfl := hs.scope t sc (by rw [hc]; rfl)
    exact ⟨rfl, hc, rfl, hh⟩
  · cases hcl.symm.trans (congrArg Holding.closing hh)
  · cases hcl.symm.trans (congrArg Holding.closing hh)

theorem Inv.moved_finalize (hs : Inv s) {t : Tid} (h : s.runs t = .running)
    (hp : Pool.Step (E := Empty) pool s.pool (.finalize t) p) : Moved s.pool p t .running := by
  have ht := hs.held t
  rw [h] at ht
  cases hp with
  | @release _ u fs hcl =>
      rcases running_of_held ht with ⟨sc, a, hc, hh⟩ | ⟨sc, hc, hh | hh⟩
      · cases hcl.symm.trans (congrArg Holding.closing hh)
      · obtain ⟨hu, rfl⟩ := List.cons.inj (hcl.symm.trans (congrArg Holding.closing hh))
        cases hu
        obtain rfl := hs.scope t sc (by rw [hc]; rfl)
        refine .of_holding (hs.nodup.erase _) hs.discard rfl (fun v => ?_) (by rw [hc]; rfl)
          (h := ⟨false, [], [], true, true⟩) (by simp [hc, holdings])
        rw [holding_setClosing, holding_release hs.nodup, holding_release hs.nodup, if_pos rfl, hh]
        split <;> rfl
      · cases hcl.symm.trans (congrArg Holding.closing hh)
  | @checkIn _ u a fs hcl =>
      obtain ⟨rfl, -, rfl, hh⟩ := hs.checkIn_closing h hcl
      have hdiscard : (s.pool.pool.checkIn s.pool.now a).discard = [] := by
        unfold PoolState.checkIn
        split <;> exact hs.discard
      refine .of_setCall hs.nodup hdiscard rfl (fun v => holding_setClosing _) rfl ?_
      rw [holding_setPool, hh]
      exact List.mem_cons_self

omit [DecidableEq A] in
theorem Inv.moved_finish (hs : Inv s) {t : Tid} (h : s.runs t = .running)
    (hnil : s.pool.closing t = []) :
    s.pool.calls t = .checkedIn t ∧ Moved s.pool s.pool t (.returned true) := by
  have ht := hs.held t
  rw [h] at ht
  rcases running_of_held ht with ⟨sc, a, hc, hh⟩ | ⟨sc, hc, hh | hh⟩
  · cases hnil.symm.trans (congrArg Holding.closing hh)
  · cases hnil.symm.trans (congrArg Holding.closing hh)
  · obtain rfl := hs.scope t sc (by rw [hc]; rfl)
    refine ⟨hc, .of_holding hs.nodup hs.discard rfl (holding_self hh) (by rw [hc]; rfl) ?_⟩
    rw [hc]
    exact List.mem_singleton_self _

omit [DecidableEq A] in
theorem Inv.begin (hs : Inv s) {t : Tid} (h : s.runs t = .idle) :
    Inv { (s.setPool (s.pool.setCall t (.acquiring t))).setRun t .checkout with
      started := t :: s.started } where
  nodup := hs.nodup
  discard := hs.discard
  scope u sc hu := by
    have hu : ((s.pool.setCall t (.acquiring t)).calls u).scope = some sc := hu
    rw [setCall_calls] at hu
    split at hu
    · next hut => exact (Option.some.inj hu).symm.trans hut.symm
    · exact hs.scope u sc hu
  held u := by
    have hu := hs.held u
    show holding (s.pool.setCall t (.acquiring t)) u ∈ holdings u
      (Function.update s.runs t .checkout u) ((s.pool.setCall t (.acquiring t)).calls u)
    rw [holding_setCall, setCall_calls, Function.update_apply]
    split
    · next hut =>
        rw [hut, h] at hu
        rw [hut]
        cases hc : s.pool.calls t with
        | idle => rwa [hc] at hu
        | _ => rw [hc] at hu; cases hu
    · exact hu
  started u := by
    show u ∈ t :: s.started ↔ Function.update s.runs t .checkout u ≠ .idle
    rw [List.mem_cons, hs.started, Function.update_apply]
    split
    · next hut => simp [hut]
    · next hut => simp [hut]
  once := List.nodup_cons.2 ⟨fun hmem => (hs.started t).1 hmem h, hs.once⟩

omit [DecidableEq A] in
theorem runs_self {t : Tid} {r : Run} (h : s.runs t = r) : s.runs = Function.update s.runs t r := by
  rw [← h, Function.update_eq_self]

theorem Inv.step (hs : Inv s) (h : Step pool s l s') : Inv s' := by
  cases h with
  | @start t p h hp =>
      cases hp with
      | get hc => exact hs.begin h
  | checkout h hp =>
      exact hs.moved (hs.moved_checkout h hp) (runs_self h) rfl (by simp [h]) (by simp)
  | factory h hp =>
      exact hs.moved (hs.moved_factory h hp) (runs_self h) rfl (by simp [h]) (by simp)
  | @respond t sc ok a h hout =>
      refine hs.moved (hs.moved_respond ok h hout) ?_ ?_ (by simp [h]) ?_
      all_goals cases ok <;> simp [Sys.respond, Sys.setRun, Sys.dropScope, Sys.setPool]
  | close h hp => exact hs.moved (hs.moved_close h hp) rfl rfl (by simp [h]) (by simp)
  | drain h hp => exact hs.moved (hs.moved_drain h hp) rfl rfl (by simp [h]) (by simp)
  | finalize h hp =>
      exact hs.moved (hs.moved_finalize h hp) (runs_self h) rfl (by simp [h]) (by simp)
  | finish h hnil =>
      exact hs.moved (hs.moved_finish h hnil).2 rfl rfl (by simp [h]) (by simp)
  | tick => exact ⟨hs.nodup, hs.discard, hs.scope, hs.held, hs.started, hs.once⟩

/-! ## Clients -/

omit [DecidableEq Tid] in
/-- What is skipped, what is taken and what is left are the idle items. -/
theorem values_takeFrom (ttl : Option ℕ) (now : ℕ) (discard : List A) (idle : List (IdleSlot A)) :
    idle.map IdleSlot.value =
      (idle.takeWhile fun slot => !fresh ttl now discard slot).map IdleSlot.value ++
        (PoolState.takeFrom ttl now discard idle).1.toList ++
          (PoolState.takeFrom ttl now discard idle).2.map IdleSlot.value := by
  induction idle with
  | nil => rfl
  | cons slot rest ih =>
      unfold PoolState.takeFrom
      split
      · next hexp =>
          rw [List.takeWhile_cons_of_pos (by simp [fresh, hexp]), List.map_cons, List.map_cons,
            ih]
          rfl
      · next hexp =>
          split
          · next hdis =>
              rw [List.takeWhile_cons_of_pos (by simp [fresh, hdis]), List.map_cons, List.map_cons,
                ih]
              rfl
          · next hdis =>
              rw [List.takeWhile_cons_of_neg (by simp [fresh, hexp, hdis])]
              rfl

omit [DecidableEq A] in
theorem inUse_moved {t : Tid} {r : Run} (hm : Moved s.pool s'.pool t r)
    (hruns : s'.runs = Function.update s.runs t r) (u : Tid) (hu : u ≠ t) :
    s'.inUse u = s.inUse u := by
  rw [Sys.inUse, Sys.inUse, hruns, Function.update_of_ne hu, (hm.rest u hu).1]

/-- The run `t` has moved on. It is enough to look at what has become of its own client. -/
theorem Clients.moved (hc : Clients s) (hs : Inv s) {t : Tid} {r : Run} {x y : Option A}
    (hm : Moved s.pool s'.pool t r) (hruns : s'.runs = Function.update s.runs t r)
    (hstarted : s'.started = s.started) (ht : s.runs t ≠ .idle) (hx : s.inUse t = x)
    (hy : s'.inUse t = y)
    (hcount : ∀ a, s'.pool.made.count a + s.pool.pool.values.count a +
        (decide (x = some a)).toNat + s.expired.count a =
      s.pool.made.count a + s'.pool.pool.values.count a +
        (decide (y = some a)).toNat + s'.expired.count a) : Clients s' := by
  intro a
  have hbefore := hc a
  have hown := hcount a
  have huse := Gauge.countP_update (p := fun u => decide (s.inUse u = some a))
    (q := fun u => decide (s'.inUse u = some a)) ((hs.started t).2 ht) hs.once
    fun u hu => by rw [inUse_moved hm hruns u hu]
  rw [hx, hy] at huse
  rw [hstarted]
  omega

omit [DecidableEq A] [DecidableEq Tid] in
theorem inUse_of_active {t : Tid} (h : (s.runs t).active = true) :
    s.inUse t = (s.pool.calls t).item := if_pos h

omit [DecidableEq Tid] in
theorem thrown_of_not_acquired {t : Tid} {ttl : Option ℕ}
    (h : ∀ sc, s.pool.calls t ≠ .acquired sc) : s.thrown ttl t = [] := by
  unfold Sys.thrown
  split
  · next sc hc => exact absurd hc (h sc)
  · rfl

/-- A call of `get` takes an idle client, or it does nothing to the clients. -/
theorem count_checkout {t : Tid} (hp : Pool.Step (E := Empty) pool s.pool (.step t) p) (a : A) :
    p.made.count a = s.pool.made.count a ∧
    s.pool.pool.values.count a + (decide ((s.pool.calls t).item = some a)).toNat =
      p.pool.values.count a + (decide ((p.calls t).item = some a)).toNat +
        (s.thrown pool.ttl t).count a := by
  have hidle := values_takeFrom pool.ttl s.pool.now s.pool.pool.discard s.pool.pool.idle
  -- A call that does not look at the idle clients keeps what it has.
  have hkeep : ∀ {c : Call A Tid}, (∀ sc, s.pool.calls t ≠ .acquired sc) →
      c.item = (s.pool.calls t).item → s.pool.pool.values.count a +
        (decide ((s.pool.calls t).item = some a)).toNat = s.pool.pool.values.count a +
        (decide (((s.pool.setCall t c).calls t).item = some a)).toNat +
        (s.thrown pool.ttl t).count a := by
    intro c hacq hitem
    rw [thrown_of_not_acquired hacq, setCall_calls, if_pos rfl, hitem, List.count_nil]
    rfl
  cases hp with
  | @take _ sc b st hc htake =>
      obtain ⟨htaken, rfl⟩ := Prod.mk.inj htake
      refine ⟨rfl, ?_⟩
      rw [htaken] at hidle
      have hcount := congrArg (List.count a) hidle
      simp only [List.count_append, Option.toList_some, List.count_singleton] at hcount
      rw [setCall_calls, if_pos rfl, Sys.thrown, hc]
      simp only [Call.item, PoolState.values, Pool.Sys.setCall, Pool.Sys.setPool,
        hcount]
      by_cases hba : b = a
      · simp [hba]
        omega
      · simp [hba]
        omega
  | @takeNone _ sc st hc htake =>
      obtain ⟨htaken, rfl⟩ := Prod.mk.inj htake
      refine ⟨rfl, ?_⟩
      rw [htaken] at hidle
      have hcount := congrArg (List.count a) hidle
      simp only [List.count_append, Option.toList_none, List.count_nil] at hcount
      rw [setCall_calls, if_pos rfl, Sys.thrown, hc]
      simp only [Call.item, PoolState.values, Pool.Sys.setCall, Pool.Sys.setPool,
        hcount]
      simp
      omega
  | grant hc hfree => exact ⟨rfl, hkeep (by simp [hc]) (by rw [hc]; rfl)⟩
  | refusePermit hc hcl => exact ⟨rfl, hkeep (by simp [hc]) (by rw [hc]; rfl)⟩
  | acceptPermit hc hcl => exact ⟨rfl, hkeep (by simp [hc]) (by rw [hc]; rfl)⟩
  | addPermit hc => exact ⟨rfl, hkeep (by simp [hc]) (by rw [hc]; rfl)⟩
  | refuseCheckIn hc hcl => exact ⟨rfl, hkeep (by simp [hc]) (by rw [hc]; rfl)⟩
  | acceptCheckIn hc hcl => exact ⟨rfl, hkeep (by simp [hc]) (by rw [hc]; rfl)⟩
  | addCheckIn hc => exact ⟨rfl, hkeep (by simp [hc]) (by rw [hc]; rfl)⟩

theorem Clients.begin (hc : Clients s) (hs : Inv s) {t : Tid} (h : s.runs t = .idle) :
    Clients { (s.setPool (s.pool.setCall t (.acquiring t))).setRun t .checkout with
      started := t :: s.started } := by
  intro a
  have hsame : ∀ u, Sys.inUse { (s.setPool (s.pool.setCall t (.acquiring t))).setRun t .checkout
      with started := t :: s.started } u = if u = t then none else s.inUse u := by
    intro u
    simp only [Sys.inUse, Sys.setRun, Sys.setPool, setCall_calls, Function.update_apply]
    split <;> rfl
  have hrest : s.started.countP (fun u => decide ((if u = t then none else s.inUse u) = some a)) =
      s.started.countP fun u => decide (s.inUse u = some a) := by
    refine List.countP_congr fun u hu => ?_
    rw [if_neg]
    rintro rfl
    exact (hs.started u).1 hu h
  have hbefore := hc a
  simp only [hsame, List.countP_cons, if_true, hrest]
  exact hbefore

/-- The run was active and still is. -/
theorem Clients.moved_active (hc : Clients s) (hs : Inv s) {t : Tid} {r : Run} {x y : Option A}
    (hm : Moved s.pool s'.pool t r) (hruns : s'.runs = Function.update s.runs t r)
    (hstarted : s'.started = s.started) (ht : (s.runs t).active = true) (hr : r.active = true)
    (hx : (s.pool.calls t).item = x) (hy : (s'.pool.calls t).item = y)
    (hcount : ∀ a, s'.pool.made.count a + s.pool.pool.values.count a +
        (decide (x = some a)).toNat + s.expired.count a =
      s.pool.made.count a + s'.pool.pool.values.count a +
        (decide (y = some a)).toNat + s'.expired.count a) : Clients s' := by
  have hidle : s.runs t ≠ .idle := by
    intro h
    rw [h] at ht
    cases ht
  have hafter : (s'.runs t).active = true := by rw [hruns, Function.update_self, hr]
  exact hc.moved hs hm hruns hstarted hidle ((inUse_of_active ht).trans hx)
    ((inUse_of_active hafter).trans hy) hcount

/-- **One step.** No client is lost unless a request fails. -/
theorem Clients.step (hc : Clients s) (hs : Inv s) (h : Step pool s l s') (hg : Succeeds s l) :
    Clients s' := by
  cases h with
  | @start t p h hp =>
      cases hp with
      | get => exact hc.begin hs h
  | @checkout t p h hp =>
      refine hc.moved_active hs (hs.moved_checkout h hp) (runs_self h) rfl (by rw [h]; rfl) rfl
        rfl (y := (p.calls t).item) rfl fun a => ?_
      obtain ⟨hmade, hcount⟩ := count_checkout hp a
      simp only [Sys.setPool, List.count_append, hmade]
      omega
  | @factory t client p h hp =>
      have hm := hs.moved_factory h hp
      cases hp with
      | @make _ sc _ hcall =>
          refine hc.moved_active hs hm (runs_self h) rfl (by rw [h]; rfl) rfl (x := none)
            (y := some client) (by rw [hcall]; rfl) ?_ fun a => ?_
          · rw [Sys.setPool, setCall_calls, if_pos rfl]
            rfl
          · simp only [Sys.setPool, Pool.Sys.setCall, List.count_cons]
            by_cases ha : client = a
            · simp [ha]
              omega
            · simp [ha]
  | @respond t sc ok a h hout =>
      obtain rfl : ok = true := hg
      exact hc.moved_active hs (hs.moved_respond true h hout) rfl rfl (by rw [h]; rfl) rfl rfl rfl
        fun a => rfl
  | @close t p h hp =>
      have hm := hs.moved_close h hp
      cases hp with
      | close => exact hc.moved_active hs hm rfl rfl (by rw [h]; rfl) rfl rfl rfl fun a => rfl
  | @drain t p h hp =>
      have hm := hs.moved_drain h hp
      cases hp with
      | drainKept hcl hd =>
          exact hc.moved_active hs hm rfl rfl (by rw [h]; rfl) rfl rfl rfl fun a => rfl
  | @finalize t p h hp =>
      have hm := hs.moved_finalize h hp
      cases hp with
      | release hcl =>
          exact hc.moved_active hs hm (runs_self h) rfl (by rw [h]; rfl) rfl rfl rfl fun a => rfl
      | @checkIn _ u b fs hcl =>
          obtain ⟨rfl, hcall, -, -⟩ := hs.checkIn_closing h hcl
          refine hc.moved_active hs hm (runs_self h) rfl (by rw [h]; rfl) rfl (x := some b)
            (y := none) (by rw [hcall]; rfl) ?_ fun a => ?_
          · rw [Sys.setPool, setCall_calls, if_pos rfl]
            rfl
          · have hnot : b ∉ s.pool.pool.discard := by simp [hs.discard]
            simp only [Sys.setPool, Pool.Sys.setCall, Pool.Sys.setClosing, Pool.Sys.setPool,
              PoolState.checkIn, if_neg hnot, PoolState.values, List.map_append, List.count_append]
            by_cases ha : b = a
            · simp [ha]
              omega
            · simp [ha]
  | finish h hnil =>
      obtain ⟨hcall, hm⟩ := hs.moved_finish h hnil
      refine hc.moved hs hm rfl rfl (by simp [h]) (x := none) (y := none) ?_ ?_ fun a => rfl
      · rw [inUse_of_active (by rw [h]; rfl), hcall]
        rfl
      · exact if_neg (by simp [Sys.setRun, Run.active])
  | tick => exact hc

/-! ## Permits -/

/-- As many calls of `get` as there are permits do not have to wait. -/
theorem checkOuts [Nonempty A] {ts : List Tid} (hnodup : ts.Nodup)
    (hlen : ts.length ≤ pool.capacity - p.holders.length)
    (hidle : ∀ t ∈ ts, p.calls t = .idle ∧ p.closed t = false) : CheckOuts pool ts p := by
  induction ts generalizing p with
  | nil => trivial
  | cons t ts ih =>
      obtain ⟨hnot, hnodup⟩ := List.nodup_cons.1 hnodup
      obtain ⟨⟨hcall, hopen⟩, hidle⟩ := List.forall_mem_cons.1 hidle
      obtain ⟨client⟩ := ‹Nonempty A›
      have hpos : (p.world pool t).permits ≠ 0 := by
        simp only [Pool.Sys.world, List.length_cons] at hlen ⊢
        omega
      obtain ⟨a, w, hget, hpermits⟩ :=
        get_succeeds (E := Empty) pool.ttl t client hpos hopen
      obtain ⟨p', halone, hreturned, hworld⟩ := get_alone hcall hget
      obtain ⟨hclosed, hcalls⟩ := halone.frame
      refine ⟨a, p', halone, hreturned, ih hnodup ?_ fun u hu => ?_⟩
      · rw [← hworld] at hpermits
        simp only [Pool.Sys.world, List.length_cons] at hlen hpermits
        omega
      · rw [hcalls u fun heq => hnot (heq ▸ hu), hclosed]
        exact hidle u hu

omit [DecidableEq A] [DecidableEq Tid] in
/-- A run that is not active holds no permit. -/
theorem permit_of_held {t : Tid} {r : Run} {c : Call A Tid} {h : Holding A Tid}
    (ht : h ∈ holdings t r c) (hr : r.active = false) : h.permit = false := by
  cases r with
  | idle => cases c <;> simp_all [holdings]
  | returned ok => cases ok <;> cases c <;> simp_all [holdings]
  | _ => cases hr

omit [DecidableEq A] in
theorem Inv.released (hs : Inv s) {t : Tid} (h : (s.runs t).active = false) :
    t ∉ s.pool.holders := by
  simpa [holding] using permit_of_held (hs.held t) h

omit [DecidableEq A] in
/-- A run that has not begun has not touched the pool. -/
theorem Inv.untouched (hs : Inv s) {t : Tid} (h : s.runs t = .idle) :
    s.pool.calls t = .idle ∧ s.pool.closed t = false := by
  have ht := hs.held t
  rw [h] at ht
  cases hc : s.pool.calls t with
  | idle =>
      rw [hc] at ht
      exact ⟨rfl, congrArg Holding.closed (List.mem_singleton.1 ht)⟩
  | _ => rw [hc] at ht; cases ht

theorem Inv.ready [Nonempty A] (hs : Inv s) (hdone : ∀ t, (s.runs t).active = false)
    {ts : List Tid} (hnodup : ts.Nodup) (hlen : ts.length ≤ pool.capacity)
    (hidle : ∀ t ∈ ts, s.runs t = .idle) : CheckOuts pool ts s.pool := by
  have hnone : s.pool.holders = [] :=
    List.eq_nil_iff_forall_not_mem.2 fun t => hs.released (hdone t)
  exact checkOuts hnodup (by simpa [hnone] using hlen) fun t ht => hs.untouched (hidle t ht)

/-! ## Every run -/

/-- No run has returned an error. -/
def NoneFailed (s : Sys A Tid) : Prop := ∀ t, s.runs t ≠ .returned false

theorem Inv.givesBack_iff [Nonempty A] (hs : Inv s) :
    GivesBack pool s ↔ NoneFailed s ∧ Clients s := by
  constructor
  · intro h
    refine ⟨fun t hfail => ?_, h.clients⟩
    have ht := hs.held t
    rw [hfail, h.checkIn t false hfail] at ht
    cases ht
  · rintro ⟨hnone, hclients⟩
    refine ⟨fun t ok h => hs.released (by rw [h]; rfl), fun t ok h => ?_, hclients,
      fun hdone ts hnodup hlen hidle => hs.ready hdone hnodup hlen hidle⟩
    cases ok with
    | false => exact absurd h (hnone t)
    | true =>
        have ht := hs.held t
        rw [h] at ht
        cases hc : s.pool.calls t with
        | checkedIn sc => rw [hs.scope t sc (by rw [hc]; rfl)]
        | _ => rw [hc] at ht; cases ht

omit [DecidableEq A] in
theorem NoneFailed.setRun (hn : NoneFailed s) {t : Tid} {r : Run} (hr : r ≠ .returned false) :
    NoneFailed (s.setRun t r) := by
  intro u
  simp only [Sys.setRun, Function.update_apply]
  split
  · exact hr
  · exact hn u

theorem NoneFailed.step_iff (hn : NoneFailed s) (h : Step pool s l s') :
    NoneFailed s' ↔ Succeeds s l := by
  cases h with
  | @respond t sc ok a h hout =>
      cases ok with
      | true => exact iff_of_true (hn.setRun (by simp)) rfl
      | false =>
          refine iff_of_false (fun hnone => hnone t ?_) (by simp [Succeeds])
          simp [Sys.respond, Sys.setRun]
  | start h hp => exact iff_of_true (hn.setRun (by simp)) trivial
  | close h hp => exact iff_of_true (hn.setRun (by simp)) trivial
  | drain h hp => exact iff_of_true (hn.setRun (by simp)) trivial
  | finish h hnil => exact iff_of_true (hn.setRun (by simp)) trivial
  | _ => exact iff_of_true hn trivial

/-- A failed request is all it takes to lose a client, and nothing else loses one. -/
theorem send_pooled_gives_back_iff [Nonempty A] (pool : Config) (ls : List (Label A Tid))
    (s : Sys A Tid) (hrun : run (step pool) .init ls = some s) :
    Throughout (step pool) (GivesBack pool) .init ls ↔ Along (step pool) Succeeds .init ls := by
  have hinit : GivesBack pool (Sys.init : Sys A Tid) := by
    refine inv_init.givesBack_iff.2 ⟨fun t => by simp [Sys.init], fun a => ?_⟩
    simp [Sys.init, Pool.Sys.init, PoolState.default, PoolState.values]
  refine throughout_iff_along (I := Inv) (fun s l s' hs _ _ h => hs.step (.of_step h))
    (fun s l s' hs hP h => ?_) inv_init hinit hrun
  have h := Step.of_step h
  obtain ⟨hnone, hclients⟩ := hs.givesBack_iff.1 hP
  rw [(hs.step h).givesBack_iff, hnone.step_iff h]
  exact and_iff_left_of_imp fun hg => hclients.step hs h hg

/-- Whether requests fail or not, permits come back: a run that has returned holds none, and once
    all runs have returned the whole pool can be checked out without waiting. -/
theorem permits_come_back [Nonempty A] {ls : List (Label A Tid)}
    (hrun : run (step pool) .init ls = some s) :
    (∀ t, (s.runs t).active = false → t ∉ s.pool.holders) ∧
    ((∀ t, (s.runs t).active = false) → ∀ ts, ts.Nodup → ts.length ≤ pool.capacity →
      (∀ t ∈ ts, s.runs t = .idle) → CheckOuts pool ts s.pool) := by
  have hs : Inv s := run_invariant (fun _ _ _ hs h => hs.step (.of_step h)) inv_init hrun
  exact ⟨fun t ht => hs.released ht, fun hdone ts hnodup hlen hidle =>
    hs.ready hdone hnodup hlen hidle⟩

/-- A run makes a client and leaves it idle. -/
theorem send_pooled_gives_back_iff_once :
    ∃ s, run (step ⟨1, some 60⟩) (Sys.init : Sys ℕ ℕ) [.start 0, .checkout 0, .checkout 0,
        .checkout 0, .checkout 0, .factory 0 7, .checkout 0, .checkout 0, .request 0 true, .close 0,
        .close 0, .close 0, .close 0, .close 0] = some s ∧
      s.runs 0 = .returned true ∧ s.pool.holders = [] ∧ s.pool.pool.values = [7] ∧
      Throughout (step ⟨1, some 60⟩) (GivesBack ⟨1, some 60⟩) .init [.start 0, .checkout 0,
        .checkout 0, .checkout 0, .checkout 0, .factory 0 7, .checkout 0, .checkout 0,
        .request 0 true, .close 0, .close 0, .close 0, .close 0, .close 0] := by
  refine ⟨_, rfl, rfl, rfl, rfl, (send_pooled_gives_back_iff _ _ _ rfl).2 ?_⟩
  exact along_of_forall (by simp [Succeeds]) _

/-- The request of the only run fails: the permit is back, and the client is gone. -/
theorem failed_request_loses_client :
    ∃ s, run (step ⟨1, some 60⟩) (Sys.init : Sys ℕ ℕ) [.start 0, .checkout 0, .checkout 0,
        .checkout 0, .checkout 0, .factory 0 7, .checkout 0, .checkout 0,
        .request 0 false] = some s ∧
      s.runs 0 = .returned false ∧ s.pool.holders = [] ∧ s.pool.made = [7] ∧
      s.pool.pool.values = [] ∧ ¬ GivesBack ⟨1, some 60⟩ s := by
  refine ⟨_, rfl, rfl, rfl, rfl, rfl, fun h => ?_⟩
  cases h.checkIn 0 false rfl

end IdEffect.SendPooled
