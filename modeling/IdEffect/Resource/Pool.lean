import Mathlib.Data.List.Nodup
import Mathlib.Logic.Function.Basic
import IdEffect.Lib.Transition

set_option autoImplicit false

/-! # Resource pools: `resource/pool.rs`

Any number of calls of `Pool::get` share one pool: its semaphore, and the idle slots and discarded
items under the mutex of a `SynchronizedRef`. Each call runs under a scope; several calls may run
under the same one.

A `get` waits for a permit of the semaphore, registers the permit's release as a finalizer of its
scope (`Semaphore::acquire`), takes an idle slot or awaits the factory, registers the check-in of
the item as a second finalizer, and returns. `add_finalizer` is two steps: the look at `is_closed`
and the push; a finalizer that is refused is dropped, which releases a permit and loses a check-in.

Of a scope the pool sees three things. From some step on `is_closed` answers yes, because the scope
itself or an ancestor is being closed (`close`). Later the bucket is drained (`drain`), and its
finalizers run one by one, the last registered first (`finalize`). A drain whose transaction has to
be repeated loses what it took out of the cells in its first attempt (`drain` with `kept = false`):
the finalizers are dropped without being run. Nothing is assumed about the order of the steps of
different scopes.

The semaphore is modelled by the calls whose permit has not been released, and grants one only while
these are fewer than the capacity. Items are compared with a lawful equality. `made` keeps the books
of what the factory has returned. -/

namespace IdEffect.Pool

open Transition

variable {A E Tid Sid : Type} [DecidableEq A] [DecidableEq Tid] [DecidableEq Sid]

/-! ## The state of the pool -/

structure IdleSlot (A : Type) where
  value : A
  storedAt : ℕ
  deriving DecidableEq, Repr

structure PoolState (A : Type) where
  idle : List (IdleSlot A)
  discard : List A

namespace PoolState

def default : PoolState A := ⟨[], []⟩

def expired (ttl : Option ℕ) (now : ℕ) (slot : IdleSlot A) : Bool :=
  match ttl with
  | none => false
  | some t => decide (now - slot.storedAt > t)

/-- The `while` of `take_idle`, on the idle slots. -/
def takeFrom (ttl : Option ℕ) (now : ℕ) (discard : List A) :
    List (IdleSlot A) → Option A × List (IdleSlot A)
  | [] => (none, [])
  | slot :: rest =>
      if expired ttl now slot then takeFrom ttl now discard rest
      else if slot.value ∈ discard then takeFrom ttl now discard rest
      else (some slot.value, rest)

def takeIdle (ttl : Option ℕ) (now : ℕ) (pool : PoolState A) : Option A × PoolState A :=
  ((takeFrom ttl now pool.discard pool.idle).1,
    { pool with idle := (takeFrom ttl now pool.discard pool.idle).2 })

/-- The check-in of an item. -/
def checkIn (now : ℕ) (value : A) (pool : PoolState A) : PoolState A :=
  if value ∈ pool.discard then pool else { pool with idle := pool.idle ++ [⟨value, now⟩] }

def invalidate (item : A) (pool : PoolState A) : PoolState A where
  discard := pool.discard ++ [item]
  idle := pool.idle.filter fun slot => decide (slot.value ≠ item)

/-- The items in the idle list. -/
def values (pool : PoolState A) : List A := pool.idle.map IdleSlot.value

/-- An item that is taken was idle and not discarded; it and the slots skipped before it leave the
    idle list. If none is taken, the list is empty. -/
theorem takeFrom_spec (ttl : Option ℕ) (now : ℕ) (discard : List A) (idle : List (IdleSlot A)) :
    (∃ skipped slot rest, idle = skipped ++ slot :: rest ∧ slot.value ∉ discard ∧
      takeFrom ttl now discard idle = (some slot.value, rest)) ∨
    takeFrom ttl now discard idle = (none, []) := by
  induction idle with
  | nil => exact .inr rfl
  | cons slot rest ih =>
      have hskip : (∃ skipped slot' rest', slot :: rest = skipped ++ slot' :: rest' ∧
          slot'.value ∉ discard ∧ takeFrom ttl now discard rest = (some slot'.value, rest')) ∨
          takeFrom ttl now discard rest = (none, []) := by
        rcases ih with ⟨skipped, slot', rest', heq, hdis, htake⟩ | hnone
        · exact .inl ⟨slot :: skipped, slot', rest', by rw [heq, List.cons_append], hdis, htake⟩
        · exact .inr hnone
      unfold takeFrom
      split
      · exact hskip
      · split
        · exact hskip
        · next hdis => exact .inl ⟨[], slot, rest, rfl, hdis, rfl⟩

end PoolState

/-! ## The system -/

/-- What `get` registers: the release of the call's permit, and the check-in of its item. -/
inductive Finalizer (A Tid : Type) where
  | permit (t : Tid)
  | checkIn (t : Tid) (value : A)
  deriving DecidableEq, Repr

/-- The fields of a `Pool` that do not change. The factory is left to the run. -/
structure Config where
  capacity : ℕ
  ttl : Option ℕ

/-- Where a call of `get` stands. It has returned its item in `out` and in `unscoped`, whose
    check-in was refused, and an error in `failed`. An `out` item whose check-in has run is
    `checkedIn`. -/
inductive Call (A Sid : Type) where
  | idle
  | acquiring (sc : Sid)
  | granted (sc : Sid)
  | addingPermit (sc : Sid)
  | acquired (sc : Sid)
  | making (sc : Sid)
  | holding (sc : Sid) (a : A)
  | addingCheckIn (sc : Sid) (a : A)
  | out (sc : Sid) (a : A)
  | unscoped (sc : Sid) (a : A)
  | failed (sc : Sid)
  | checkedIn (sc : Sid)
  deriving DecidableEq, Repr

def Call.scope : Call A Sid → Option Sid
  | .idle => none
  | .acquiring sc => some sc
  | .granted sc => some sc
  | .addingPermit sc => some sc
  | .acquired sc => some sc
  | .making sc => some sc
  | .holding sc _ => some sc
  | .addingCheckIn sc _ => some sc
  | .out sc _ => some sc
  | .unscoped sc _ => some sc
  | .failed sc => some sc
  | .checkedIn sc => some sc

/-- The item a call has taken and not checked in. -/
def Call.item : Call A Sid → Option A
  | .holding _ a => some a
  | .addingCheckIn _ a => some a
  | .out _ a => some a
  | .unscoped _ a => some a
  | _ => none

/-- `bucket` holds a scope's registered finalizers and `closing` those its close has drained, the
    next to run first. -/
structure Sys (A Tid Sid : Type) where
  pool : PoolState A
  holders : List Tid
  closed : Sid → Bool
  drained : Sid → Bool
  bucket : Sid → List (Finalizer A Tid)
  closing : Sid → List (Finalizer A Tid)
  calls : Tid → Call A Sid
  now : ℕ
  made : List A

inductive Label (A E Tid Sid : Type) where
  | get (t : Tid) (sc : Sid)
  | step (t : Tid)
  | factory (t : Tid) (result : Except E A)
  | invalidate (item : A)
  | close (sc : Sid)
  | drain (sc : Sid) (kept : Bool)
  | finalize (sc : Sid)
  | tick (d : ℕ)

namespace Sys

def init : Sys A Tid Sid where
  pool := .default
  holders := []
  closed := fun _ => false
  drained := fun _ => false
  bucket := fun _ => []
  closing := fun _ => []
  calls := fun _ => .idle
  now := 0
  made := []

def setCall (s : Sys A Tid Sid) (t : Tid) (c : Call A Sid) : Sys A Tid Sid :=
  { s with calls := Function.update s.calls t c }

def setPool (s : Sys A Tid Sid) (pool : PoolState A) : Sys A Tid Sid := { s with pool := pool }

def grant (s : Sys A Tid Sid) (t : Tid) : Sys A Tid Sid := { s with holders := t :: s.holders }

def release (s : Sys A Tid Sid) (t : Tid) : Sys A Tid Sid :=
  { s with holders := s.holders.erase t }

def push (s : Sys A Tid Sid) (sc : Sid) (f : Finalizer A Tid) : Sys A Tid Sid :=
  { s with bucket := Function.update s.bucket sc (f :: s.bucket sc) }

/-- The drain takes the finalizers, to run them. -/
def drainKept (s : Sys A Tid Sid) (sc : Sid) : Sys A Tid Sid :=
  { s with
    drained := Function.update s.drained sc true
    bucket := Function.update s.bucket sc []
    closing := Function.update s.closing sc (s.bucket sc) }

/-- The drain takes the finalizers and drops them, and with them their permits. -/
def drainLost (s : Sys A Tid Sid) (sc : Sid) : Sys A Tid Sid :=
  { s with
    drained := Function.update s.drained sc true
    bucket := Function.update s.bucket sc []
    holders := s.holders.filter fun t => decide (.permit t ∉ s.bucket sc) }

def setClosing (s : Sys A Tid Sid) (sc : Sid) (fs : List (Finalizer A Tid)) : Sys A Tid Sid :=
  { s with closing := Function.update s.closing sc fs }

end Sys

def stepCall (pool : Config) (s : Sys A Tid Sid) (t : Tid) : Option (Sys A Tid Sid) :=
  match s.calls t with
  | .acquiring sc =>
      if s.holders.length < pool.capacity then some ((s.grant t).setCall t (.granted sc)) else none
  | .granted sc =>
      if s.closed sc then some ((s.release t).setCall t (.acquired sc))
      else some (s.setCall t (.addingPermit sc))
  | .addingPermit sc => some ((s.push sc (.permit t)).setCall t (.acquired sc))
  | .acquired sc =>
      match s.pool.takeIdle pool.ttl s.now with
      | (some a, st) => some ((s.setPool st).setCall t (.holding sc a))
      | (none, st) => some ((s.setPool st).setCall t (.making sc))
  | .holding sc a =>
      if s.closed sc then some (s.setCall t (.unscoped sc a))
      else some (s.setCall t (.addingCheckIn sc a))
  | .addingCheckIn sc a => some ((s.push sc (.checkIn t a)).setCall t (.out sc a))
  | _ => none

def step (pool : Config) (s : Sys A Tid Sid) : Label A E Tid Sid → Option (Sys A Tid Sid)
  | .get t sc =>
      match s.calls t with
      | .idle => some (s.setCall t (.acquiring sc))
      | _ => none
  | .step t => stepCall pool s t
  | .factory t result =>
      match s.calls t with
      | .making sc =>
          match result with
          | .ok a => some ({ s with made := a :: s.made }.setCall t (.holding sc a))
          | .error _ => some (s.setCall t (.failed sc))
      | _ => none
  | .invalidate item => some (s.setPool (s.pool.invalidate item))
  | .close sc => some { s with closed := Function.update s.closed sc true }
  | .drain sc kept =>
      if s.closed sc ∧ ¬ s.drained sc then
        some (if kept then s.drainKept sc else s.drainLost sc)
      else none
  | .finalize sc =>
      match s.closing sc with
      | .permit t :: fs => some ((s.release t).setClosing sc fs)
      | .checkIn t a :: fs =>
          some (((s.setPool (s.pool.checkIn s.now a)).setClosing sc fs).setCall t (.checkedIn sc))
      | [] => none
  | .tick d => some { s with now := s.now + d }

/-! ## What a step can do -/

variable {pool : Config} {s s' : Sys A Tid Sid} {l : Label A E Tid Sid}

inductive Step (pool : Config) (s : Sys A Tid Sid) : Label A E Tid Sid → Sys A Tid Sid → Prop
  | get {t : Tid} {sc : Sid} (h : s.calls t = .idle) :
      Step pool s (.get t sc) (s.setCall t (.acquiring sc))
  | grant {t : Tid} {sc : Sid} (h : s.calls t = .acquiring sc)
      (hfree : s.holders.length < pool.capacity) :
      Step pool s (.step t) ((s.grant t).setCall t (.granted sc))
  | refusePermit {t : Tid} {sc : Sid} (h : s.calls t = .granted sc) (hcl : s.closed sc = true) :
      Step pool s (.step t) ((s.release t).setCall t (.acquired sc))
  | acceptPermit {t : Tid} {sc : Sid} (h : s.calls t = .granted sc) (hcl : s.closed sc = false) :
      Step pool s (.step t) (s.setCall t (.addingPermit sc))
  | addPermit {t : Tid} {sc : Sid} (h : s.calls t = .addingPermit sc) :
      Step pool s (.step t) ((s.push sc (.permit t)).setCall t (.acquired sc))
  | take {t : Tid} {sc : Sid} {a : A} {st : PoolState A} (h : s.calls t = .acquired sc)
      (htake : s.pool.takeIdle pool.ttl s.now = (some a, st)) :
      Step pool s (.step t) ((s.setPool st).setCall t (.holding sc a))
  | takeNone {t : Tid} {sc : Sid} {st : PoolState A} (h : s.calls t = .acquired sc)
      (htake : s.pool.takeIdle pool.ttl s.now = (none, st)) :
      Step pool s (.step t) ((s.setPool st).setCall t (.making sc))
  | make {t : Tid} {sc : Sid} {a : A} (h : s.calls t = .making sc) :
      Step pool s (.factory t (.ok a))
        ({ s with made := a :: s.made }.setCall t (.holding sc a))
  | fail {t : Tid} {sc : Sid} {e : E} (h : s.calls t = .making sc) :
      Step pool s (.factory t (.error e)) (s.setCall t (.failed sc))
  | refuseCheckIn {t : Tid} {sc : Sid} {a : A} (h : s.calls t = .holding sc a)
      (hcl : s.closed sc = true) : Step pool s (.step t) (s.setCall t (.unscoped sc a))
  | acceptCheckIn {t : Tid} {sc : Sid} {a : A} (h : s.calls t = .holding sc a)
      (hcl : s.closed sc = false) : Step pool s (.step t) (s.setCall t (.addingCheckIn sc a))
  | addCheckIn {t : Tid} {sc : Sid} {a : A} (h : s.calls t = .addingCheckIn sc a) :
      Step pool s (.step t) ((s.push sc (.checkIn t a)).setCall t (.out sc a))
  | invalidate {item : A} :
      Step pool s (.invalidate item) (s.setPool (s.pool.invalidate item))
  | close {sc : Sid} :
      Step pool s (.close sc) { s with closed := Function.update s.closed sc true }
  | drainKept {sc : Sid} (hcl : s.closed sc = true) (hd : s.drained sc = false) :
      Step pool s (.drain sc true) (s.drainKept sc)
  | drainLost {sc : Sid} (hcl : s.closed sc = true) (hd : s.drained sc = false) :
      Step pool s (.drain sc false) (s.drainLost sc)
  | release {sc : Sid} {t : Tid} {fs : List (Finalizer A Tid)}
      (h : s.closing sc = .permit t :: fs) :
      Step pool s (.finalize sc) ((s.release t).setClosing sc fs)
  | checkIn {sc : Sid} {t : Tid} {a : A} {fs : List (Finalizer A Tid)}
      (h : s.closing sc = .checkIn t a :: fs) :
      Step pool s (.finalize sc)
        (((s.setPool (s.pool.checkIn s.now a)).setClosing sc fs).setCall t (.checkedIn sc))
  | tick {d : ℕ} : Step pool s (.tick d) { s with now := s.now + d }

theorem Step.of_stepCall {t : Tid} (hs : stepCall pool s t = some s') :
    Step (E := E) pool s (.step t) s' := by
  cases h : s.calls t with
  | acquiring sc =>
      simp only [stepCall, h] at hs
      split at hs
      · next hfree => exact Option.some.inj hs ▸ .grant h hfree
      · cases hs
  | granted sc =>
      simp only [stepCall, h] at hs
      split at hs
      · next hcl => exact Option.some.inj hs ▸ .refusePermit h hcl
      · next hcl => exact Option.some.inj hs ▸ .acceptPermit h (Bool.eq_false_iff.2 hcl)
  | addingPermit sc =>
      simp only [stepCall, h] at hs
      exact Option.some.inj hs ▸ .addPermit h
  | acquired sc =>
      simp only [stepCall, h] at hs
      split at hs
      · next htake => exact Option.some.inj hs ▸ .take h htake
      · next htake => exact Option.some.inj hs ▸ .takeNone h htake
  | holding sc a =>
      simp only [stepCall, h] at hs
      split at hs
      · next hcl => exact Option.some.inj hs ▸ .refuseCheckIn h hcl
      · next hcl => exact Option.some.inj hs ▸ .acceptCheckIn h (Bool.eq_false_iff.2 hcl)
  | addingCheckIn sc a =>
      simp only [stepCall, h] at hs
      exact Option.some.inj hs ▸ .addCheckIn h
  | _ => simp [stepCall, h] at hs

theorem Step.of_step (hs : step pool s l = some s') : Step pool s l s' := by
  cases l with
  | get t sc =>
      simp only [step] at hs
      split at hs
      · next h => exact Option.some.inj hs ▸ .get h
      · cases hs
  | step t => exact .of_stepCall hs
  | factory t result =>
      simp only [step] at hs
      split at hs
      · next sc h =>
          cases result with
          | ok a => exact Option.some.inj hs ▸ .make h
          | error e => exact Option.some.inj hs ▸ .fail h
      · cases hs
  | invalidate item => exact Option.some.inj hs ▸ .invalidate
  | close sc => exact Option.some.inj hs ▸ .close
  | drain sc kept =>
      simp only [step] at hs
      split at hs
      · next hc =>
          have hd := Bool.eq_false_iff.2 hc.2
          cases kept with
          | true => exact Option.some.inj hs ▸ .drainKept hc.1 hd
          | false => exact Option.some.inj hs ▸ .drainLost hc.1 hd
      · cases hs
  | finalize sc =>
      simp only [step] at hs
      split at hs
      · next t fs h => exact Option.some.inj hs ▸ .release h
      · next t a fs h => exact Option.some.inj hs ▸ .checkIn h
      · cases hs
  | tick d => exact Option.some.inj hs ▸ .tick

omit [DecidableEq A] [DecidableEq Sid] in
@[simp] theorem setCall_calls (t u : Tid) (c : Call A Sid) :
    (s.setCall t c).calls u = if u = t then c else s.calls u := by
  simp only [Sys.setCall, Function.update_apply]

end IdEffect.Pool
