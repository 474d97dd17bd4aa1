import Mathlib.Logic.Function.Basic
import IdEffect.Lib.Transition
import IdEffect.Stm.Basic

set_option autoImplicit false

/-! # Scopes: `resource/scope.rs`

Any number of calls of `make`, `fork`, `extend`, `add_finalizer` and `close` work on a forest of
scopes. Every access to something shared is a step of its own: a load or swap of a closed flag, a
section under the mutex of a parent or a children list, an attempt of a transaction on a bucket of
finalizers, a `try_commit`.

`close_with_exit` calls itself on the children. Since at most one call wins the swap of a scope's
flag, its progress is kept with the scope (`Phase`), and whoever called it waits for the phase to be
`done`: the caller of `close`, the `fork` that closes its own child, or the close of the parent.

Finalizers are known by the call of `add_finalizer` that brought them: each makes a cell of its own.
`link`, `closedBy` and `strays` keep the books: under which scope a scope was last put by a `fork`
or `extend` that returned, which scope's close has closed it, and which scopes a scope still listed
among its children when its close began although they had been reparented before. -/

namespace IdEffect.Scope

open Versioned Transition

variable {Tid : Type} [DecidableEq Tid]

/-- The buckets of finalizers, one cell for each scope. -/
abbrev Bucket (Tid : Type) : ℕ → Type := fun _ => List Tid

/-! ## The transactions -/

/-- The transaction of `add_finalizer`: push the cell unless it is in the bucket already. -/
def addFinalizerStm (sc : ℕ) (f : Tid) : Stm (Bucket Tid) Unit Unit :=
  .modifyStm sc fun bucket => ((), if f ∈ bucket then bucket else bucket ++ [f])

/-- The reads and writes of the drain: the bucket is emptied and its former content returned. Taking
    the finalizers out of their cells is not undone when the transaction is retried. -/
def drainStm (sc : ℕ) : Stm (Bucket Tid) (List Tid) Unit :=
  .modifyStm sc fun bucket => (bucket, [])

/-! ## The state -/

/-- The progress of the close that won the swap. -/
inductive Phase (Tid : Type) where
  | idle
  | swapped
  | closing (rest : List ℕ)
  | waiting (child : ℕ) (rest : List ℕ)
  | draining
  | drained (txn : Txn (Bucket Tid)) (fs : List Tid)
  | running (fs : List Tid)
  | done

def Phase.isDone : Phase Tid → Bool
  | .done => true
  | _ => false

/-- Who asked for `is_closed`. -/
inductive Check where
  | fork (p c : ℕ)
  | extendSelf (self other : ℕ)
  | extendOther (self other : ℕ)
  | addFinalizer (sc : ℕ)

/-- Where a call stands. `walk` and `climb` are the two halves of a round of `is_closed`: the load
    of the flag of `cur`, and the look at its parent. -/
inductive Call (Tid : Type) where
  | idle
  | walk (cur : ℕ) (k : Check)
  | climb (cur : ℕ) (k : Check)
  | forked (p c : ℕ)
  | forkClose (p c : ℕ)
  | forkWaiting (p c : ℕ)
  | forkReturning (p c : ℕ)
  | forkDone (p c : ℕ)
  | extendParent (self other : ℕ)
  | extendPush (self other : ℕ)
  | extendDone (self other : ℕ) (ok : Bool)
  | adding (sc : ℕ)
  | added (sc : ℕ) (txn : Txn (Bucket Tid))
  | addDone (sc : ℕ) (ok : Bool)
  | closing (sc : ℕ)
  | closeWaiting (sc : ℕ)
  | closeDone (sc : ℕ) (ok : Bool)

/-- How the call goes on once `is_closed` has answered. -/
def Check.answer : Check → Bool → Call Tid
  | .fork p c, true => .forkClose p c
  | .fork p c, false => .forkReturning p c
  | .extendSelf self other, true => .extendDone self other false
  | .extendSelf self other, false => .walk other (.extendOther self other)
  | .extendOther self other, true => .extendDone self other false
  | .extendOther self other, false => .extendParent self other
  | .addFinalizer sc, true => .addDone sc false
  | .addFinalizer sc, false => .adding sc

/-- `next` scopes have been made; `handed` are those somebody has a handle of, and `alive` those
    whose weak references can be upgraded. `cell f` says that the cell of `f` still holds its
    finalizer, and `ran` which finalizers have run, in this order. -/
structure Sys (Tid : Type) where
  next : ℕ
  handed : ℕ → Bool
  alive : ℕ → Bool
  closed : ℕ → Bool
  parent : ℕ → Option ℕ
  children : ℕ → List ℕ
  buckets : Store (Bucket Tid)
  cell : Tid → Bool
  phase : ℕ → Phase Tid
  calls : Tid → Call Tid
  ran : List Tid
  link : ℕ → Option ℕ
  closedBy : ℕ → Option ℕ
  strays : ℕ → List ℕ

inductive Label (Tid : Type) where
  | make
  | drop (sc : ℕ)
  | fork (t : Tid) (p : ℕ)
  | extend (t : Tid) (self other : ℕ)
  | addFinalizer (t : Tid) (sc : ℕ)
  | close (t : Tid) (sc : ℕ)
  | step (t : Tid)
  | closer (sc : ℕ)

namespace Sys

def init : Sys Tid where
  next := 0
  handed := fun _ => false
  alive := fun _ => true
  closed := fun _ => false
  parent := fun _ => none
  children := fun _ => []
  buckets := fun _ => ⟨[], 0⟩
  cell := fun _ => true
  phase := fun _ => .idle
  calls := fun _ => .idle
  ran := []
  link := fun _ => none
  closedBy := fun _ => none
  strays := fun _ => []

def setCall (s : Sys Tid) (t : Tid) (c : Call Tid) : Sys Tid :=
  { s with calls := Function.update s.calls t c }

def setPhase (s : Sys Tid) (sc : ℕ) (ph : Phase Tid) : Sys Tid :=
  { s with phase := Function.update s.phase sc ph }

/-- Has the scope been put under another scope than `p`? -/
def isStray (s : Sys Tid) (p c : ℕ) : Bool :=
  s.alive c && (s.link c != none) && (s.link c != some p)

/-- A close wins the swap of the flag. -/
def beginClose (s : Sys Tid) (sc : ℕ) : Sys Tid :=
  { s.setPhase sc .swapped with
    closed := Function.update s.closed sc true
    strays := Function.update s.strays sc ((s.children sc).filter (s.isStray sc)) }

def pushChild (s : Sys Tid) (p c : ℕ) : Sys Tid :=
  { s with children := Function.update s.children p (s.children p ++ [c]) }

def setParent (s : Sys Tid) (c p : ℕ) : Sys Tid :=
  { s with parent := Function.update s.parent c (some p) }

/-- `fork` makes a child of `p`: the scope number `next`, with its parent set. -/
def makeChild (s : Sys Tid) (p : ℕ) : Sys Tid := { s.setParent s.next p with next := s.next + 1 }

/-- `fork` returns the child `c` of `p`. -/
def handOut (s : Sys Tid) (p c : ℕ) : Sys Tid :=
  { s with
    handed := Function.update s.handed c true
    link := Function.update s.link c (some p) }

/-- `extend` pushes `other` into the list of `self` and returns. -/
def attach (s : Sys Tid) (self other : ℕ) : Sys Tid :=
  { s.pushChild self other with link := Function.update s.link other (some self) }

/-! ## Steps -/

/-- A new call starts in state `c`, on scopes somebody has handles of. -/
def start (s : Sys Tid) (t : Tid) (scopes : List ℕ) (c : Call Tid) : Option (Sys Tid) :=
  match s.calls t with
  | .idle => if scopes.all s.handed then some (s.setCall t c) else none
  | _ => none

/-- `fork` up to the push: the child is made with its parent set. -/
def startFork (s : Sys Tid) (t : Tid) (p : ℕ) : Option (Sys Tid) :=
  match s.calls t with
  | .idle =>
      if s.handed p then some ((s.makeChild p).setCall t (.forked p s.next)) else none
  | _ => none

def stepCall (s : Sys Tid) (t : Tid) : Option (Sys Tid) :=
  match s.calls t with
  | .walk cur k =>
      if s.closed cur then some (s.setCall t (k.answer true)) else some (s.setCall t (.climb cur k))
  | .climb cur k =>
      match s.parent cur with
      | some p => if s.alive p then some (s.setCall t (.walk p k))
          else some (s.setCall t (k.answer false))
      | none => some (s.setCall t (k.answer false))
  | .forked p c => some ((s.pushChild p c).setCall t (.walk p (.fork p c)))
  | .forkClose p c =>
      if s.closed c then some (s.setCall t (.forkReturning p c))
      else some ((s.beginClose c).setCall t (.forkWaiting p c))
  | .forkWaiting p c =>
      if (s.phase c).isDone then some (s.setCall t (.forkReturning p c)) else none
  | .forkReturning p c => some ((s.handOut p c).setCall t (.forkDone p c))
  | .extendParent self other =>
      some ((s.setParent other self).setCall t (.extendPush self other))
  | .extendPush self other =>
      some ((s.attach self other).setCall t (.extendDone self other true))
  | .adding sc =>
      some (s.setCall t (.added sc ((addFinalizerStm sc t).runOn s.buckets Txn.new).2))
  | .added sc txn =>
      match tryCommit txn s.buckets with
      | some σ => some ({ s with buckets := σ }.setCall t (.addDone sc true))
      | none => some (s.setCall t (.adding sc))
  | .closing sc =>
      if s.closed sc then some (s.setCall t (.closeDone sc false))
      else some ((s.beginClose sc).setCall t (.closeWaiting sc))
  | .closeWaiting sc =>
      if (s.phase sc).isDone then some (s.setCall t (.closeDone sc true)) else none
  | _ => none

/-- One attempt of the drain: whatever is in the cells of the bucket is taken out of them. -/
def drain (s : Sys Tid) (sc : ℕ) : Option (Sys Tid) :=
  match (drainStm sc).runOn s.buckets Txn.new with
  | (.done entries, txn) =>
      some ({ s with cell := fun f => s.cell f && !decide (f ∈ entries) }.setPhase sc
        (.drained txn (entries.filter s.cell)))
  | _ => none

/-- The close of `sc` goes on. -/
def stepCloser (s : Sys Tid) (sc : ℕ) : Option (Sys Tid) :=
  match s.phase sc with
  | .swapped => some (s.setPhase sc (.closing ((s.children sc).filter s.alive)))
  | .closing [] => some (s.setPhase sc .draining)
  | .closing (c :: rest) =>
      if s.closed c then some (s.setPhase sc (.closing rest))
      else
        some ({ s.beginClose c with
          closedBy := Function.update s.closedBy c (some sc) }.setPhase sc (.waiting c rest))
  | .waiting c rest =>
      if (s.phase c).isDone then some (s.setPhase sc (.closing rest)) else none
  | .draining => s.drain sc
  | .drained txn fs =>
      match tryCommit txn s.buckets with
      | some σ => some ({ s with buckets := σ }.setPhase sc (.running fs.reverse))
      | none => some (s.setPhase sc .draining)
  | .running [] => some (s.setPhase sc .done)
  | .running (f :: fs) => some ({ s with ran := s.ran ++ [f] }.setPhase sc (.running fs))
  | _ => none

def step (s : Sys Tid) : Label Tid → Option (Sys Tid)
  | .make =>
      some { s with next := s.next + 1, handed := Function.update s.handed s.next true }
  | .drop sc =>
      if s.handed sc then
        some { s with
          handed := Function.update s.handed sc false
          alive := Function.update s.alive sc false }
      else none
  | .fork t p => s.startFork t p
  | .extend t self other => s.start t [self, other] (.walk self (.extendSelf self other))
  | .addFinalizer t sc => s.start t [sc] (.walk sc (.addFinalizer sc))
  | .close t sc => s.start t [sc] (.closing sc)
  | .step t => s.stepCall t
  | .closer sc => s.stepCloser sc

end Sys

/-! ## What a step can do -/

variable {s s' : Sys Tid} {l : Label Tid}

inductive Step (s : Sys Tid) : Label Tid → Sys Tid → Prop
  | make :
      Step s .make { s with next := s.next + 1, handed := Function.update s.handed s.next true }
  | drop {sc : ℕ} (h : s.handed sc = true) :
      Step s (.drop sc) { s with
        handed := Function.update s.handed sc false
        alive := Function.update s.alive sc false }
  | startFork {t : Tid} {p : ℕ} (h : s.calls t = .idle) (hp : s.handed p = true) :
      Step s (.fork t p) ((s.makeChild p).setCall t (.forked p s.next))
  | startExtend {t : Tid} {self other : ℕ} (h : s.calls t = .idle) (hs : s.handed self = true)
      (ho : s.handed other = true) :
      Step s (.extend t self other) (s.setCall t (.walk self (.extendSelf self other)))
  | startAdd {t : Tid} {sc : ℕ} (h : s.calls t = .idle) (hs : s.handed sc = true) :
      Step s (.addFinalizer t sc) (s.setCall t (.walk sc (.addFinalizer sc)))
  | startClose {t : Tid} {sc : ℕ} (h : s.calls t = .idle) (hs : s.handed sc = true) :
      Step s (.close t sc) (s.setCall t (.closing sc))
  | walkClosed {t : Tid} {cur : ℕ} {k : Check} (h : s.calls t = .walk cur k)
      (hcl : s.closed cur = true) : Step s (.step t) (s.setCall t (k.answer true))
  | walkOpen {t : Tid} {cur : ℕ} {k : Check} (h : s.calls t = .walk cur k)
      (hcl : s.closed cur = false) : Step s (.step t) (s.setCall t (.climb cur k))
  | climb {t : Tid} {cur p : ℕ} {k : Check} (h : s.calls t = .climb cur k)
      (hp : s.parent cur = some p) : Step s (.step t) (s.setCall t (.walk p k))
  | climbTop {t : Tid} {cur : ℕ} {k : Check} (h : s.calls t = .climb cur k) :
      Step s (.step t) (s.setCall t (k.answer false))
  | forkPush {t : Tid} {p c : ℕ} (h : s.calls t = .forked p c) :
      Step s (.step t) ((s.pushChild p c).setCall t (.walk p (.fork p c)))
  | forkLost {t : Tid} {p c : ℕ} (h : s.calls t = .forkClose p c) (hcl : s.closed c = true) :
      Step s (.step t) (s.setCall t (.forkReturning p c))
  | forkSwap {t : Tid} {p c : ℕ} (h : s.calls t = .forkClose p c) (hcl : s.closed c = false) :
      Step s (.step t) ((s.beginClose c).setCall t (.forkWaiting p c))
  | forkWaited {t : Tid} {p c : ℕ} (h : s.calls t = .forkWaiting p c) (hd : s.phase c = .done) :
      Step s (.step t) (s.setCall t (.forkReturning p c))
  | forkReturn {t : Tid} {p c : ℕ} (h : s.calls t = .forkReturning p c) :
      Step s (.step t) ((s.handOut p c).setCall t (.forkDone p c))
  | extendParent {t : Tid} {self other : ℕ} (h : s.calls t = .extendParent self other) :
      Step s (.step t) ((s.setParent other self).setCall t (.extendPush self other))
  | extendPush {t : Tid} {self other : ℕ} (h : s.calls t = .extendPush self other) :
      Step s (.step t) ((s.attach self other).setCall t (.extendDone self other true))
  | attempt {t : Tid} {sc : ℕ} (h : s.calls t = .adding sc) :
      Step s (.step t)
        (s.setCall t (.added sc ((addFinalizerStm sc t).runOn s.buckets Txn.new).2))
  | commit {t : Tid} {sc : ℕ} {txn : Txn (Bucket Tid)} {σ : Store (Bucket Tid)}
      (h : s.calls t = .added sc txn) (hσ : tryCommit txn s.buckets = some σ) :
      Step s (.step t) ({ s with buckets := σ }.setCall t (.addDone sc true))
  | abort {t : Tid} {sc : ℕ} {txn : Txn (Bucket Tid)} (h : s.calls t = .added sc txn)
      (hσ : tryCommit txn s.buckets = none) : Step s (.step t) (s.setCall t (.adding sc))
  | closeLost {t : Tid} {sc : ℕ} (h : s.calls t = .closing sc) (hcl : s.closed sc = true) :
      Step s (.step t) (s.setCall t (.closeDone sc false))
  | closeSwap {t : Tid} {sc : ℕ} (h : s.calls t = .closing sc) (hcl : s.closed sc = false) :
      Step s (.step t) ((s.beginClose sc).setCall t (.closeWaiting sc))
  | closeWaited {t : Tid} {sc : ℕ} (h : s.calls t = .closeWaiting sc) (hd : s.phase sc = .done) :
      Step s (.step t) (s.setCall t (.closeDone sc true))
  | collect {sc : ℕ} (h : s.phase sc = .swapped) :
      Step s (.closer sc) (s.setPhase sc (.closing ((s.children sc).filter s.alive)))
  | childrenDone {sc : ℕ} (h : s.phase sc = .closing []) :
      Step s (.closer sc) (s.setPhase sc .draining)
  | childLost {sc c : ℕ} {rest : List ℕ} (h : s.phase sc = .closing (c :: rest))
      (hcl : s.closed c = true) : Step s (.closer sc) (s.setPhase sc (.closing rest))
  | childSwap {sc c : ℕ} {rest : List ℕ} (h : s.phase sc = .closing (c :: rest))
      (hcl : s.closed c = false) :
      Step s (.closer sc) ({ s.beginClose c with
        closedBy := Function.update s.closedBy c (some sc) }.setPhase sc (.waiting c rest))
  | childWaited {sc c : ℕ} {rest : List ℕ} (h : s.phase sc = .waiting c rest)
      (hd : s.phase c = .done) : Step s (.closer sc) (s.setPhase sc (.closing rest))
  | drain {sc : ℕ} (h : s.phase sc = .draining) :
      Step s (.closer sc)
        ({ s with cell := fun f => s.cell f && !decide (f ∈ (s.buckets sc).value) }.setPhase sc
          (.drained ((drainStm sc).runOn s.buckets Txn.new).2 ((s.buckets sc).value.filter s.cell)))
  | drainCommit {sc : ℕ} {txn : Txn (Bucket Tid)} {fs : List Tid} {σ : Store (Bucket Tid)}
      (h : s.phase sc = .drained txn fs) (hσ : tryCommit txn s.buckets = some σ) :
      Step s (.closer sc) ({ s with buckets := σ }.setPhase sc (.running fs.reverse))
  | drainAbort {sc : ℕ} {txn : Txn (Bucket Tid)} {fs : List Tid}
      (h : s.phase sc = .drained txn fs) (hσ : tryCommit txn s.buckets = none) :
      Step s (.closer sc) (s.setPhase sc .draining)
  | runOne {sc : ℕ} {f : Tid} {fs : List Tid} (h : s.phase sc = .running (f :: fs)) :
      Step s (.closer sc) ({ s with ran := s.ran ++ [f] }.setPhase sc (.running fs))
  | finish {sc : ℕ} (h : s.phase sc = .running []) : Step s (.closer sc) (s.setPhase sc .done)

omit [DecidableEq Tid] in
theorem Phase.isDone_iff {ph : Phase Tid} : ph.isDone = true ↔ ph = .done := by
  cases ph <;> simp [Phase.isDone]

theorem start_eq_some {t : Tid} {scopes : List ℕ} {c : Call Tid}
    (h : s.start t scopes c = some s') :
    s.calls t = .idle ∧ (∀ sc ∈ scopes, s.handed sc = true) ∧ s' = s.setCall t c := by
  unfold Sys.start at h
  split at h
  · next hidle =>
      split at h
      · next hall => exact ⟨hidle, List.all_eq_true.1 hall, (Option.some.inj h).symm⟩
      · cases h
  · cases h

theorem Step.of_stepCall {t : Tid} (h : s.stepCall t = some s') : Step s (.step t) s' := by
  unfold Sys.stepCall at h
  split at h
  · next cur k hc =>
      split at h
      · next hcl => exact Option.some.inj h ▸ .walkClosed hc hcl
      · next hcl => exact Option.some.inj h ▸ .walkOpen hc (eq_false_of_ne_true hcl)
  · next cur k hc =>
      split at h
      · next p hp =>
          split at h
          · exact Option.some.inj h ▸ .climb hc hp
          · exact Option.some.inj h ▸ .climbTop hc
      · exact Option.some.inj h ▸ .climbTop hc
  · next p c hc => exact Option.some.inj h ▸ .forkPush hc
  · next p c hc =>
      split at h
      · next hcl => exact Option.some.inj h ▸ .forkLost hc hcl
      · next hcl => exact Option.some.inj h ▸ .forkSwap hc (eq_false_of_ne_true hcl)
  · next p c hc =>
      split at h
      · next hd => exact Option.some.inj h ▸ .forkWaited hc (Phase.isDone_iff.1 hd)
      · cases h
  · next p c hc => exact Option.some.inj h ▸ .forkReturn hc
  · next self other hc => exact Option.some.inj h ▸ .extendParent hc
  · next self other hc => exact Option.some.inj h ▸ .extendPush hc
  · next sc hc => exact Option.some.inj h ▸ .attempt hc
  · next sc txn hc =>
      split at h
      · next σ hσ => exact Option.some.inj h ▸ .commit hc hσ
      · next hσ => exact Option.some.inj h ▸ .abort hc hσ
  · next sc hc =>
      split at h
      · next hcl => exact Option.some.inj h ▸ .closeLost hc hcl
      · next hcl => exact Option.some.inj h ▸ .closeSwap hc (eq_false_of_ne_true hcl)
  · next sc hc =>
      split at h
      · next hd => exact Option.some.inj h ▸ .closeWaited hc (Phase.isDone_iff.1 hd)
      · cases h
  · cases h

theorem Step.of_stepCloser {sc : ℕ} (h : s.stepCloser sc = some s') : Step s (.closer sc) s' := by
  unfold Sys.stepCloser at h
  split at h
  · next hp => exact Option.some.inj h ▸ .collect hp
  · next hp => exact Option.some.inj h ▸ .childrenDone hp
  · next c rest hp =>
      split at h
      · next hcl => exact Option.some.inj h ▸ .childLost hp hcl
      · next hcl => exact Option.some.inj h ▸ .childSwap hp (eq_false_of_ne_true hcl)
  · next c rest hp =>
      split at h
      · next hd => exact Option.some.inj h ▸ .childWaited hp (Phase.isDone_iff.1 hd)
      · cases h
  · next hp => exact Option.some.inj h ▸ .drain hp
  · next txn fs hp =>
      split at h
      · next σ hσ => exact Option.some.inj h ▸ .drainCommit hp hσ
      · next hσ => exact Option.some.inj h ▸ .drainAbort hp hσ
  · next hp => exact Option.some.inj h ▸ .finish hp
  · next f fs hp => exact Option.some.inj h ▸ .runOne hp
  · cases h

theorem Step.of_step (h : s.step l = some s') : Step s l s' := by
  cases l with
  | make => exact Option.some.inj h ▸ .make
  | drop sc =>
      simp only [Sys.step] at h
      split at h
      · next hh => exact Option.some.inj h ▸ .drop hh
      · cases h
  | fork t p =>
      simp only [Sys.step, Sys.startFork] at h
      split at h
      · next hidle =>
          split at h
          · next hp => exact Option.some.inj h ▸ .startFork hidle hp
          · cases h
      · cases h
  | extend t self other =>
      obtain ⟨hidle, hh, rfl⟩ := start_eq_some h
      exact .startExtend hidle (hh self (by simp)) (hh other (by simp))
  | addFinalizer t sc =>
      obtain ⟨hidle, hh, rfl⟩ := start_eq_some h
      exact .startAdd hidle (hh sc (by simp))
  | close t sc =>
      obtain ⟨hidle, hh, rfl⟩ := start_eq_some h
      exact .startClose hidle (hh sc (by simp))
  | step t => exact .of_stepCall h
  | closer sc => exact .of_stepCloser h

@[simp] theorem setCall_calls (t u : Tid) (c : Call Tid) :
    (s.setCall t c).calls u = if u = t then c else s.calls u := by
  simp only [Sys.setCall, Function.update_apply]

omit [DecidableEq Tid] in
@[simp] theorem setPhase_phase (sc q : ℕ) (ph : Phase Tid) :
    (s.setPhase sc ph).phase q = if q = sc then ph else s.phase q := by
  simp only [Sys.setPhase, Function.update_apply]

omit [DecidableEq Tid] in
@[simp] theorem beginClose_phase (sc q : ℕ) :
    (s.beginClose sc).phase q = if q = sc then .swapped else s.phase q :=
  setPhase_phase sc q .swapped

omit [DecidableEq Tid] in
@[simp] theorem beginClose_closed (sc q : ℕ) :
    (s.beginClose sc).closed q = if q = sc then true else s.closed q := by
  simp only [Sys.beginClose, Function.update_apply]

/-- A scope is being closed, or has been, exactly if its flag is set. -/
def FlagOk (s : Sys Tid) : Prop := ∀ sc, s.phase sc = .idle ↔ s.closed sc = false

omit [DecidableEq Tid] in
/-- A close that goes on does not touch any flag. -/
theorem FlagOk.setPhase (hs : FlagOk s) {sc : ℕ} {ph : Phase Tid} (h : s.phase sc ≠ .idle)
    (hph : ph ≠ .idle) : FlagOk (s.setPhase sc ph) := by
  intro q
  rw [setPhase_phase]
  split
  · next hq =>
      have hclosed : (s.setPhase sc ph).closed q = true := by
        show s.closed q = true
        rw [hq]
        exact eq_true_of_ne_false fun hf => h ((hs sc).2 hf)
      simp [hph, hclosed]
  · exact hs q

omit [DecidableEq Tid] in
theorem FlagOk.beginClose (hs : FlagOk s) (sc : ℕ) : FlagOk (s.beginClose sc) := by
  intro q
  rw [beginClose_phase, beginClose_closed]
  split
  · simp
  · exact hs q

theorem FlagOk.step (hs : FlagOk s) (h : Step s l s') : FlagOk s' := by
  cases h with
  | forkSwap h hcl => exact hs.beginClose _
  | closeSwap h hcl => exact hs.beginClose _
  | collect h => exact hs.setPhase (by simp [h]) (by simp)
  | childrenDone h => exact hs.setPhase (by simp [h]) (by simp)
  | childLost h hcl => exact hs.setPhase (by simp [h]) (by simp)
  | @childSwap sc c rest h hcl =>
      have hne : (s.beginClose c).phase sc ≠ .idle := by
        rw [beginClose_phase]
        split <;> simp [h]
      exact (hs.beginClose c).setPhase hne (by simp)
  | childWaited h hd => exact hs.setPhase (by simp [h]) (by simp)
  | drain h => exact hs.setPhase (by simp [h]) (by simp)
  | drainCommit h hσ => exact hs.setPhase (by simp [h]) (by simp)
  | drainAbort h hσ => exact hs.setPhase (by simp [h]) (by simp)
  | runOne h => exact hs.setPhase (by simp [h]) (by simp)
  | finish h => exact hs.setPhase (by simp [h]) (by simp)
  | _ => exact hs

omit [DecidableEq Tid] in
theorem flagOk_init : FlagOk (Sys.init : Sys Tid) := fun _ => by simp [Sys.init]

end IdEffect.Scope
