import IdEffect.Concurrency.Supervised
import IdEffect.Resource.ScopeChild

set_option autoImplicit false

/-! # Supervisors attached to scopes: `concurrency/supervisor.rs`

`attach` forks a scope under the parent, and registers a finalizer with it that cancels the token of
the supervisor. It does not look at the answer of `add_finalizer`: if the parent has been closed,
the finalizer is refused, or goes into a list that nobody looks at any more, and the supervisor has
a token that is never cancelled.

If the registration finds the child and everything above it open, and comes before the child's
drain; if the child is not dropped before its parent's list is read; and if the closes that meet
another one find it over, then the token is cancelled when `attach` and the parent's `close` have
returned, whoever else does what with other scopes (`cancels_when_closed`).

A supervisor is known by its call of `attach`, and so is its token. That call makes two calls of the
scopes' interface, a `fork` and an `add_finalizer`; users may make all others, also on scopes they
could not have a handle of yet. -/

namespace IdEffect.Supervision

open Transition Versioned Scope

/-- Who makes a call of the scopes' interface: a user, or a call of `attach`. -/
inductive Caller (Tid : Type) where
  | user (t : Tid)
  | fork (a : Tid)
  | finalizer (a : Tid)
  deriving DecidableEq

/-- Where a call of `attach` stands: the `fork` has been called, the token is made and
    `add_finalizer` has been called, or it has returned. -/
inductive Attach where
  | idle
  | forking (parent : ℕ)
  | registering (parent scope : ℕ)
  | attached (parent scope : ℕ)
  deriving DecidableEq

structure World (Tid A E : Type) where
  scopes : Sys (Caller Tid)
  attach : Tid → Attach
  byHand : Tid → Bool
  loops : Tid → Option (Tid × Supervised A E)

/-- What happens next: a call of the scopes' interface begins or goes on, one of `attach` does, a
    token is cancelled by somebody who has it, a loop is started or takes a turn. -/
inductive Event (Tid A E : Type) where
  | call (l : Scope.Label (Caller Tid))
  | attach (a : Tid) (parent : ℕ)
  | register (a : Tid)
  | attached (a : Tid)
  | cancel (a : Tid)
  | supervised (i a : Tid) (supervisorId : ℕ) (policy : SupervisorPolicy A)
  | turn (i : Tid) (turn : Turn A E)

variable {Tid A E : Type} [DecidableEq Tid]

/-- A user begins a call, or something that has begun goes on. -/
def byUser : Scope.Label (Caller Tid) → Bool
  | .fork (.user _) _ | .extend (.user _) _ _ | .addFinalizer (.user _) _ => true
  | .close (.user _) _ | .make | .drop _ | .step _ | .closer _ => true
  | .fork _ _ | .extend _ _ _ | .addFinalizer _ _ | .close _ _ => false

namespace World

def init : World Tid A E := ⟨Sys.init, fun _ => .idle, fun _ => false, fun _ => none⟩

variable (s : World Tid A E)

/-- The token of `a`: its finalizer has run, or somebody else has called `cancel`. -/
def isCancelled (a : Tid) : Bool := s.byHand a || decide (.finalizer a ∈ s.scopes.ran)

def setAttach (a : Tid) (stage : Attach) : World Tid A E :=
  { s with attach := Function.update s.attach a stage }

def setLoop (i : Tid) (ℓ : Tid × Supervised A E) : World Tid A E :=
  { s with loops := Function.update s.loops i (some ℓ) }

def step : Event Tid A E → Option (World Tid A E)
  | .call l =>
      if byUser l then (s.scopes.step l).map fun σ => { s with scopes := σ } else none
  | .attach a parent =>
      match s.attach a with
      | .idle =>
          (s.scopes.step (.fork (.fork a) parent)).map fun σ =>
            { s with scopes := σ }.setAttach a (.forking parent)
      | _ => none
  | .register a =>
      match s.attach a, s.scopes.calls (.fork a) with
      | .forking parent, .forkDone _ scope =>
          (s.scopes.step (.addFinalizer (.finalizer a) scope)).map fun σ =>
            { s with scopes := σ }.setAttach a (.registering parent scope)
      | _, _ => none
  | .attached a =>
      match s.attach a, s.scopes.calls (.finalizer a) with
      | .registering parent scope, .addDone _ _ => some (s.setAttach a (.attached parent scope))
      | _, _ => none
  | .cancel a => some { s with byHand := Function.update s.byHand a true }
  | .supervised i a supervisorId policy =>
      match s.attach a, s.loops i with
      | .attached _ _, none => some (s.setLoop i (a, .start supervisorId policy))
      | _, _ => none
  | .turn i turn =>
      match s.loops i with
      | some (a, ℓ) => (ℓ.step (s.isCancelled a) turn).map fun ℓ => s.setLoop i (a, ℓ)
      | none => none

/-! ## What goes wrong -/

/-- The parent a supervisor is being attached to. -/
def parentOf (a : Tid) : Option ℕ :=
  match s.attach a with
  | .idle => none
  | .forking parent | .registering parent _ | .attached parent _ => some parent

/-- Parent and child once the `fork` has returned. -/
def child (a : Tid) : Option (ℕ × ℕ) :=
  match s.attach a with
  | .idle => none
  | .forking parent =>
      match s.scopes.calls (.fork a) with
      | .forkDone _ scope => some (parent, scope)
      | _ => none
  | .registering parent scope | .attached parent scope => some (parent, scope)

/-- The scope whose flag the check of `add_finalizer` is about to load. -/
def registersAt {T : Type} : Scope.Call T → Option ℕ
  | .walk cur (.addFinalizer _) => some cur
  | _ => none

/-- The check of `add_finalizer` in `attach` finds the scope and those above it open. -/
def FindsOpen (l : Scope.Label (Caller Tid)) (a : Tid) : Prop :=
  match l with
  | .step t => t = .finalizer a →
      ∀ cur ∈ registersAt (s.scopes.calls t), s.scopes.closed cur = false
  | _ => True

instance (l : Scope.Label (Caller Tid)) (a : Tid) : Decidable (s.FindsOpen l a) :=
  match l with
  | .step t => inferInstanceAs (Decidable (t = .finalizer a →
      ∀ cur ∈ registersAt (s.scopes.calls t), s.scopes.closed cur = false))
  | .make | .drop _ | .fork _ _ | .extend _ _ _ | .addFinalizer _ _ | .close _ _ | .closer _ =>
      .isTrue trivial

/-- The step does not keep supervisor `a` from following its parent. -/
def Heeds (l : Scope.Label (Caller Tid)) (a : Tid) : Prop :=
  s.FindsOpen l a
    ∧ (∀ pc ∈ s.child a, Keeps (.finalizer a) pc.2 s.scopes l)
    ∧ (∀ pc ∈ s.child a, Leaves pc.1 pc.2 s.scopes l)
    ∧ ∀ parent ∈ s.parentOf a, Waits parent s.scopes l

instance (l : Scope.Label (Caller Tid)) (a : Tid) : Decidable (s.Heeds l a) :=
  inferInstanceAs (Decidable (_ ∧ _ ∧ _ ∧ _))

/-- What happens to the scopes. -/
def scopeLabel : Event Tid A E → Option (Scope.Label (Caller Tid))
  | .call l => some l
  | .attach a parent => some (.fork (.fork a) parent)
  | .register a => (s.child a).map fun pc => .addFinalizer (.finalizer a) pc.2
  | .attached _ | .cancel _ | .supervised _ _ _ _ | .turn _ _ => none

/-- No supervisor is kept from following its parent, and no version is wrapped around. -/
def Guard (e : Event Tid A E) : Prop :=
  ∀ l ∈ s.scopeLabel e, NoWrap s.scopes l ∧ ∀ a, s.Heeds l a

end World

/-! ## What an event can be -/

open World

variable {s s' : World Tid A E} {e : Event Tid A E}

inductive Happens (s : World Tid A E) : Event Tid A E → World Tid A E → Prop
  | call {l : Scope.Label (Caller Tid)} {σ : Sys (Caller Tid)} (hl : byUser l = true)
      (h : Scope.Step s.scopes l σ) : Happens s (.call l) { s with scopes := σ }
  | attach {a : Tid} {parent : ℕ} {σ : Sys (Caller Tid)} (hstage : s.attach a = .idle)
      (h : Scope.Step s.scopes (.fork (.fork a) parent) σ) :
      Happens s (.attach a parent) ({ s with scopes := σ }.setAttach a (.forking parent))
  | register {a : Tid} {parent p scope : ℕ} {σ : Sys (Caller Tid)}
      (hstage : s.attach a = .forking parent) (hcall : s.scopes.calls (.fork a) = .forkDone p scope)
      (h : Scope.Step s.scopes (.addFinalizer (.finalizer a) scope) σ) :
      Happens s (.register a) ({ s with scopes := σ }.setAttach a (.registering parent scope))
  | attached {a : Tid} {parent scope sc : ℕ} {ok : Bool}
      (hstage : s.attach a = .registering parent scope)
      (hcall : s.scopes.calls (.finalizer a) = .addDone sc ok) :
      Happens s (.attached a) (s.setAttach a (.attached parent scope))
  | cancel {a : Tid} : Happens s (.cancel a) { s with byHand := Function.update s.byHand a true }
  | supervised {i a : Tid} {supervisorId : ℕ} {policy : SupervisorPolicy A}
      (hloop : s.loops i = none) :
      Happens s (.supervised i a supervisorId policy) (s.setLoop i (a, .start supervisorId policy))
  | turn {i a : Tid} {turn : Turn A E} {ℓ ℓ' : Supervised A E} (hloop : s.loops i = some (a, ℓ))
      (h : ℓ.step (s.isCancelled a) turn = some ℓ') : Happens s (.turn i turn) (s.setLoop i (a, ℓ'))

theorem Happens.of_step (h : s.step e = some s') : Happens s e s' := by
  cases e with
  | call l =>
      simp only [World.step, Option.ite_none_right_eq_some, Option.map_eq_some_iff] at h
      obtain ⟨hl, σ, hσ, rfl⟩ := h
      exact .call hl (.of_step hσ)
  | attach a parent =>
      simp only [World.step] at h
      split at h
      · next hstage =>
          obtain ⟨σ, hσ, rfl⟩ := Option.map_eq_some_iff.1 h
          exact .attach hstage (.of_step hσ)
      · cases h
  | register a =>
      simp only [World.step] at h
      split at h
      · next parent p scope hstage hcall =>
          obtain ⟨σ, hσ, rfl⟩ := Option.map_eq_some_iff.1 h
          exact .register hstage hcall (.of_step hσ)
      · cases h
  | attached a =>
      simp only [World.step] at h
      split at h
      · next parent scope sc ok hstage hcall =>
          obtain rfl := Option.some.inj h
          exact .attached hstage hcall
      · cases h
  | cancel a =>
      obtain rfl := Option.some.inj h
      exact .cancel
  | supervised i a supervisorId policy =>
      simp only [World.step] at h
      split at h
      · next hstage hloop =>
          obtain rfl := Option.some.inj h
          exact .supervised hloop
      · cases h
  | turn i turn =>
      simp only [World.step] at h
      split at h
      · next a ℓ hloop =>
          obtain ⟨ℓ', hℓ, rfl⟩ := Option.map_eq_some_iff.1 h
          exact .turn hloop hℓ
      · cases h

/-! ## The two calls of `attach` -/

section Calls

variable {T : Type} [DecidableEq T] {σ σ' : Sys T} {l : Scope.Label T} {t : T} {p c : ℕ}

/-- What is known when the `fork` of `attach` has got to a point: the child is on the list of the
    parent, and the parent is about to be looked at; or the child is closed, or follows the
    parent. -/
def ForkOk (σ : Sys T) (p : ℕ) : Scope.Call T → Prop
  | .forked q c => q = p ∧ σ.alive c = true
  | .walk cur (.fork q c) => q = p
      ∧ ((cur = p ∧ c ∈ σ.children p ∧ σ.alive c = true)
        ∨ σ.closed c = true ∨ Followed σ p c)
  | .climb _ (.fork q c) | .forkReturning q c | .forkDone q c =>
      q = p ∧ (σ.closed c = true ∨ Followed σ p c)
  | .forkClose q _ => q = p
  | .forkWaiting q c => q = p ∧ σ.closed c = true
  | _ => False

/-- What is known when its `add_finalizer` has. -/
def AddOk (σ : Sys T) (u : T) (p c : ℕ) : Scope.Call T → Prop
  | .walk cur (.addFinalizer q) => q = c
      ∧ ((cur = c ∧ (σ.closed c = true ∨ Followed σ p c)) ∨ Followed σ p c)
  | .climb _ (.addFinalizer q) | .adding q | .added q _ => q = c ∧ Followed σ p c
  | .addDone q ok => q = c ∧ ok = true ∧ Followed σ p c ∧ Pending σ c u
  | _ => False

theorem forkOk_of_other (hs : FlagOk σ) (hf : Forks σ) (h : Scope.Step σ l σ')
    (hl : l.caller ≠ some t) (hok : ForkOk σ p (σ.calls t))
    (hleaves : ∀ q c, σ.calls t = .forkDone q c → Leaves p c σ l) (hw : Waits p σ l) :
    ForkOk σ' p (σ'.calls t) := by
  rw [h.calls_of_ne hl]
  -- nobody has a handle of the child before the `fork` returns
  have hkept : ∀ {c}, (σ.calls t).forkChild = some c → l ≠ .drop c := by
    rintro c hc rfl
    cases h with
    | drop hh => exact (hf.handed c hh).2 ⟨t, hc⟩
  have hstep : ∀ {c}, (σ.calls t).forkChild = some c → σ.closed c = true ∨ Followed σ p c →
      σ'.closed c = true ∨ Followed σ' p c :=
    fun hc hheld => Followed.step_or_closed hheld hs h (fun heq => absurd heq (hkept hc)) hw
  cases hcall : σ.calls t with
  | forked q c =>
      rw [hcall] at hok hkept
      exact ⟨hok.1, h.alive (hkept rfl) hok.2⟩
  | walk cur k =>
      rw [hcall] at hok hkept hstep
      cases k with
      | fork q c =>
          refine ⟨hok.1, hok.2.imp (fun hnew => ?_) (hstep rfl)⟩
          exact ⟨hnew.1, h.mem_children hnew.2.1, h.alive (hkept rfl) hnew.2.2⟩
      | extendSelf _ _ | extendOther _ _ | addFinalizer _ => exact hok
  | climb cur k =>
      rw [hcall] at hok hstep
      cases k with
      | fork q c => exact ⟨hok.1, hstep rfl hok.2⟩
      | extendSelf _ _ | extendOther _ _ | addFinalizer _ => exact hok
  | forkClose q c =>
      rw [hcall] at hok
      exact hok
  | forkWaiting q c =>
      rw [hcall] at hok
      exact ⟨hok.1, h.closed hs hok.2⟩
  | forkReturning q c =>
      rw [hcall] at hok hstep
      exact ⟨hok.1, hstep rfl hok.2⟩
  | forkDone q c =>
      rw [hcall] at hok
      refine ⟨hok.1, Followed.step_or_closed hok.2 hs h ?_ hw⟩
      rintro rfl
      exact hleaves q c hcall rfl
  | idle | extendParent _ _ | extendPush _ _ | extendDone _ _ _ | adding _ | added _ _ | addDone _ _
  | closing _ | closeWaiting _ | closeDone _ _ =>
      rw [hcall] at hok
      exact hok

theorem forkOk_of_own (hs : FlagOk σ) (hr : ReturnedClosed σ) (h : Scope.Step σ (.step t) σ')
    (hok : ForkOk σ p (σ.calls t)) : ForkOk σ' p (σ'.calls t) := by
  have hstep : ∀ {c}, (σ.calls t).closes = none → σ.closed c = true ∨ Followed σ p c →
      σ'.closed c = true ∨ Followed σ' p c := fun hn hheld =>
    Followed.step_or_closed hheld hs h (fun heq => by cases heq) fun hc => by
      rw [hn] at hc
      cases hc
  cases h with
  | @walkClosed _ cur k hcall hcl =>
      rw [hcall] at hok
      rw [setCall_calls, if_pos rfl]
      cases k with
      | fork q c => exact hok.1
      | extendSelf _ _ | extendOther _ _ | addFinalizer _ => exact hok.elim
  | @walkOpen _ cur k hcall hcl =>
      rw [hcall] at hok hstep
      rw [setCall_calls, if_pos rfl]
      cases k with
      | fork q c =>
          refine ⟨hok.1, hstep rfl (hok.2.elim (fun hnew => .inr ?_) id)⟩
          exact .of_open hr hs (hnew.1 ▸ hcl) hnew.2.1 hnew.2.2
      | extendSelf _ _ | extendOther _ _ | addFinalizer _ => exact hok.elim
  | @climb _ cur q k hcall hp =>
      rw [hcall] at hok hstep
      rw [setCall_calls, if_pos rfl]
      cases k with
      | fork q c => exact ⟨hok.1, .inr (hstep rfl hok.2)⟩
      | extendSelf _ _ | extendOther _ _ | addFinalizer _ => exact hok.elim
  | @climbTop _ cur k hcall =>
      rw [hcall] at hok hstep
      rw [setCall_calls, if_pos rfl]
      cases k with
      | fork q c => exact ⟨hok.1, hstep rfl hok.2⟩
      | extendSelf _ _ | extendOther _ _ | addFinalizer _ => exact hok.elim
  | @forkPush _ q c hcall =>
      rw [hcall] at hok
      rw [setCall_calls, if_pos rfl]
      obtain ⟨rfl, halive⟩ := hok
      exact ⟨rfl, .inl ⟨rfl, mem_pushChild.2 (.inr ⟨rfl, rfl⟩), halive⟩⟩
  | forkLost hcall hcl =>
      rw [hcall] at hok
      rw [setCall_calls, if_pos rfl]
      exact ⟨hok, .inl hcl⟩
  | @forkSwap _ q c hcall hcl =>
      rw [hcall] at hok
      rw [setCall_calls, if_pos rfl]
      refine ⟨hok, ?_⟩
      show (σ.beginClose c).closed c = true
      rw [beginClose_closed, if_pos rfl]
  | forkWaited hcall hd =>
      rw [hcall] at hok
      rw [setCall_calls, if_pos rfl]
      exact ⟨hok.1, .inl hok.2⟩
  | forkReturn hcall =>
      rw [hcall] at hok hstep
      rw [setCall_calls, if_pos rfl]
      exact ⟨hok.1, hstep rfl hok.2⟩
  | extendParent hcall | extendPush hcall | attempt hcall | commit hcall _ | abort hcall _
  | closeLost hcall _ | closeSwap hcall _ | closeWaited hcall _ =>
      rw [hcall] at hok
      exact hok.elim

theorem addOk_of_other (hs : FlagOk σ) (hfin : FinInv σ) (hnw : NoWrap σ l)
    (h : Scope.Step σ l σ') (hl : l.caller ≠ some t) (hok : AddOk σ t p c (σ.calls t))
    (hk : Keeps t c σ l) (hleaves : Leaves p c σ l) (hw : Waits p σ l) :
    AddOk σ' t p c (σ'.calls t) := by
  have hstep : Followed σ p c → Followed σ' p c := fun hf => hf.step hs h hleaves hw
  rw [h.calls_of_ne hl]
  cases hcall : σ.calls t with
  | walk cur k =>
      rw [hcall] at hok
      cases k with
      | addFinalizer q =>
          refine ⟨hok.1, hok.2.imp (fun hfirst => ⟨hfirst.1, ?_⟩) hstep⟩
          exact hfirst.2.imp (h.closed hs) hstep
      | fork _ _ | extendSelf _ _ | extendOther _ _ => exact hok
  | climb cur k =>
      rw [hcall] at hok
      cases k with
      | addFinalizer q => exact ⟨hok.1, hstep hok.2⟩
      | fork _ _ | extendSelf _ _ | extendOther _ _ => exact hok
  | adding q =>
      rw [hcall] at hok
      exact ⟨hok.1, hstep hok.2⟩
  | added q txn =>
      rw [hcall] at hok
      exact ⟨hok.1, hstep hok.2⟩
  | addDone q ok =>
      rw [hcall] at hok
      obtain ⟨rfl, rfl, hf, hp⟩ := hok
      exact ⟨rfl, rfl, hstep hf, pending_step hfin hnw (.of_step hs h) hcall hp hk⟩
  | idle | forked _ _ | forkClose _ _ | forkWaiting _ _ | forkReturning _ _ | forkDone _ _
  | extendParent _ _ | extendPush _ _ | extendDone _ _ _ | closing _ | closeWaiting _
  | closeDone _ _ =>
      rw [hcall] at hok
      exact hok

theorem addOk_of_own (hs : FlagOk σ) (hfin : FinInv σ) (hnw : NoWrap σ (.step t))
    (h : Scope.Step σ (.step t) σ') (hok : AddOk σ t p c (σ.calls t))
    (hopen : ∀ cur ∈ registersAt (σ.calls t), σ.closed cur = false)
    (hk : Keeps t c σ (.step t)) : AddOk σ' t p c (σ'.calls t) := by
  have hstep : (σ.calls t).closes = none → Followed σ p c → Followed σ' p c := fun hn hf =>
    hf.step hs h trivial fun hc => by
      rw [hn] at hc
      cases hc
  cases h with
  | @walkClosed _ cur k hcall hcl =>
      rw [hcall] at hok hopen
      cases k with
      | addFinalizer q =>
          have hfound := hopen cur rfl
          rw [hcl] at hfound
          cases hfound
      | fork _ _ | extendSelf _ _ | extendOther _ _ => exact hok.elim
  | @walkOpen _ cur k hcall hcl =>
      rw [hcall] at hok hstep
      rw [setCall_calls, if_pos rfl]
      cases k with
      | addFinalizer q =>
          refine ⟨hok.1, hstep rfl (hok.2.elim (fun hfirst => ?_) id)⟩
          refine hfirst.2.resolve_left fun hcl' => ?_
          rw [← hfirst.1, hcl] at hcl'
          cases hcl'
      | fork _ _ | extendSelf _ _ | extendOther _ _ => exact hok.elim
  | @climb _ cur q k hcall hp =>
      rw [hcall] at hok hstep
      rw [setCall_calls, if_pos rfl]
      cases k with
      | addFinalizer q => exact ⟨hok.1, .inr (hstep rfl hok.2)⟩
      | fork _ _ | extendSelf _ _ | extendOther _ _ => exact hok.elim
  | @climbTop _ cur k hcall =>
      rw [hcall] at hok hstep
      rw [setCall_calls, if_pos rfl]
      cases k with
      | addFinalizer q => exact ⟨hok.1, hstep rfl hok.2⟩
      | fork _ _ | extendSelf _ _ | extendOther _ _ => exact hok.elim
  | attempt hcall =>
      rw [hcall] at hok hstep
      rw [setCall_calls, if_pos rfl]
      exact ⟨hok.1, hstep rfl hok.2⟩
  | commit hcall hσ =>
      rw [hcall] at hok hstep
      rw [setCall_calls, if_pos rfl]
      obtain ⟨rfl, hf⟩ := hok
      exact ⟨rfl, rfl, hstep rfl hf, pending_of_commit hfin hnw hcall hσ hk⟩
  | abort hcall hσ =>
      rw [hcall] at hok hstep
      rw [setCall_calls, if_pos rfl]
      exact ⟨hok.1, hstep rfl hok.2⟩
  | forkPush hcall | forkLost hcall _ | forkSwap hcall _ | forkWaited hcall _ | forkReturn hcall
  | extendParent hcall | extendPush hcall | closeLost hcall _ | closeSwap hcall _
  | closeWaited hcall _ =>
      rw [hcall] at hok
      exact hok.elim

theorem calls_ne_addDone (h : Scope.Step σ (.step t) σ') (q : ℕ) (ok : Bool) :
    σ.calls t ≠ .addDone q ok := by
  intro hd
  cases h <;> simp_all

/-- What the scopes keep in any run without wraps. -/
structure Sound (σ : Sys T) : Prop where
  flags : FlagOk σ
  finalizers : FinInv σ
  forks : Forks σ
  returned : ReturnedClosed σ
  fresh : ∀ c, σ.next ≤ c → σ.alive c = true

theorem sound_init : Sound (Sys.init : Sys T) where
  flags := flagOk_init
  finalizers := finInv_init
  forks := treeInv_init.forks
  returned := fun t p ok hc => by cases hc
  fresh := fun _ _ => rfl

theorem Sound.step (hs : Sound σ) (h : Scope.Step σ l σ') (hnw : NoWrap σ l) : Sound σ' where
  flags := hs.flags.step h
  finalizers := hs.finalizers.step hnw (.of_step hs.flags h)
  forks := hs.forks.step h
  returned := hs.returned.step hs.flags h
  fresh := by
    intro c hc
    cases h with
    | make => exact hs.fresh c (Nat.le_of_succ_le hc)
    | startFork _ _ => exact hs.fresh c (Nat.le_of_succ_le hc)
    | @drop sc hh =>
        have hne : c ≠ sc := fun heq =>
          absurd (hs.forks.handed sc hh).1 (Nat.not_lt.2 (heq ▸ hc))
        show Function.update σ.alive sc false c = true
        rw [Function.update_of_ne hne]
        exact hs.fresh c hc
    | _ => exact hs.fresh c hc

end Calls

/-! ## What a supervisor can count on -/

/-- Where `attach` stands, and what is known there. -/
def Wired (s : World Tid A E) (a : Tid) : Prop :=
  match s.attach a with
  | .idle => True
  | .forking parent => ForkOk s.scopes parent (s.scopes.calls (.fork a))
  | .registering parent scope =>
      AddOk s.scopes (.finalizer a) parent scope (s.scopes.calls (.finalizer a))
  | .attached parent scope =>
      AddOk s.scopes (.finalizer a) parent scope (s.scopes.calls (.finalizer a))
        ∧ s.scopes.calls (.finalizer a) = .addDone scope true

structure Inv (s : World Tid A E) : Prop where
  sound : Sound s.scopes
  wired : ∀ a, Wired s a

/-- Something happens to the scopes, and nobody begins a call in the name of `a`. -/
theorem Wired.scopes {a : Tid} {l : Scope.Label (Caller Tid)} {σ : Sys (Caller Tid)}
    (hw : Wired s a) (hs : Sound s.scopes) (h : Scope.Step s.scopes l σ) (hnw : NoWrap s.scopes l)
    (hheeds : s.Heeds l a) (hfork : l.caller = some (.fork a) → l = .step (.fork a))
    (hfin : l.caller = some (.finalizer a) → l = .step (.finalizer a)) :
    Wired { s with scopes := σ } a := by
  obtain ⟨hopen, hkeeps, hleaves, hwaits⟩ := hheeds
  have hadd : ∀ {p c}, s.child a = some (p, c) → s.parentOf a = some p →
      AddOk s.scopes (.finalizer a) p c (s.scopes.calls (.finalizer a)) →
      AddOk σ (.finalizer a) p c (σ.calls (.finalizer a)) := by
    intro p c hchild hparent hok
    by_cases hl : l.caller = some (.finalizer a)
    · obtain rfl := hfin hl
      exact addOk_of_own hs.flags hs.finalizers hnw h hok (hopen rfl) (hkeeps _ hchild)
    · exact addOk_of_other hs.flags hs.finalizers hnw h hl hok (hkeeps _ hchild)
        (hleaves _ hchild) (hwaits _ hparent)
  unfold Wired at hw ⊢
  cases hstage : s.attach a with
  | idle => trivial
  | forking p =>
      rw [hstage] at hw
      by_cases hl : l.caller = some (.fork a)
      · obtain rfl := hfork hl
        exact forkOk_of_own hs.flags hs.returned h hw
      · refine forkOk_of_other hs.flags hs.forks h hl hw (fun q c hcall => ?_) (hwaits p ?_)
        · exact hleaves (p, c) (by rw [child, hstage]; simp only [hcall]; rfl)
        · rw [parentOf, hstage]
          rfl
  | registering p c =>
      rw [hstage] at hw
      exact hadd (by rw [child, hstage]) (by rw [parentOf, hstage]) hw
  | attached p c =>
      rw [hstage] at hw
      refine ⟨hadd (by rw [child, hstage]) (by rw [parentOf, hstage]) hw.1, ?_⟩
      by_cases hl : l.caller = some (.finalizer a)
      · obtain rfl := hfin hl
        exact absurd hw.2 (calls_ne_addDone h c true)
      · exact (h.calls_of_ne hl).trans hw.2

theorem Wired.setAttach {a b : Tid} {stage : Attach} (hw : Wired s b) (hne : b ≠ a) :
    Wired (s.setAttach a stage) b := by
  unfold Wired at hw ⊢
  rw [World.setAttach]
  simp only [Function.update_of_ne hne]
  exact hw

omit [DecidableEq Tid] in
/-- What is begun is begun by a user. -/
theorem byUser_caller {l : Scope.Label (Caller Tid)} {c : Caller Tid} (hl : byUser l = true)
    (hc : l.caller = some c) (hne : ∀ t, c ≠ .user t) : l = .step c := by
  cases l with
  | step t => exact congrArg _ (Option.some.inj hc)
  | make | drop _ | closer _ => cases hc
  | fork t _ | extend t _ _ | addFinalizer t _ | close t _ =>
      obtain rfl := Option.some.inj hc
      cases t with
      | user t => exact absurd rfl (hne t)
      | fork a | finalizer a => cases hl

theorem Inv.step (hi : Inv s) (h : Happens s e s') (hg : s.Guard e) : Inv s' := by
  cases h with
  | @call l σ hl h =>
      obtain ⟨hnw, hheeds⟩ := hg l rfl
      exact ⟨hi.sound.step h hnw, fun a =>
        (hi.wired a).scopes hi.sound h hnw (hheeds a)
          (fun hc => byUser_caller hl hc fun _ heq => by cases heq)
          fun hc => byUser_caller hl hc fun _ heq => by cases heq⟩
  | @attach a p σ hstage h =>
      obtain ⟨hnw, hheeds⟩ := hg _ rfl
      refine ⟨hi.sound.step h hnw, fun b => ?_⟩
      by_cases hab : b = a
      · subst hab
        unfold Wired
        rw [World.setAttach]
        simp only [Function.update_self]
        cases h with
        | startFork hidle hp =>
            rw [setCall_calls, if_pos rfl]
            exact ⟨rfl, hi.sound.fresh _ (Nat.le_refl _)⟩
      · refine ((hi.wired b).scopes hi.sound h hnw (hheeds b) (fun hc => ?_) fun hc => ?_).setAttach
          hab
        · exact absurd (Caller.fork.inj (Option.some.inj hc)).symm hab
        · cases hc
  | @register a p q c σ hstage hcall h =>
      have hwired := hi.wired a
      have hchild : s.child a = some (p, c) := by
        rw [child, hstage]
        simp only [hcall]
      obtain ⟨hnw, hheeds⟩ := hg (.addFinalizer (.finalizer a) c) (by
        rw [scopeLabel, hchild]
        rfl)
      refine ⟨hi.sound.step h hnw, fun b => ?_⟩
      by_cases hab : b = a
      · subst hab
        unfold Wired at hwired ⊢
        rw [hstage, hcall] at hwired
        rw [World.setAttach]
        simp only [Function.update_self]
        have hheld := Followed.step_or_closed hwired.2 hi.sound.flags h
          (fun heq => by cases heq) trivial
        cases h with
        | startAdd hidle hh =>
            rw [setCall_calls, if_pos rfl]
            exact ⟨rfl, .inl ⟨rfl, hheld⟩⟩
      · refine ((hi.wired b).scopes hi.sound h hnw (hheeds b) (fun hc => ?_) fun hc => ?_).setAttach
          hab
        · cases hc
        · exact absurd (Caller.finalizer.inj (Option.some.inj hc)).symm hab
  | @attached a p c sc ok hstage hcall =>
      refine ⟨hi.sound, fun b => ?_⟩
      by_cases hab : b = a
      · subst hab
        have hwired := hi.wired b
        unfold Wired at hwired ⊢
        rw [hstage] at hwired
        rw [World.setAttach]
        simp only [Function.update_self]
        refine ⟨hwired, ?_⟩
        rw [hcall] at hwired ⊢
        rw [hwired.1, hwired.2.1]
      · exact (hi.wired b).setAttach hab
  | cancel | supervised _ | turn _ _ => exact ⟨hi.sound, hi.wired⟩

/-! ## Whole runs -/

theorem inv_init : Inv (World.init : World Tid A E) := ⟨sound_init, fun _ => trivial⟩

theorem Inv.isCancelled (hi : Inv s) {a : Tid} {p c : ℕ} {t : Caller Tid} {ok : Bool}
    (ha : s.attach a = .attached p c) (hc : s.scopes.calls t = .closeDone p ok) :
    s.isCancelled a = true := by
  have hwired := hi.wired a
  unfold Wired at hwired
  rw [ha] at hwired
  obtain ⟨hok, hcall⟩ := hwired
  rw [hcall] at hok
  obtain ⟨-, -, hf, hp⟩ := hok
  have hdone := hf.child_done hc
  have hran := (pending_of_late (by rw [hdone]; rfl)).1 hp
  rw [hdone] at hran
  rw [World.isCancelled, decide_eq_true (hran.resolve_right List.not_mem_nil), Bool.or_true]

/-- A token stays cancelled. -/
theorem Happens.isCancelled (h : Happens s e s') {a : Tid} (hc : s.isCancelled a = true) :
    s'.isCancelled a = true := by
  have hscopes : ∀ {l : Scope.Label (Caller Tid)} {σ : Sys (Caller Tid)},
      Scope.Step s.scopes l σ → (s.byHand a || decide (.finalizer a ∈ σ.ran)) = true := by
    intro l σ h
    rw [World.isCancelled, Bool.or_eq_true, decide_eq_true_eq] at hc
    rw [Bool.or_eq_true, decide_eq_true_eq]
    exact hc.imp_right h.mem_ran
  cases h with
  | call _ h | attach _ h | register _ _ h => exact hscopes h
  | @cancel b =>
      show (Function.update s.byHand b true a || _) = true
      rw [Function.update_apply]
      split
      · rfl
      · exact hc
  | attached _ _ | supervised _ | turn _ _ => exact hc

/-- Loops of a cancelled supervisor do not come to start more children. -/
theorem Happens.committed_le (h : Happens s e s') {a i : Tid} {n : ℕ}
    (hc : s.isCancelled a = true) (hn : ∀ ℓ, s.loops i = some (a, ℓ) → ℓ.committed ≤ n) :
    ∀ ℓ, s'.loops i = some (a, ℓ) → ℓ.committed ≤ n := by
  intro ℓ hℓ
  cases h with
  | @supervised j b supervisorId policy hloop =>
      replace hℓ : Function.update s.loops j (some (b, .start supervisorId policy)) i
        = some (a, ℓ) := hℓ
      rw [Function.update_apply] at hℓ
      split at hℓ
      · obtain ⟨-, rfl⟩ := Prod.mk.inj (Option.some.inj hℓ)
        exact Nat.zero_le n
      · exact hn ℓ hℓ
  | @turn j b turn ℓ₀ ℓ₁ hloop h =>
      replace hℓ : Function.update s.loops j (some (b, ℓ₁)) i = some (a, ℓ) := hℓ
      rw [Function.update_apply] at hℓ
      split at hℓ
      · next heq =>
          obtain ⟨rfl, rfl⟩ := Prod.mk.inj (Option.some.inj hℓ)
          rw [hc] at h
          exact Nat.le_trans (Supervised.committed_step h) (hn ℓ₀ (heq ▸ hloop))
      · exact hn ℓ hℓ
  | call _ _ | attach _ _ | register _ _ _ | attached _ _ | cancel => exact hn ℓ hℓ

/-- **A supervisor follows its parent, when nothing keeps it from doing so**: once `attach` and a
    `close` of the parent have returned, the token is cancelled, and from then on no loop of the
    supervisor starts a child, but for the one it was about to start. -/
theorem cancels_when_closed {es : List (Event Tid A E)}
    (hrun : run World.step World.init es = some s)
    (hg : Along World.step World.Guard World.init es) {a : Tid} {p c : ℕ} {t : Caller Tid}
    {ok : Bool}
    (ha : s.attach a = .attached p c) (hc : s.scopes.calls t = .closeDone p ok) :
    s.isCancelled a = true
      ∧ ∀ es' s', run World.step s es' = some s' → ∀ i ℓ, s'.loops i = some (a, ℓ) →
        ℓ.started ≤ (s.loops i).elim 0 fun ℓ => ℓ.2.committed := by
  have hi : Inv s := run_invariant_along
    (fun _ _ _ hi hg h => hi.step (.of_step h) hg) inv_init hg hrun
  have hcancelled := hi.isCancelled ha hc
  refine ⟨hcancelled, fun es' s' hrun' i ℓ hℓ => ?_⟩
  have hlast := run_invariant
    (I := fun m : World Tid A E => m.isCancelled a = true
      ∧ ∀ ℓ, m.loops i = some (a, ℓ) → ℓ.committed ≤ (s.loops i).elim 0 fun ℓ => ℓ.2.committed)
    (fun _ _ _ hm h => ⟨(Happens.of_step h).isCancelled hm.1,
      (Happens.of_step h).committed_le hm.1 hm.2⟩)
    ⟨hcancelled, fun ℓ hℓ => by rw [hℓ]; exact Nat.le_refl _⟩ hrun'
  exact Nat.le_trans ℓ.started_le_committed (hlast.2 ℓ hℓ)

/-- A step commits at most once. -/
theorem Happens.ver_le (h : Happens s e s') (sc : ℕ) :
    (s'.scopes.buckets sc).ver.toNat ≤ (s.scopes.buckets sc).ver.toNat + 1 := by
  cases h with
  | call _ h | attach _ h | register _ _ h => exact h.ver_le sc
  | attached _ _ | cancel | supervised _ | turn _ _ => exact Nat.le_succ _

/-- A run of fewer than `2 ^ 64 - 1` events wraps no version around. -/
theorem along_noWrap (es : List (Event Tid A E)) : ∀ (n : ℕ) (s : World Tid A E),
    (∀ sc, (s.scopes.buckets sc).ver.toNat ≤ n) → n + es.length < 2 ^ 64 →
    Along World.step (fun s e => ∀ l ∈ s.scopeLabel e, NoWrap s.scopes l) s es := by
  induction es with
  | nil => exact fun _ _ _ _ => trivial
  | cons e es ih =>
      intro n s hver hlen
      rw [List.length_cons] at hlen
      refine ⟨fun l _ sc => ?_, fun s' h => ih (n + 1) s' (fun sc => ?_) (by omega)⟩
      · have := hver sc
        omega
      · have := (Happens.of_step h).ver_le sc
        have := hver sc
        omega

/-- In a run that is not too long, only the supervisors have to be cared for. -/
theorem along_guard {es : List (Event Tid A E)} (hlen : es.length < 2 ^ 64)
    (h : Along World.step (fun s e => ∀ l ∈ s.scopeLabel e, ∀ a, s.Heeds l a) World.init es) :
    Along World.step World.Guard World.init es :=
  Along.imp (fun _ _ h l hl => ⟨h.1 l hl, h.2 l hl⟩)
    ((along_noWrap es 0 _ (fun _ => Nat.le_refl _) (by omega)).and h)

/-- What a call of `close` has returned. -/
def closeResult {T : Type} : Scope.Call T → Option (ℕ × Bool)
  | .closeDone sc ok => some (sc, ok)
  | _ => none

theorem eq_closeDone {T : Type} {c : Scope.Call T} {sc : ℕ} {ok : Bool}
    (h : closeResult c = some (sc, ok)) : c = .closeDone sc ok := by
  unfold closeResult at h
  split at h
  · obtain ⟨rfl, rfl⟩ := Prod.mk.inj (Option.some.inj h)
    rfl
  · cases h

/-- A supervisor is attached to an open parent, starts a child, and is stopped by the close. -/
theorem cancels_when_closed_one :
    ∃ (es : List (Event (Fin 1) Unit Unit)) (s : World (Fin 1) Unit Unit),
      run World.step World.init es = some s
      ∧ s.attach 0 = .attached 0 1 ∧ s.scopes.calls (.user 0) = .closeDone 0 true
      ∧ s.isCancelled 0 = true
      ∧ ∀ es' s', run World.step s es' = some s' → ∀ i ℓ, s'.loops i = some (0, ℓ) →
        ℓ.started ≤ (s.loops i).elim 0 fun ℓ => ℓ.2.committed := by
  have hlast : (run World.step (World.init : World (Fin 1) Unit Unit)
      [.call .make, .attach 0 0, .call (.step (.fork 0)), .call (.step (.fork 0)),
        .call (.step (.fork 0)), .call (.step (.fork 0)), .register 0,
        .call (.step (.finalizer 0)), .call (.step (.finalizer 0)), .call (.step (.finalizer 0)),
        .call (.step (.finalizer 0)), .call (.step (.finalizer 0)), .call (.step (.finalizer 0)),
        .attached 0, .supervised 0 0 7 .terminate, .turn 0 .check, .turn 0 .make,
        .call (.close (.user 0) 0), .call (.step (.user 0)), .call (.closer 0), .call (.closer 0),
        .call (.closer 1), .call (.closer 1), .call (.closer 1), .call (.closer 1),
        .call (.closer 1), .call (.closer 1), .call (.closer 0), .call (.closer 0),
        .call (.closer 0), .call (.closer 0), .call (.closer 0), .call (.step (.user 0))]).map
      (fun s => (s.attach 0, closeResult (s.scopes.calls (.user 0))))
        = some (.attached 0 1, some (0, true)) := by
    decide +kernel
  obtain ⟨s, hrun, hseen⟩ := exists_run _ hlast
  obtain ⟨hattach, hclose⟩ := Prod.mk.inj hseen
  refine ⟨_, s, hrun, hattach, eq_closeDone hclose,
    cancels_when_closed hrun ?_ hattach (eq_closeDone hclose)⟩
  exact along_guard (by decide) (by decide +kernel)

/-- The parent is closed, and then a supervisor is attached to it: its token is not cancelled, and a
    loop starts a child. -/
theorem attached_to_closed :
    ∃ (es : List (Event (Fin 1) Unit Unit)) (s : World (Fin 1) Unit Unit),
      run World.step World.init es = some s
      ∧ s.attach 0 = .attached 0 1 ∧ s.scopes.calls (.user 0) = .closeDone 0 true
      ∧ s.isCancelled 0 = false
      ∧ (s.loops 0).map (fun ℓ => ℓ.2.started) = some 1 := by
  have hlast : (run World.step (World.init : World (Fin 1) Unit Unit)
      [.call .make, .call (.close (.user 0) 0), .call (.step (.user 0)), .call (.closer 0),
        .call (.closer 0), .call (.closer 0), .call (.closer 0), .call (.closer 0),
        .call (.step (.user 0)), .attach 0 0, .call (.step (.fork 0)), .call (.step (.fork 0)),
        .call (.step (.fork 0)), .call (.closer 1), .call (.closer 1), .call (.closer 1),
        .call (.closer 1), .call (.closer 1), .call (.step (.fork 0)), .call (.step (.fork 0)),
        .register 0, .call (.step (.finalizer 0)), .attached 0, .supervised 0 0 7 .terminate,
        .turn 0 .check, .turn 0 .make]).map
      (fun s => (s.attach 0, closeResult (s.scopes.calls (.user 0)), s.isCancelled 0,
        (s.loops 0).map fun ℓ => ℓ.2.started))
        = some (.attached 0 1, some (0, true), false, some 1) := by
    decide +kernel
  obtain ⟨s, hrun, hseen⟩ := exists_run _ hlast
  simp only [Prod.mk.injEq] at hseen
  exact ⟨_, s, hrun, hseen.1, eq_closeDone hseen.2.1, hseen.2.2.1, hseen.2.2.2⟩

end IdEffect.Supervision
