import IdEffect.Lib.Transition
import IdEffect.Stm.Basic

set_option autoImplicit false

/-! # Concurrent commits

Any number of threads, each inside one call of `commit`, share the store. The atomic steps are the
ones of the source: opening an attempt (`Txn::new`), one `read_stm` or `write_stm` (each locks its
cell once), and the end of the attempt, which for `Outcome::Done` is `try_commit` under the global
lock. A schedule is the list of the threads that move, in order.

Beside the store the state keeps what the results about runs speak of: the earlier committed stores
(`past`), the successful commits with their values (`commits`) and, for each attempt, the position
in the history at which it was opened. None of these is read by a step. -/

namespace IdEffect.Stm

open Versioned Transition

variable {Tid : Type} [DecidableEq Tid] {Val : ℕ → Type} {A E : Tid → Type}

/-- Where a call of `commit` stands: at the head of its loop, inside an attempt that was opened when
    `start` states had been superseded, or returned after having seen the committed states `seen`
    since its last attempt was opened. -/
inductive Call (Val : ℕ → Type) (A E : Type) where
  | idle
  | running (p : Stm Val A E) (txn : Txn Val) (start : ℕ)
  | returned (r : Except E A) (seen : List (Store Val))

structure Sys (Val : ℕ → Type) (A E : Tid → Type) where
  store : Store Val
  calls : (t : Tid) → Call Val (A t) (E t)
  past : List (Store Val)
  commits : List (Σ t, A t)

namespace Sys

/-- Every committed cell state so far, the current one last. -/
def history (s : Sys Val A E) : List (Store Val) := s.past ++ [s.store]

def init (σ₀ : Store Val) : Sys Val A E := ⟨σ₀, fun _ => .idle, [], []⟩

def setCall (s : Sys Val A E) (t : Tid) (c : Call Val (A t) (E t)) : Sys Val A E :=
  { s with calls := Function.update s.calls t c }

/-- Publish a store that `try_commit` produced and let the call return. -/
def publish (s : Sys Val A E) (t : Tid) (a : A t) (σ' : Store Val) (start : ℕ) : Sys Val A E where
  store := σ'
  calls := Function.update s.calls t (.returned (.ok a) ((s.history ++ [σ']).drop start))
  past := s.history
  commits := s.commits ++ [⟨t, a⟩]

/-- One step of thread `t` inside `commit (progs t)`. -/
def step (progs : (t : Tid) → Stm Val (A t) (E t)) (s : Sys Val A E) (t : Tid) :
    Option (Sys Val A E) :=
  match s.calls t with
  | .idle => some (s.setCall t (.running (progs t) Txn.new s.past.length))
  | .running (.read id k) txn start =>
      let r := TRef.readStm id s.store txn
      some (s.setCall t (.running (k r.1) r.2 start))
  | .running (.write id v k) txn start =>
      some (s.setCall t (.running k (TRef.writeStm id v s.store txn) start))
  | .running .retry _ _ => some (s.setCall t .idle)
  | .running (.fail e) _ start =>
      some (s.setCall t (.returned (.error e) (s.history.drop start)))
  | .running (.done a) txn start =>
      match tryCommit txn s.store with
      | some σ' => some (s.publish t a σ' start)
      | none => some (s.setCall t .idle)
  | .returned _ _ => none

end Sys

/-- What one step of a thread can do, one constructor per case of `Sys.step`. -/
inductive Step (progs : (t : Tid) → Stm Val (A t) (E t)) (s : Sys Val A E) (t : Tid) :
    Sys Val A E → Prop
  | begin (h : s.calls t = .idle) :
      Step progs s t (s.setCall t (.running (progs t) Txn.new s.past.length))
  | read {id : ℕ} {k : Val id → Stm Val (A t) (E t)} {txn : Txn Val} {start : ℕ}
      (h : s.calls t = .running (.read id k) txn start) :
      Step progs s t (s.setCall t (.running (k (TRef.readStm id s.store txn).1)
        (TRef.readStm id s.store txn).2 start))
  | write {id : ℕ} {v : Val id} {k : Stm Val (A t) (E t)} {txn : Txn Val} {start : ℕ}
      (h : s.calls t = .running (.write id v k) txn start) :
      Step progs s t (s.setCall t (.running k (TRef.writeStm id v s.store txn) start))
  | retry {txn : Txn Val} {start : ℕ} (h : s.calls t = .running .retry txn start) :
      Step progs s t (s.setCall t .idle)
  | fail {e : E t} {txn : Txn Val} {start : ℕ} (h : s.calls t = .running (.fail e) txn start) :
      Step progs s t (s.setCall t (.returned (.error e) (s.history.drop start)))
  | conflict {a : A t} {txn : Txn Val} {start : ℕ} (h : s.calls t = .running (.done a) txn start)
      (hv : txn.valid s.store = false) : Step progs s t (s.setCall t .idle)
  | commit {a : A t} {txn : Txn Val} {start : ℕ} {σ' : Store Val}
      (h : s.calls t = .running (.done a) txn start) (hc : tryCommit txn s.store = some σ') :
      Step progs s t (s.publish t a σ' start)

theorem Step.of_step {progs : (t : Tid) → Stm Val (A t) (E t)} {s s' : Sys Val A E} {t : Tid}
    (h : s.step progs t = some s') : Step progs s t s' := by
  unfold Sys.step at h
  cases hcall : s.calls t with
  | idle =>
      simp only [hcall, Option.some.injEq] at h
      exact h ▸ .begin hcall
  | returned r seen => simp [hcall] at h
  | running p txn start =>
      cases p with
      | read id k =>
          simp only [hcall, Option.some.injEq] at h
          exact h ▸ .read hcall
      | write id v k =>
          simp only [hcall, Option.some.injEq] at h
          exact h ▸ .write hcall
      | retry =>
          simp only [hcall, Option.some.injEq] at h
          exact h ▸ .retry hcall
      | fail e =>
          simp only [hcall, Option.some.injEq] at h
          exact h ▸ .fail hcall
      | done a =>
          simp only [hcall] at h
          cases hc : tryCommit txn s.store with
          | none =>
              simp only [hc, Option.some.injEq] at h
              exact h ▸ .conflict hcall (tryCommit_eq_none.1 hc)
          | some σ' =>
              simp only [hc, Option.some.injEq] at h
              exact h ▸ .commit hcall hc

/-! ## Accessors -/

section

variable (s : Sys Val A E) (t : Tid)

@[simp] theorem setCall_commits (c : Call Val (A t) (E t)) :
    (s.setCall t c).commits = s.commits := rfl

@[simp] theorem setCall_self (c : Call Val (A t) (E t)) : (s.setCall t c).calls t = c := by
  simp [Sys.setCall]

theorem setCall_of_ne (c : Call Val (A t) (E t)) {u : Tid} (h : u ≠ t) :
    (s.setCall t c).calls u = s.calls u := by
  simp [Sys.setCall, h]

@[simp] theorem publish_history (a : A t) (σ' : Store Val) (start : ℕ) :
    (s.publish t a σ' start).history = s.history ++ [σ'] := rfl

@[simp] theorem publish_commits (a : A t) (σ' : Store Val) (start : ℕ) :
    (s.publish t a σ' start).commits = s.commits ++ [⟨t, a⟩] := rfl

@[simp] theorem publish_self (a : A t) (σ' : Store Val) (start : ℕ) :
    (s.publish t a σ' start).calls t = .returned (.ok a) ((s.history ++ [σ']).drop start) := by
  simp [Sys.publish]

theorem publish_of_ne (a : A t) (σ' : Store Val) (start : ℕ) {u : Tid} (h : u ≠ t) :
    (s.publish t a σ' start).calls u = s.calls u := by
  simp [Sys.publish, h]

/-- A call that has not succeeded stands where it stood before another one published. -/
theorem calls_of_publish {a : A t} {σ' : Store Val} {start : ℕ} {u : Tid}
    {c : Call Val (A u) (E u)} (hu : (s.publish t a σ' start).calls u = c)
    (hc : ∀ b seen, c ≠ .returned (.ok b) seen) : s.calls u = c := by
  by_cases hut : u = t
  · subst hut
    rw [publish_self] at hu
    exact absurd hu.symm (hc a _)
  · rwa [publish_of_ne s t a σ' start hut] at hu

end

/-! ## A half-run attempt

The log alone does not say what an attempt has seen: a later write hides the value read before. The
invariant names the cells as they were at their first access (`snap`) and says what they determine:
on every store that still has them, running the program from a fresh log leads to where the attempt
stands now. -/

variable {A' E' : Type}

/-- `σ` still has every cell of the snapshot. -/
def Agrees (snap : (id : ℕ) → Option (Cell (Val id))) (σ : Store Val) : Prop :=
  ∀ id c, snap id = some c → σ id = c

/-- `snap` is what the attempt at `p` with log `txn` has seen of the history. -/
structure Snapshot (history : List (Store Val)) (prog p : Stm Val A' E') (txn : Txn Val)
    (snap : (id : ℕ) → Option (Cell (Val id))) : Prop where
  seen : ∀ id c, snap id = some c → ∃ σ ∈ history, σ id = c
  checked : ∀ id c, snap id = some c → (id, c.ver) ∈ txn.readValidators
  validated : ∀ id, id ∈ txn.validated ↔ (snap id).isSome
  shadowed : ∀ id, id ∈ txn.validated → (txn.shadow.lookup id).isSome
  replay : ∀ σ, Agrees snap σ → prog.runOn σ Txn.new = p.runOn σ txn

theorem Snapshot.begin (history : List (Store Val)) (prog : Stm Val A' E') :
    Snapshot history prog prog Txn.new (fun _ => none) where
  seen := by simp
  checked := by simp
  validated := by simp [Txn.new]
  shadowed := by simp [Txn.new]
  replay := fun _ _ => rfl

theorem Snapshot.extend {history : List (Store Val)} {prog p : Stm Val A' E'} {txn : Txn Val}
    {snap : (id : ℕ) → Option (Cell (Val id))} (h : Snapshot history prog p txn snap)
    (σ' : Store Val) : Snapshot (history ++ [σ']) prog p txn snap where
  seen := by
    intro id c hc
    obtain ⟨σ, hσ, he⟩ := h.seen id c hc
    exact ⟨σ, List.mem_append_left _ hσ, he⟩
  checked := h.checked
  validated := h.validated
  shadowed := h.shadowed
  replay := h.replay

/-- The snapshot after a first access to `id` on the store `σ`. -/
def snapCell (snap : (id : ℕ) → Option (Cell (Val id))) (σ : Store Val) (id : ℕ) :
    (id : ℕ) → Option (Cell (Val id)) :=
  Function.update snap id (some (σ id))

theorem snapCell_eq_some {snap : (id : ℕ) → Option (Cell (Val id))} {σ : Store Val} {id j : ℕ}
    {c : Cell (Val j)} (h : snapCell snap σ id j = some c) :
    (j = id ∧ σ j = c) ∨ (j ≠ id ∧ snap j = some c) := by
  unfold snapCell at h
  by_cases hj : j = id
  · subst hj
    rw [Function.update_self, Option.some.injEq] at h
    exact Or.inl ⟨rfl, h⟩
  · rw [Function.update_of_ne hj] at h
    exact Or.inr ⟨hj, h⟩

theorem Agrees.of_snapCell {snap : (id : ℕ) → Option (Cell (Val id))} {σ₀ σ : Store Val} {id : ℕ}
    (hnone : snap id = none) (h : Agrees (snapCell snap σ₀ id) σ) :
    Agrees snap σ ∧ σ id = σ₀ id := by
  constructor
  · intro j c hc
    refine h j c ?_
    by_cases hj : j = id
    · subst hj
      rw [hnone] at hc
      exact absurd hc (by simp)
    · rw [snapCell, Function.update_of_ne hj, hc]
  · exact h id _ (by rw [snapCell, Function.update_self])

end IdEffect.Stm
