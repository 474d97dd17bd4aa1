import IdEffect.Stm.Serializable

set_option autoImplicit false

/-! # Transactions as memory transformers

What a transaction is for, without logs and versions: it reads and writes a memory, and ends in an
outcome (`Stm.eval`). This module relates the code to it. The log of an attempt on a quiet store is
a faithful delta of that store (`LogOk`), so what the attempt sees through the log (`view`) is the
memory of `eval` (`runOn_eval`); and `commit`, run alone, returns and stores exactly what `eval`
says, or spins forever where `eval` says retry (`commit_of_eval_done`, `commit_of_eval_fail`,
`commit_of_eval_retry`). -/

namespace IdEffect

open Versioned

variable {Val : ℕ → Type} {A B E : Type}

/-- The values of all cells. -/
abbrev Memory (Val : ℕ → Type) := (id : ℕ) → Val id

/-- The values of a store, without their versions. -/
def values (σ : Store Val) : Memory Val := fun id => (σ id).value

namespace Stm

/-- The meaning of a transaction: its outcome and the memory it leaves. -/
def eval : Stm Val A E → Memory Val → Outcome A E × Memory Val
  | .done a, m => (.done a, m)
  | .fail e, m => (.fail e, m)
  | .retry, m => (.retry, m)
  | .read id k, m => (k (m id)).eval m
  | .write id v k, m => k.eval (Function.update m id v)

/-- The cells a transaction writes on its way through the memory `m`, in order. -/
def writes : Stm Val A E → Memory Val → List ℕ
  | .done _, _ => []
  | .fail _, _ => []
  | .retry, _ => []
  | .read id k, m => (k (m id)).writes m
  | .write id v k, m => id :: k.writes (Function.update m id v)

/-! ## The log of an attempt on a quiet store -/

/-- What the attempt sees: the shadow value of a cell if there is one, else the live value. -/
def view (txn : Txn Val) (σ : Store Val) : Memory Val :=
  fun id => (txn.shadow.lookup id).getD (σ id).value

/-- The log is a delta of `σ`: its checks hold, and a shadow value is either a deferred write or the
    live value. -/
structure LogOk (σ : Store Val) (txn : Txn Val) : Prop where
  valid : txn.valid σ = true
  shadowed : ∀ id, id ∈ txn.validated → (txn.shadow.lookup id).isSome
  clean : ∀ id v, txn.shadow.lookup id = some v → txn.commitWrites.lookup id = none →
    v = (σ id).value
  dirty : ∀ id v, txn.commitWrites.lookup id = some v → txn.shadow.lookup id = some v

variable {σ : Store Val} {txn : Txn Val}

theorem logOk_new (σ : Store Val) : LogOk σ Txn.new where
  valid := rfl
  shadowed := by simp [Txn.new]
  clean := by simp [Txn.new]
  dirty := by simp [Txn.new]

theorem view_new (σ : Store Val) : view Txn.new σ = values σ := by
  funext id
  simp [view, values, Txn.new]

theorem LogOk.not_validated {id : ℕ} (h : LogOk σ txn) (hsh : txn.shadow.lookup id = none) :
    id ∉ txn.validated := by
  intro hv
  have := h.shadowed id hv
  rw [hsh] at this
  exact absurd this (by simp)

/-- Inserting a shadow value for `id` changes the view at `id` only. -/
theorem view_insert {txn' : Txn Val} {id : ℕ} {v : Val id}
    (hsh : txn'.shadow = txn.shadow.insert id v) :
    view txn' σ = Function.update (view txn σ) id v := by
  funext j
  rw [view, hsh]
  by_cases hj : j = id
  · subst hj
    simp
  · rw [AList.lookup_insert_ne hj, Function.update_of_ne hj, view]

theorem valid_append {id : ℕ} {txn' : Txn Val} (h : txn.valid σ = true)
    (hchk : txn'.readValidators = txn.readValidators ++ [(id, (σ id).ver)]) :
    txn'.valid σ = true := by
  unfold Txn.valid at h ⊢
  rw [hchk, List.all_append, h]
  simp

/-- A read returns what the attempt sees, and changes neither the view nor the deferred writes. -/
theorem LogOk.readStm {id : ℕ} (h : LogOk σ txn) :
    LogOk σ (TRef.readStm id σ txn).2 ∧ (TRef.readStm id σ txn).1 = view txn σ id ∧
      view (TRef.readStm id σ txn).2 σ = view txn σ ∧
      (TRef.readStm id σ txn).2.commitWrites = txn.commitWrites := by
  cases hsh : txn.shadow.lookup id with
  | some v =>
      rw [readStm_of_shadow hsh]
      exact ⟨h, by simp [view, hsh], rfl, rfl⟩
  | none =>
      have hnot := h.not_validated hsh
      rw [readStm_of_fresh hsh hnot]
      refine ⟨⟨valid_append h.valid rfl, ?_, ?_, ?_⟩, by simp [view, hsh], ?_, rfl⟩
      · intro j hj
        rcases Finset.mem_insert.1 hj with rfl | hj
        · simp
        · exact lookup_insert_isSome (h.shadowed j hj)
      · intro j v hv hnone
        by_cases hj : j = id
        · subst hj
          rw [AList.lookup_insert, Option.some.injEq] at hv
          exact hv.symm
        · rw [AList.lookup_insert_ne hj] at hv
          exact h.clean j v hv hnone
      · intro j v hv
        have hshj := h.dirty j v hv
        by_cases hj : j = id
        · subst hj
          rw [hsh] at hshj
          exact absurd hshj (by simp)
        · rwa [AList.lookup_insert_ne hj]
      · rw [view_insert rfl]
        -- the inserted value is the one seen before
        have hid : (σ id).value = view txn σ id := by simp [view, hsh]
        rw [hid, Function.update_eq_self]

/-- A write updates the view and is deferred. -/
theorem LogOk.writeStm {id : ℕ} (v : Val id) (h : LogOk σ txn) :
    LogOk σ (TRef.writeStm id v σ txn) ∧
      view (TRef.writeStm id v σ txn) σ = Function.update (view txn σ) id v ∧
      (TRef.writeStm id v σ txn).commitWrites = txn.commitWrites.insert id v := by
  have hshadow : (TRef.writeStm id v σ txn).shadow = txn.shadow.insert id v := by
    simp only [TRef.writeStm, ensureValidated]
    split <;> rfl
  have hwrites : (TRef.writeStm id v σ txn).commitWrites = txn.commitWrites.insert id v := by
    simp only [TRef.writeStm, ensureValidated]
    split <;> rfl
  refine ⟨⟨?_, ?_, ?_, ?_⟩, view_insert hshadow, hwrites⟩
  · by_cases hv : id ∈ txn.validated
    · rw [writeStm_of_validated hv]
      exact h.valid
    · exact valid_append h.valid (by rw [writeStm_of_fresh hv])
  · intro j hj
    rw [hshadow]
    by_cases hv : id ∈ txn.validated
    · rw [writeStm_of_validated hv] at hj
      exact lookup_insert_isSome (h.shadowed j hj)
    · rw [writeStm_of_fresh hv] at hj
      rcases Finset.mem_insert.1 hj with rfl | hj
      · simp
      · exact lookup_insert_isSome (h.shadowed j hj)
  · intro j w hw hnone
    rw [hshadow] at hw
    rw [hwrites] at hnone
    by_cases hj : j = id
    · subst hj
      rw [AList.lookup_insert] at hnone
      exact absurd hnone (by simp)
    · rw [AList.lookup_insert_ne hj] at hw hnone
      exact h.clean j w hw hnone
  · intro j w hw
    rw [hwrites] at hw
    rw [hshadow]
    by_cases hj : j = id
    · subst hj
      rw [AList.lookup_insert] at hw ⊢
      exact hw
    · rw [AList.lookup_insert_ne hj] at hw ⊢
      exact h.dirty j w hw

/-- **An attempt on a quiet store computes `eval`** on what it sees, and keeps its log a delta. -/
theorem runOn_eval (p : Stm Val A E) (h : LogOk σ txn) :
    LogOk σ (p.runOn σ txn).2 ∧
      p.eval (view txn σ) = ((p.runOn σ txn).1, view (p.runOn σ txn).2 σ) := by
  induction p generalizing txn with
  | done a => exact ⟨h, rfl⟩
  | fail e => exact ⟨h, rfl⟩
  | retry => exact ⟨h, rfl⟩
  | read id k ih =>
      obtain ⟨hok, hval, hview, -⟩ := @LogOk.readStm _ σ txn id h
      have hk := ih (TRef.readStm id σ txn).1 hok
      rw [hview, hval] at hk
      rw [eval, runOn, hval]
      exact hk
  | write id v k ih =>
      obtain ⟨hok, hview, -⟩ := h.writeStm v
      have hk := ih hok
      rw [hview] at hk
      exact hk

/-- Committing a delta stores what the attempt sees. -/
theorem LogOk.tryCommit (h : LogOk σ txn) :
    ∃ σ', IdEffect.tryCommit txn σ = some σ' ∧ values σ' = view txn σ := by
  refine ⟨_, tryCommit_eq_some.2 ⟨h.valid, fun _ => rfl⟩, ?_⟩
  funext id
  rw [values, view]
  cases hw : txn.commitWrites.lookup id with
  | some v => rw [h.dirty id v hw]; rfl
  | none =>
      cases hsh : txn.shadow.lookup id with
      | none => rfl
      | some v => exact (h.clean id v hsh hw).symm

/-! ## `commit` alone -/

/-- What a caller of `commit` can see: the result and the cells' values. -/
def observed (r : Option (Except E A × Store Val)) : Option (Except E A × Memory Val) :=
  r.map (fun x => (x.1, values x.2))

theorem runOn_new (p : Stm Val A E) (σ : Store Val) :
    LogOk σ (p.runOn σ Txn.new).2 ∧
      p.eval (values σ) = ((p.runOn σ Txn.new).1, view (p.runOn σ Txn.new).2 σ) := by
  have h := runOn_eval p (logOk_new σ)
  rwa [view_new] at h

theorem commit_of_eval_done {p : Stm Val A E} {a : A} {m : Memory Val}
    (h : p.eval (values σ) = (.done a, m)) (fuel : ℕ) :
    observed (commit (fuel + 1) p σ) = some (.ok a, m) := by
  obtain ⟨hok, heval⟩ := runOn_new p σ
  rw [h, Prod.mk.injEq] at heval
  obtain ⟨hout, hm⟩ := heval
  obtain ⟨σ', hc, hvals⟩ := hok.tryCommit
  have hrun : p.runOn σ Txn.new = (.done a, (p.runOn σ Txn.new).2) := by rw [hout]
  rw [commit_of_replay hrun hc fuel, hm, ← hvals]
  rfl

theorem commit_of_eval_fail {p : Stm Val A E} {e : E} {m : Memory Val}
    (h : p.eval (values σ) = (.fail e, m)) (fuel : ℕ) :
    commit (fuel + 1) p σ = some (.error e, σ) := by
  obtain ⟨-, heval⟩ := runOn_new p σ
  rw [h, Prod.mk.injEq] at heval
  have hrun : p.runOn σ Txn.new = (.fail e, (p.runOn σ Txn.new).2) := by rw [heval.1]
  rw [commit, hrun]

/-- Alone, a retrying transaction never returns: nobody changes what it waits for. -/
theorem commit_of_eval_retry {p : Stm Val A E} {m : Memory Val}
    (h : p.eval (values σ) = (.retry, m)) (fuel : ℕ) : commit fuel p σ = none := by
  obtain ⟨-, heval⟩ := runOn_new p σ
  rw [h, Prod.mk.injEq] at heval
  have hrun : p.runOn σ Txn.new = (.retry, (p.runOn σ Txn.new).2) := by rw [heval.1]
  induction fuel with
  | zero => rfl
  | succ fuel ih => rw [commit, hrun]; exact ih

/-- Two transactions with the same meaning on the current values cannot be told apart. -/
theorem observed_commit_congr {p q : Stm Val A E} (h : p.eval (values σ) = q.eval (values σ))
    (fuel : ℕ) : observed (commit fuel p σ) = observed (commit fuel q σ) := by
  cases fuel with
  | zero => rfl
  | succ fuel =>
      rcases hq : q.eval (values σ) with ⟨o, m⟩
      have hp := h.trans hq
      cases o with
      | done a => rw [commit_of_eval_done hp, commit_of_eval_done hq]
      | fail e => rw [commit_of_eval_fail hp, commit_of_eval_fail hq]
      | retry => rw [commit_of_eval_retry hp, commit_of_eval_retry hq]

/-! ## The deferred writes -/

/-- A transaction that writes nothing leaves the memory as it was. -/
theorem eval_of_writes_nil (p : Stm Val A E) {m : Memory Val} (h : p.writes m = []) :
    (p.eval m).2 = m := by
  induction p with
  | done a => rfl
  | fail e => rfl
  | retry => rfl
  | read id k ih => exact ih _ h
  | write id v k _ => exact absurd h (by simp [writes])

/-- The deferred writes after an attempt are those it started with and those it makes. -/
theorem commitWrites_runOn (p : Stm Val A E) (h : LogOk σ txn) (j : ℕ) :
    ((p.runOn σ txn).2.commitWrites.lookup j).isSome ↔
      (txn.commitWrites.lookup j).isSome ∨ j ∈ p.writes (view txn σ) := by
  induction p generalizing txn with
  | done a => simp [runOn, writes]
  | fail e => simp [runOn, writes]
  | retry => simp [runOn, writes]
  | read id k ih =>
      obtain ⟨hok, hval, hview, hw⟩ := @LogOk.readStm _ σ txn id h
      have hk := ih (TRef.readStm id σ txn).1 hok
      rw [hview, hw, hval] at hk
      rw [runOn, writes, hval]
      exact hk
  | write id v k ih =>
      obtain ⟨hok, hview, hw⟩ := h.writeStm v
      have hk := ih hok
      rw [hview, hw] at hk
      rw [runOn, hk, writes, List.mem_cons]
      by_cases hj : j = id
      · subst hj
        simp
      · rw [AList.lookup_insert_ne hj]
        simp [hj]

/-- A transaction that writes nothing defers nothing. -/
theorem commitWrites_of_writes_nil (p : Stm Val A E) (h : LogOk σ txn)
    (hw : p.writes (view txn σ) = []) :
    (p.runOn σ txn).2.commitWrites = txn.commitWrites := by
  induction p generalizing txn with
  | done a => rfl
  | fail e => rfl
  | retry => rfl
  | read id k ih =>
      obtain ⟨hok, hval, hview, hcw⟩ := @LogOk.readStm _ σ txn id h
      have hk := ih (TRef.readStm id σ txn).1 hok (by rw [hview, hval]; exact hw)
      rwa [hcw] at hk
  | write id v k _ => exact absurd hw (by simp [writes])

/-- Two logs with the same view and the same deferred writes lead to the same outcome and the same
    deferred writes. -/
theorem runOn_congr (p : Stm Val A E) {txn' : Txn Val} (h : LogOk σ txn) (h' : LogOk σ txn')
    (hview : view txn σ = view txn' σ) (hw : txn.commitWrites = txn'.commitWrites) :
    (p.runOn σ txn).1 = (p.runOn σ txn').1 ∧
      (p.runOn σ txn).2.commitWrites = (p.runOn σ txn').2.commitWrites := by
  induction p generalizing txn txn' with
  | done a => exact ⟨rfl, hw⟩
  | fail e => exact ⟨rfl, hw⟩
  | retry => exact ⟨rfl, hw⟩
  | read id k ih =>
      obtain ⟨hok, hval, hv, hcw⟩ := @LogOk.readStm _ σ txn id h
      obtain ⟨hok', hval', hv', hcw'⟩ := @LogOk.readStm _ σ txn' id h'
      have hread : (TRef.readStm id σ txn).1 = (TRef.readStm id σ txn').1 := by
        rw [hval, hval', hview]
      rw [runOn, runOn, hread]
      exact ih _ hok hok' (by rw [hv, hv', hview]) (by rw [hcw, hcw', hw])
  | write id v k ih =>
      obtain ⟨hok, hv, hcw⟩ := h.writeStm v
      obtain ⟨hok', hv', hcw'⟩ := h'.writeStm v
      exact ih hok hok' (by rw [hv, hv', hview]) (by rw [hcw, hcw', hw])

end Stm

end IdEffect
