import IdEffect.Stm.Memory

set_option autoImplicit false

/-! # `Stm::or_else`

`or_else` runs its second branch on the log that the first one leaves behind when it retries: the
abandoned branch's shadow values and deferred writes stay in it. So the second branch reads what the
first one wrote, and its commit stores it (`orElse_keeps_abandoned_write`). `orElse_discards_iff`
says exactly when nothing of the abandoned branch shows: the caller sees no difference, whatever the
second branch is, iff the first one puts every cell it writes back to the value it found; and the
commit is the same one, versions included, iff it writes no cell at all. -/

namespace IdEffect.Stm

open Versioned

variable {Val : ℕ → Type} {A E : Type}

theorem eval_orElse (a b : Stm Val A E) (m : Memory Val) (h : (a.eval m).1 = .retry) :
    (a.orElse b).eval m = b.eval (a.eval m).2 := by
  induction a generalizing m with
  | done x => exact absurd h (by simp [eval])
  | fail e => exact absurd h (by simp [eval])
  | retry => rfl
  | read id k ih => exact ih _ _ h
  | write id v k ih => exact ih _ h

/-! ## An abandoned write that is committed -/

/-- Write 1 to cell 0, then retry. -/
def writeThenRetry : Stm (fun _ => ℕ) ℕ Unit := .write 0 1 .retry

theorem orElse_keeps_abandoned_write :
    (writeThenRetry.runOn (fun _ => ⟨0, 0⟩) Txn.new).1 = .retry ∧
      ¬ ∀ fuel, observed (commit fuel (writeThenRetry.orElse (readStm 0)) fun _ => ⟨0, 0⟩)
        = observed (commit fuel (readStm 0) fun _ => ⟨0, 0⟩) := by
  refine ⟨rfl, fun h => ?_⟩
  -- the second branch alone returns 0; behind the abandoned write it returns 1
  have hret := congrArg (Option.map Prod.fst) (h 1)
  exact absurd (Except.ok.inj (Option.some.inj hret)) (by decide)

/-! ## When the abandoned branch leaves no trace -/

/-- After `a` has retried, `b` runs on `a`'s log. -/
theorem runOn_orElse_of_retry {a b : Stm Val A E} {σ : Store Val}
    (h : (a.runOn σ Txn.new).1 = .retry) :
    (a.orElse b).runOn σ Txn.new = b.runOn σ (a.runOn σ Txn.new).2 := by
  have hrun : a.runOn σ Txn.new = (.retry, (a.runOn σ Txn.new).2) := by rw [← h]
  rw [runOn_orElse, hrun]

theorem eval_of_retry {a : Stm Val A E} {σ : Store Val} (h : (a.runOn σ Txn.new).1 = .retry) :
    (a.eval (values σ)).1 = .retry := by
  rw [(runOn_new a σ).2]
  exact h

/-- A branch that writes nothing leaves the commit of the other one untouched. -/
theorem commit_orElse_of_writes_nil {a : Stm Val A E} (b : Stm Val A E) {σ : Store Val}
    (h : (a.runOn σ Txn.new).1 = .retry) (hw : a.writes (values σ) = []) (fuel : ℕ) :
    commit fuel (a.orElse b) σ = commit fuel b σ := by
  obtain ⟨hok, heval⟩ := runOn_new a σ
  have hview : view (a.runOn σ Txn.new).2 σ = view Txn.new σ := by
    rw [view_new, ← eval_of_writes_nil a hw, heval]
  have hdefer : (a.runOn σ Txn.new).2.commitWrites = (Txn.new : Txn Val).commitWrites :=
    commitWrites_of_writes_nil a (logOk_new σ) (by rw [view_new]; exact hw)
  obtain ⟨hout, hcw⟩ := runOn_congr b hok (logOk_new σ) hview hdefer
  -- both logs are valid deltas with the same deferred writes, so `try_commit` does the same
  have hcommit : tryCommit (b.runOn σ (a.runOn σ Txn.new).2).2 σ
      = tryCommit (b.runOn σ Txn.new).2 σ := by
    unfold tryCommit
    rw [(runOn_eval b hok).1.valid, (runOn_new b σ).1.valid, hcw]
  have hrun := runOn_orElse_of_retry h (b := b)
  induction fuel with
  | zero => rfl
  | succ fuel ih =>
      rw [commit, commit, hrun, ih]
      rcases hb : b.runOn σ Txn.new with ⟨o, txn⟩
      rcases hb' : b.runOn σ (a.runOn σ Txn.new).2 with ⟨o', txn'⟩
      rw [hb, hb'] at hout hcommit
      simp only at hout hcommit
      subst hout
      cases o' with
      | fail e => rfl
      | retry => rfl
      | done x => simp only [hcommit]

/-- If a branch writes a cell, committing nothing after it bumps that cell's version. -/
theorem commit_orElse_ne_of_writes {a : Stm Val A E} {σ : Store Val} {j : ℕ} (x : A)
    (h : (a.runOn σ Txn.new).1 = .retry) (hj : j ∈ a.writes (values σ)) :
    commit 1 (a.orElse (.done x)) σ ≠ commit 1 (.done x) σ := by
  obtain ⟨hok, -⟩ := runOn_new a σ
  obtain ⟨σ', hc, -⟩ := hok.tryCommit
  have hsome : ((a.runOn σ Txn.new).2.commitWrites.lookup j).isSome := by
    rw [commitWrites_runOn a (logOk_new σ) j, view_new]
    exact Or.inr hj
  obtain ⟨v, hv⟩ := Option.isSome_iff_exists.1 hsome
  have hcell : σ' j = (σ j).write v := by
    rw [(tryCommit_eq_some.1 hc).2 j, hv]
  have hleft : commit 1 (a.orElse (.done x)) σ = some (.ok x, σ') :=
    commit_of_replay (runOn_orElse_of_retry h) hc 0
  have hright : commit 1 (.done x : Stm Val A E) σ = some (.ok x, σ) :=
    commit_of_replay rfl rfl 0
  rw [hleft, hright]
  intro he
  have hσ : σ' = σ := (Prod.mk.inj (Option.some.inj he)).2
  rw [hσ] at hcell
  exact (σ j).ver_write_ne v (congrArg Cell.ver hcell)

/-- **When `or_else` discards the abandoned branch.** Let `a` retry on `σ`. Committing
    `a.or_else(b)` alone returns the same result and leaves the same values as committing `b` alone,
    for every `b`, iff `a` leaves the memory as it found it; and it is the same commit, versions
    included, for every `b`, iff `a` writes no cell before it retries. -/
theorem orElse_discards_iff [Inhabited A] (a : Stm Val A E) (σ : Store Val)
    (hretry : (a.runOn σ Txn.new).1 = .retry) :
    ((∀ (b : Stm Val A E) fuel,
        observed (commit fuel (a.orElse b) σ) = observed (commit fuel b σ)) ↔
      (a.eval (values σ)).2 = values σ) ∧
    ((∀ (b : Stm Val A E) fuel, commit fuel (a.orElse b) σ = commit fuel b σ) ↔
      a.writes (values σ) = []) := by
  have hev := eval_of_retry hretry
  refine ⟨⟨fun h => ?_, fun hm b fuel => ?_⟩, ⟨fun h => ?_, fun hw b fuel => ?_⟩⟩
  · -- with a second branch that does nothing, the values left are those `a` leaves
    have hleft : (a.orElse (.done default)).eval (values σ) =
        (.done default, (a.eval (values σ)).2) :=
      eval_orElse a _ _ hev
    have hright : (.done default : Stm Val A E).eval (values σ) = (.done default, values σ) := rfl
    have heq := h (.done default) 1
    rw [commit_of_eval_done hleft 0, commit_of_eval_done hright 0] at heq
    exact (Prod.mk.inj (Option.some.inj heq)).2
  · refine observed_commit_congr ?_ fuel
    rw [eval_orElse a b _ hev, hm]
  · by_contra hne
    obtain ⟨j, hj⟩ := List.exists_mem_of_ne_nil _ hne
    exact commit_orElse_ne_of_writes default hretry hj (h _ 1)
  · exact commit_orElse_of_writes_nil b hretry hw fuel

/-- A first branch that only reads before it retries is discarded. -/
theorem orElse_discards_iff_readThenRetry :
    ((.read 0 fun _ => .retry : Stm (fun _ => ℕ) ℕ Unit).runOn (fun _ => ⟨0, 0⟩) Txn.new).1 =
        .retry ∧
      ∀ (b : Stm (fun _ => ℕ) ℕ Unit) fuel,
        commit fuel (orElse (.read 0 fun _ => .retry) b) (fun _ => ⟨0, 0⟩)
          = commit fuel b (fun _ => ⟨0, 0⟩) :=
  ⟨rfl, (orElse_discards_iff (.read 0 fun _ => .retry) _ rfl).2.2 rfl⟩

end IdEffect.Stm
