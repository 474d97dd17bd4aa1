import IdEffect.Stm.Interleaving

set_option autoImplicit false

/-! # Commits are serializable

The state reached by any interleaving of `commit` calls is the one reached by running the successful
transactions one after another, alone, in the order of their `try_commit` steps, and each of them
returns the value it returns there (`commit_serializable`).

The argument is the one behind optimistic concurrency. A transaction that validates still finds
every cell it has seen at the version it saw it at; versions only grow, so it finds the *cells* it
has seen (`Versioned.Cell.eq_of_ver_eq`); and on a store that still has them, running the program
from the start ends in the same log and the same value (`Snapshot.replay`). -/

namespace IdEffect.Stm

open Versioned Transition

variable {Tid : Type} [DecidableEq Tid] {Val : ℕ → Type} {A E : Tid → Type}

/-! ## Accesses depend on the accessed cell only -/

theorem readStm_congr {id : ℕ} {σ σ' : Store Val} (txn : Txn Val) (h : σ id = σ' id) :
    TRef.readStm id σ txn = TRef.readStm id σ' txn := by
  unfold TRef.readStm
  rw [h]

theorem readStm_of_shadow {id : ℕ} {σ : Store Val} {txn : Txn Val} {v : Val id}
    (h : txn.shadow.lookup id = some v) : TRef.readStm id σ txn = (v, txn) := by
  simp only [TRef.readStm, h]

/-- A first read: the live value, with its version recorded. -/
theorem readStm_of_fresh {id : ℕ} {σ : Store Val} {txn : Txn Val}
    (h : txn.shadow.lookup id = none) (hv : id ∉ txn.validated) :
    TRef.readStm id σ txn = ((σ id).value,
      { txn with
        validated := insert id txn.validated
        readValidators := txn.readValidators ++ [(id, (σ id).ver)]
        shadow := txn.shadow.insert id (σ id).value }) := by
  simp only [TRef.readStm, h, if_neg hv]

theorem writeStm_congr {id : ℕ} {σ σ' : Store Val} (v : Val id) (txn : Txn Val)
    (h : σ id = σ' id) : TRef.writeStm id v σ txn = TRef.writeStm id v σ' txn := by
  unfold TRef.writeStm ensureValidated
  rw [h]

theorem writeStm_of_validated {id : ℕ} {σ : Store Val} {v : Val id} {txn : Txn Val}
    (hv : id ∈ txn.validated) :
    TRef.writeStm id v σ txn =
      { txn with
        shadow := txn.shadow.insert id v
        commitWrites := txn.commitWrites.insert id v } := by
  simp only [TRef.writeStm, ensureValidated, if_pos hv]

theorem writeStm_of_fresh {id : ℕ} {σ : Store Val} {v : Val id} {txn : Txn Val}
    (hv : id ∉ txn.validated) :
    TRef.writeStm id v σ txn =
      { txn with
        validated := insert id txn.validated
        readValidators := txn.readValidators ++ [(id, (σ id).ver)]
        shadow := txn.shadow.insert id v
        commitWrites := txn.commitWrites.insert id v } := by
  simp only [TRef.writeStm, ensureValidated, if_neg hv]

/-! ## Every access keeps the snapshot -/

section

variable {A' E' : Type} {history : List (Store Val)} {prog : Stm Val A' E'} {txn : Txn Val}
  {snap : (id : ℕ) → Option (Cell (Val id))} {σ : Store Val} {id : ℕ}

theorem lookup_insert_isSome {m : AList Val} {v : Val id} {j : ℕ} (h : (m.lookup j).isSome) :
    ((m.insert id v).lookup j).isSome := by
  by_cases hj : j = id
  · subst hj
    simp
  · rwa [AList.lookup_insert_ne hj]

/-- A first access records the cell: the log grows by its check and its shadow value, and the
    snapshot by the cell. -/
theorem Snapshot.access {p p' : Stm Val A' E'} {txn' : Txn Val} {v : Val id}
    (h : Snapshot history prog p txn snap) (hσ : σ ∈ history) (hnot : id ∉ txn.validated)
    (hval : txn'.validated = insert id txn.validated)
    (hchk : txn'.readValidators = txn.readValidators ++ [(id, (σ id).ver)])
    (hsh : txn'.shadow = txn.shadow.insert id v)
    (hrun : ∀ σ', σ' id = σ id → p.runOn σ' txn = p'.runOn σ' txn') :
    Snapshot history prog p' txn' (snapCell snap σ id) := by
  have hnone : snap id = none := by
    have := mt (h.validated id).2 hnot
    simpa using this
  refine ⟨?_, ?_, ?_, ?_, ?_⟩
  · intro j c hc
    rcases snapCell_eq_some hc with ⟨rfl, he⟩ | ⟨_, he⟩
    · exact ⟨σ, hσ, he⟩
    · exact h.seen j c he
  · intro j c hc
    rw [hchk]
    rcases snapCell_eq_some hc with ⟨rfl, rfl⟩ | ⟨_, he⟩
    · simp
    · exact List.mem_append_left _ (h.checked j c he)
  · intro j
    rw [hval, Finset.mem_insert, snapCell]
    by_cases hj : j = id
    · subst hj
      simp
    · simp only [hj, false_or, Function.update_of_ne hj, h.validated j]
  · intro j hj
    rw [hsh]
    rw [hval, Finset.mem_insert] at hj
    rcases hj with rfl | hj
    · simp
    · exact lookup_insert_isSome (h.shadowed j hj)
  · intro σ' hσ'
    obtain ⟨hagree, hcell⟩ := hσ'.of_snapCell hnone
    rw [h.replay σ' hagree, hrun σ' hcell]

theorem Snapshot.read {k : Val id → Stm Val A' E'}
    (h : Snapshot history prog (.read id k) txn snap) (hσ : σ ∈ history) :
    ∃ snap', Snapshot history prog (k (TRef.readStm id σ txn).1) (TRef.readStm id σ txn).2
      snap' := by
  cases hsh : txn.shadow.lookup id with
  | some v =>
      refine ⟨snap, ?_⟩
      rw [readStm_of_shadow hsh]
      refine ⟨h.seen, h.checked, h.validated, h.shadowed, ?_⟩
      intro σ' hσ'
      rw [h.replay σ' hσ', Stm.runOn, readStm_of_shadow hsh]
  | none =>
      have hnot : id ∉ txn.validated := by
        intro hv
        have := h.shadowed id hv
        rw [hsh] at this
        exact absurd this (by simp)
      refine ⟨snapCell snap σ id, ?_⟩
      refine h.access (v := (σ id).value) hσ hnot ?_ ?_ ?_ ?_
      · rw [readStm_of_fresh hsh hnot]
      · rw [readStm_of_fresh hsh hnot]
      · rw [readStm_of_fresh hsh hnot]
      · intro σ' hcell
        rw [Stm.runOn, readStm_congr txn hcell]

theorem Snapshot.write {v : Val id} {k : Stm Val A' E'}
    (h : Snapshot history prog (.write id v k) txn snap) (hσ : σ ∈ history) :
    ∃ snap', Snapshot history prog k (TRef.writeStm id v σ txn) snap' := by
  by_cases hv : id ∈ txn.validated
  · refine ⟨snap, ?_⟩
    refine ⟨h.seen, ?_, ?_, ?_, ?_⟩
    · rw [writeStm_of_validated hv]
      exact h.checked
    · rw [writeStm_of_validated hv]
      exact h.validated
    · rw [writeStm_of_validated hv]
      exact fun j hj => lookup_insert_isSome (h.shadowed j hj)
    · intro σ' hσ'
      rw [h.replay σ' hσ', Stm.runOn, writeStm_of_validated hv, writeStm_of_validated hv]
  · refine ⟨snapCell snap σ id, h.access (v := v) hσ hv ?_ ?_ ?_ ?_⟩
    · rw [writeStm_of_fresh hv]
    · rw [writeStm_of_fresh hv]
    · rw [writeStm_of_fresh hv]
    · intro σ' hcell
      rw [Stm.runOn, writeStm_congr v txn hcell]

/-- **Validation gives the snapshot back.** If every recorded version is current, the store still
    has every cell the attempt has seen. -/
theorem Snapshot.agrees_of_valid {p : Stm Val A' E'} {past : List (Store Val)} {now : Store Val}
    (h : Snapshot (past ++ [now]) prog p txn snap) (hf : (past ++ [now]).IsChain Follows)
    (hw : NoWrap (past ++ [now])) (hv : txn.valid now = true) : Agrees snap now := by
  intro id c hc
  have hcheck := List.all_eq_true.1 hv _ (h.checked id c hc)
  exact Cell.eq_of_ver_eq hf hw (h.seen id c hc) (by simpa using hcheck)

end

/-! ## Serial runs -/

/-- Running transactions one after another, alone, each by `commit`, from `σ` to the last store. -/
inductive Serial (progs : (t : Tid) → Stm Val (A t) (E t)) (σ : Store Val) :
    List (Σ t, A t) → Store Val → Prop
  | nil : Serial progs σ [] σ
  | snoc {done : List (Σ t, A t)} {σ' σ'' : Store Val} {t : Tid} {a : A t}
      (hdone : Serial progs σ done σ')
      (hcommit : ∀ fuel, commit (fuel + 1) (progs t) σ' = some (.ok a, σ'')) :
      Serial progs σ (done ++ [⟨t, a⟩]) σ''

/-- An attempt that stands at `done a` on a store with the cells it has seen commits there as it
    would alone. -/
theorem commit_of_replay {A' E' : Type} {prog : Stm Val A' E'} {σ σ' : Store Val} {txn : Txn Val}
    {a : A'} (hrun : prog.runOn σ Txn.new = (.done a, txn)) (hc : tryCommit txn σ = some σ')
    (fuel : ℕ) : commit (fuel + 1) prog σ = some (.ok a, σ') := by
  rw [commit, hrun]
  simp only [hc]

/-! ## The invariant of concurrent commits -/

structure Inv (progs : (t : Tid) → Stm Val (A t) (E t)) (σ₀ : Store Val) (s : Sys Val A E) :
    Prop where
  chain : s.history.IsChain Follows
  attempts : ∀ t p txn start, s.calls t = .running p txn start →
    ∃ snap, Snapshot s.history (progs t) p txn snap
  serial : NoWrap s.history → Serial progs σ₀ s.commits s.store
  results : ∀ t a, (∃ seen, s.calls t = .returned (.ok a) seen) ↔ ⟨t, a⟩ ∈ s.commits
  once : (s.commits.map Sigma.fst).Nodup

variable {progs : (t : Tid) → Stm Val (A t) (E t)} {σ₀ : Store Val} {s s' : Sys Val A E}

omit [DecidableEq Tid] in
theorem store_mem_history (s : Sys Val A E) : s.store ∈ s.history := by
  simp [Sys.history]

omit [DecidableEq Tid] in
theorem inv_init (progs : (t : Tid) → Stm Val (A t) (E t)) (σ₀ : Store Val) :
    Inv progs σ₀ (Sys.init σ₀) where
  chain := List.isChain_singleton _
  attempts := by
    intro t p txn start h
    exact absurd h (by simp [Sys.init])
  serial := fun _ => .nil
  results := by simp [Sys.init]
  once := by simp [Sys.init]

/-- A step that leaves the store alone keeps the invariant if the attempt it leads to has a
    snapshot. -/
theorem Inv.setCall {t : Tid} {c : Call Val (A t) (E t)} (h : Inv progs σ₀ s)
    (hold : ∀ a seen, s.calls t ≠ .returned (.ok a) seen)
    (hnew : ∀ a seen, c ≠ .returned (.ok a) seen)
    (hrun : ∀ p txn start, c = .running p txn start →
      ∃ snap, Snapshot s.history (progs t) p txn snap) :
    Inv progs σ₀ (s.setCall t c) where
  chain := h.chain
  attempts := by
    intro u p txn start hu
    by_cases hut : u = t
    · subst hut
      rw [setCall_self] at hu
      exact hrun p txn start hu
    · rw [setCall_of_ne s t c hut] at hu
      exact h.attempts u p txn start hu
  serial := h.serial
  results := by
    intro u a
    rw [setCall_commits, ← h.results u a]
    by_cases hut : u = t
    · subst hut
      rw [setCall_self]
      constructor
      · rintro ⟨seen, hseen⟩
        exact absurd hseen (hnew a seen)
      · rintro ⟨seen, hseen⟩
        exact absurd hseen (hold a seen)
    · rw [setCall_of_ne s t c hut]
  once := h.once

/-- A successful `try_commit` appends one transaction to the serial run. -/
theorem Inv.publish {t : Tid} {a : A t} {txn : Txn Val} {start : ℕ} {σ' : Store Val}
    (h : Inv progs σ₀ s) (hcall : s.calls t = .running (.done a) txn start)
    (hc : tryCommit txn s.store = some σ') : Inv progs σ₀ (s.publish t a σ' start) where
  chain := by
    rw [publish_history, Sys.history, List.append_assoc, List.singleton_append,
      List.isChain_append_cons_cons]
    exact ⟨h.chain, tryCommit_follows hc, List.isChain_singleton _⟩
  attempts := by
    intro u p txn' start' hu
    obtain ⟨snap, hsnap⟩ := h.attempts u p txn' start' (calls_of_publish s t hu nofun)
    exact ⟨snap, hsnap.extend σ'⟩
  serial := by
    intro hw
    rw [publish_history] at hw
    have hw' : NoWrap s.history := hw.of_append
    obtain ⟨snap, hsnap⟩ := h.attempts t _ txn start hcall
    have hagree : Agrees snap s.store :=
      hsnap.agrees_of_valid h.chain hw' (tryCommit_eq_some.1 hc).1
    refine .snoc (h.serial hw') ?_
    exact commit_of_replay (hsnap.replay s.store hagree) hc
  results := by
    intro u b
    rw [publish_commits, List.mem_append, ← h.results u b, List.mem_singleton]
    by_cases hut : u = t
    · subst hut
      rw [publish_self, hcall]
      simp [eq_comm]
    · rw [publish_of_ne s t a σ' start hut]
      simp [hut]
  once := by
    have hnot : t ∉ s.commits.map Sigma.fst := by
      rw [List.mem_map]
      rintro ⟨⟨u, b⟩, hmem, rfl⟩
      obtain ⟨seen, hseen⟩ := (h.results u b).2 hmem
      rw [hcall] at hseen
      exact absurd hseen (by simp)
    rw [publish_commits, List.map_append, List.map_cons, List.map_nil]
    exact h.once.append (List.nodup_singleton t) (List.disjoint_singleton.2 hnot)

theorem inv_step {t : Tid} (h : Inv progs σ₀ s) (hs : s.step progs t = some s') :
    Inv progs σ₀ s' := by
  have hmem := store_mem_history s
  cases Step.of_step hs with
  | begin hcall =>
      refine h.setCall (by simp [hcall]) (by simp) ?_
      rintro p txn start ⟨⟩
      exact ⟨_, Snapshot.begin s.history (progs t)⟩
  | read hcall =>
      obtain ⟨snap, hsnap⟩ := h.attempts t _ _ _ hcall
      refine h.setCall (by simp [hcall]) (by simp) ?_
      rintro p txn start ⟨⟩
      exact hsnap.read hmem
  | write hcall =>
      obtain ⟨snap, hsnap⟩ := h.attempts t _ _ _ hcall
      refine h.setCall (by simp [hcall]) (by simp) ?_
      rintro p txn start ⟨⟩
      exact hsnap.write hmem
  | retry hcall => exact h.setCall (by simp [hcall]) (by simp) (by simp)
  | fail hcall => exact h.setCall (by simp [hcall]) (by simp) (by simp)
  | conflict hcall _ => exact h.setCall (by simp [hcall]) (by simp) (by simp)
  | commit hcall hc => exact h.publish hcall hc

theorem inv_run {sched : List Tid} (hrun : run (Sys.step progs) (Sys.init σ₀) sched = some s) :
    Inv progs σ₀ s :=
  run_invariant (I := Inv progs σ₀) (fun _ _ _ h hs => inv_step h hs) (inv_init progs σ₀) hrun

/-- Only a successful `try_commit` changes the store. -/
theorem step_store {t : Tid} (hs : s.step progs t = some s') (hc : s'.commits = s.commits) :
    s'.store = s.store := by
  cases Step.of_step hs with
  | begin _ => rfl
  | read _ => rfl
  | write _ => rfl
  | retry _ => rfl
  | fail _ => rfl
  | conflict _ _ => rfl
  | commit _ _ =>
      rw [publish_commits] at hc
      exact absurd hc (by simp)

/-- **Serializability.** After any interleaving in which no version wraps, the store is the one left
    by running the committed transactions alone in commit order; the calls that have returned `Ok`
    are the committed ones, each once and with the value it returns there; and whatever step comes
    next, the store (values and versions) changes only if it is another successful commit. -/
theorem commit_serializable (progs : (t : Tid) → Stm Val (A t) (E t)) (σ₀ : Store Val)
    (sched : List Tid) (s : Sys Val A E)
    (hrun : run (Sys.step progs) (Sys.init σ₀) sched = some s) (hver : NoWrap s.history) :
    Serial progs σ₀ s.commits s.store ∧
      (∀ t a, (∃ seen, s.calls t = .returned (.ok a) seen) ↔ ⟨t, a⟩ ∈ s.commits) ∧
      (s.commits.map Sigma.fst).Nodup ∧
      (∀ t s', s.step progs t = some s' → s'.commits = s.commits → s'.store = s.store) := by
  have h := inv_run hrun
  exact ⟨h.serial hver, h.results, h.once, fun _ _ hs hc => step_store hs hc⟩

/-- Two concurrent increments of one cell. -/
def twoBumps : (t : Bool) → Stm (fun _ => ℕ) Unit Unit := fun _ => updateStm 0 (· + 1)

/-- The first increment reads before the second commits, fails validation and starts over. -/
def bumpsInConflict : List Bool :=
  [false, false, true, true, true, true, false, false, false, false, false, false]

theorem commit_serializable_twoBumps :
    ∃ s : Sys (fun _ => ℕ) (fun _ : Bool => Unit) (fun _ => Unit),
      run (Sys.step twoBumps) (Sys.init fun _ => ⟨0, 0⟩) bumpsInConflict = some s ∧
      NoWrap s.history ∧ s.commits.map Sigma.fst = [true, false] ∧ s.store 0 = ⟨2, 2⟩ ∧
      Serial twoBumps (fun _ => ⟨0, 0⟩) s.commits s.store := by
  have hsome : (run (Sys.step twoBumps) (Sys.init fun _ => ⟨0, 0⟩) bumpsInConflict).isSome := by
    decide
  have hrun := (Option.some_get hsome).symm
  have hver : NoWrap (Option.get _ hsome).history :=
    noWrap_of_length (inv_run hrun).chain (by rintro σ ⟨⟩ id; rfl)
      (show 3 ≤ 2 ^ 64 by decide)
  exact ⟨_, hrun, hver, rfl, rfl, (commit_serializable _ _ _ _ hrun hver).1⟩

end IdEffect.Stm
