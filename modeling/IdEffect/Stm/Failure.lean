import IdEffect.Stm.Serializable

set_option autoImplicit false

/-! # Failed transactions

`commit` returns `Err(e)` as soon as an attempt ends in `Outcome::Fail(e)`, without the version
checks that an attempt ending in `Outcome::Done` has to pass. An attempt that read one cell before
and another one after a commit by somebody else can therefore fail on a mixture that no committed
state ever was (`torn_read_fails`). It is the missing check that makes the difference: in a run in
which every failing attempt would have passed it, every failure is the failure of the program on a
committed state of its time (`fail_justified_of_valid`). -/

namespace IdEffect.Stm

open Versioned Transition

variable {Tid : Type} [DecidableEq Tid] {Val : ℕ → Type} {A E : Tid → Type}

/-- Every `Err(e)` returned so far is what the program alone does on a committed state between the
    start of the attempt and its return. -/
def Justified (progs : (t : Tid) → Stm Val (A t) (E t)) (s : Sys Val A E) : Prop :=
  ∀ t e seen, s.calls t = .returned (.error e) seen →
    ∃ σ ∈ seen, ((progs t).runOn σ Txn.new).1 = .fail e

/-- Failures are justified in every run from `σ₀`. -/
def FailuresJustified (progs : (t : Tid) → Stm Val (A t) (E t)) (σ₀ : Store Val) : Prop :=
  ∀ sched s, run (Sys.step progs) (Sys.init σ₀) sched = some s → Justified progs s

/-- If thread `t` is about to fail, its version checks hold. -/
def failsOnValid (s : Sys Val A E) (t : Tid) : Bool :=
  match s.calls t with
  | .running (.fail _) txn _ => txn.valid s.store
  | _ => true

/-! ## A torn read -/

/-- One transaction fails unless two cells are equal, the other sets both to 1. -/
def equalOrFail : (t : Bool) → Stm (fun _ => ℕ) Unit Unit
  | false => .read 0 fun x => .read 1 fun y => if x = y then .done () else .fail ()
  | true => .write 0 1 (.write 1 1 (.done ()))

/-- The second transaction commits between the two reads of the first. -/
theorem torn_read_fails : ¬ FailuresJustified equalOrFail (fun _ => ⟨0, 0⟩) := by
  intro h
  have hsome : (run (Sys.step equalOrFail) (Sys.init fun _ => ⟨0, 0⟩)
      [false, false, true, true, true, true, false, false]).isSome := by decide
  obtain ⟨σ, hσ, hfail⟩ := h _ _ (Option.some_get hsome).symm false () _ rfl
  -- the two committed states of the attempt's time: both cells 0, both cells 1
  rcases hσ with _ | ⟨_, _ | ⟨_, ⟨⟩⟩⟩
  · exact absurd hfail (by decide)
  · exact absurd hfail (by decide)

/-! ## Runs in which every failing attempt is valid -/

variable {progs : (t : Tid) → Stm Val (A t) (E t)} {σ₀ : Store Val} {s s' : Sys Val A E}

/-- What holds in runs whose failing attempts are valid: the invariant of concurrent commits, the
    attempts' start positions, and, as long as no version wraps, the justification of failures. -/
structure FailInv (progs : (t : Tid) → Stm Val (A t) (E t)) (σ₀ : Store Val) (s : Sys Val A E) :
    Prop where
  inv : Inv progs σ₀ s
  start_le : ∀ t p txn start, s.calls t = .running p txn start → start ≤ s.past.length
  justified : NoWrap s.history → Justified progs s

omit [DecidableEq Tid] in
theorem store_mem_drop {start : ℕ} (h : start ≤ s.past.length) :
    s.store ∈ s.history.drop start := by
  rw [Sys.history, List.drop_append_of_le_length h]
  simp

/-- A step of thread `t` that changes only its call. -/
theorem FailInv.setCall {t : Tid} {c : Call Val (A t) (E t)} (h : FailInv progs σ₀ s)
    (hinv : Inv progs σ₀ (s.setCall t c))
    (hrun : ∀ p txn start, c = .running p txn start → start ≤ s.past.length)
    (hret : NoWrap s.history → ∀ e seen, c = .returned (.error e) seen →
      ∃ σ ∈ seen, ((progs t).runOn σ Txn.new).1 = .fail e) :
    FailInv progs σ₀ (s.setCall t c) where
  inv := hinv
  start_le := by
    intro u p txn start hu
    by_cases hut : u = t
    · subst hut
      rw [setCall_self] at hu
      exact hrun p txn start hu
    · rw [setCall_of_ne s t c hut] at hu
      exact h.start_le u p txn start hu
  justified := by
    intro hw u e seen hu
    by_cases hut : u = t
    · subst hut
      rw [setCall_self] at hu
      exact hret hw e seen hu
    · rw [setCall_of_ne s t c hut] at hu
      exact h.justified hw u e seen hu

theorem FailInv.publish {t : Tid} {a : A t} {σ' : Store Val} {start : ℕ} (h : FailInv progs σ₀ s)
    (hinv : Inv progs σ₀ (s.publish t a σ' start)) : FailInv progs σ₀ (s.publish t a σ' start) where
  inv := hinv
  start_le := by
    intro u p txn start' hu
    have hle := h.start_le u p txn start' (calls_of_publish s t hu (by simp))
    have hlen : (s.publish t a σ' start).past.length = s.past.length + 1 := by
      simp [Sys.publish, Sys.history]
    omega
  justified := by
    intro hw u e seen hu
    rw [publish_history] at hw
    exact h.justified hw.of_append u e seen (calls_of_publish s t hu (by simp))

omit [DecidableEq Tid] in
/-- A valid attempt that stands at `fail e` fails alone on the current store. -/
theorem FailInv.fail_now {t : Tid} {e : E t} {txn : Txn Val} {start : ℕ} (h : FailInv progs σ₀ s)
    (hcall : s.calls t = .running (.fail e) txn start) (hv : txn.valid s.store = true)
    (hw : NoWrap s.history) : ((progs t).runOn s.store Txn.new).1 = .fail e := by
  obtain ⟨snap, hsnap⟩ := h.inv.attempts t _ txn start hcall
  rw [hsnap.replay s.store (hsnap.agrees_of_valid h.inv.chain hw hv)]
  rfl

theorem failInv_step {t : Tid} (h : FailInv progs σ₀ s) (hg : failsOnValid s t = true)
    (hs : s.step progs t = some s') : FailInv progs σ₀ s' := by
  have hinv := inv_step h.inv hs
  cases Step.of_step hs with
  | begin _ =>
      refine h.setCall hinv ?_ (by simp)
      rintro p txn start ⟨⟩
      exact Nat.le_refl _
  | read hcall =>
      refine h.setCall hinv ?_ (by simp)
      rintro p txn start ⟨⟩
      exact h.start_le t _ _ _ hcall
  | write hcall =>
      refine h.setCall hinv ?_ (by simp)
      rintro p txn start ⟨⟩
      exact h.start_le t _ _ _ hcall
  | retry _ => exact h.setCall hinv (by simp) (by simp)
  | conflict _ _ => exact h.setCall hinv (by simp) (by simp)
  | commit _ _ => exact h.publish hinv
  | @fail e txn start hcall =>
      refine h.setCall hinv (by simp) ?_
      rintro hw e' seen ⟨⟩
      have hv : txn.valid s.store = true := by simpa [failsOnValid, hcall] using hg
      exact ⟨s.store, store_mem_drop (h.start_le t _ txn start hcall), h.fail_now hcall hv hw⟩

/-- **Failures of valid attempts are real.** In every run in which each attempt that ends in `Fail`
    still has current versions at that moment, and in which no version wraps, every returned error
    is the outcome of the program alone on a committed state between the start of its attempt and
    its return. -/
theorem fail_justified_of_valid (progs : (t : Tid) → Stm Val (A t) (E t)) (σ₀ : Store Val)
    (sched : List Tid) (s : Sys Val A E)
    (hrun : run (Sys.step progs) (Sys.init σ₀) sched = some s)
    (hvalid : Along (Sys.step progs) (fun s t => failsOnValid s t = true) (Sys.init σ₀) sched)
    (hver : NoWrap s.history) : Justified progs s := by
  have hinit : FailInv progs σ₀ (Sys.init σ₀) := by
    refine ⟨inv_init progs σ₀, ?_, ?_⟩
    · simp [Sys.init]
    · simp [Justified, Sys.init]
  exact (run_invariant_along (I := FailInv progs σ₀)
    (fun _ _ _ h hg hs => failInv_step h hg hs) hinit hvalid hrun).justified hver

/-- The checking transaction alone, on two cells that do differ. -/
theorem fail_justified_of_valid_equalOrFail :
    ∃ s : Sys (fun _ => ℕ) (fun _ : Bool => Unit) (fun _ => Unit),
      run (Sys.step equalOrFail) (Sys.init fun id => ⟨id, 0⟩) [false, false, false, false] =
        some s ∧
      (∃ seen, s.calls false = .returned (.error ()) seen) ∧ Justified equalOrFail s := by
  have hsome : (run (Sys.step equalOrFail) (Sys.init fun id => ⟨id, 0⟩)
      [false, false, false, false]).isSome := by decide
  have hrun := (Option.some_get hsome).symm
  have hver : NoWrap (Option.get _ hsome).history :=
    noWrap_of_length (inv_run hrun).chain (by rintro σ ⟨⟩ id; rfl) (show 1 ≤ 2 ^ 64 by decide)
  exact ⟨_, hrun, ⟨_, rfl⟩, fail_justified_of_valid _ _ _ _ hrun (by decide) hver⟩

end IdEffect.Stm
