import Mathlib.Data.List.FinRange

set_option autoImplicit false

/-! # Sagas

A saga runs its forward steps in order. When one fails, it compensates the completed steps in
reverse order, up to the first compensation that fails: the loop over the compensations returns
early, and those that are left do not run. So everything that was completed is compensated exactly
when no compensation fails that has another one after it (`compensates_iff`).

An effect runs at most once in a run of a saga, so it is given by its outcome in an environment. -/

namespace IdEffect.Fsm

variable {A C Err R : Type}

inductive SagaError (Err : Type) where
  | forward (e : Err)
  | compensate (e : Err)
  deriving DecidableEq, Repr

structure SagaStep (A C Err R : Type) where
  forward : R → Except Err A
  compensate : Option (R → Except Err C)

structure Saga (A C Err R : Type) where
  steps : List (SagaStep A C Err R)

/-- An effect of a saga with `n` steps that was run. -/
inductive Ran (n : ℕ) where
  | forward (i : Fin n)
  | compensate (i : Fin n)
  deriving DecidableEq, Repr

namespace Saga

variable (saga : Saga A C Err R) (env : R)

/-- A place in the saga. -/
abbrev Index : Type := Fin saga.steps.length

/-- The loop of `compensate_indices`, over the reversed indices. Answers with the effects it ran. -/
def compensateLoop : List saga.Index → Except (SagaError Err) Unit × List (Ran saga.steps.length)
  | [] => (.ok (), [])
  | idx :: indices =>
      match (saga.steps.get idx).compensate with
      | none => compensateLoop indices
      | some comp =>
          match comp env with
          | .error e => (.error (.compensate e), [.compensate idx])
          | .ok _ =>
              let rest := compensateLoop indices
              (rest.1, .compensate idx :: rest.2)

def compensateIndices (indices : List saga.Index) :
    Except (SagaError Err) Unit × List (Ran saga.steps.length) :=
  saga.compensateLoop env indices.reverse

/-- The loop of `run`, with the steps completed so far and those still to run. -/
def runLoop : List saga.Index → List saga.Index →
    Except (SagaError Err) Unit × List (Ran saga.steps.length)
  | _, [] => (.ok (), [])
  | completed, idx :: indices =>
      match (saga.steps.get idx).forward env with
      | .ok _ =>
          let rest := runLoop (completed ++ [idx]) indices
          (rest.1, .forward idx :: rest.2)
      | .error err =>
          let compensated := saga.compensateIndices env completed
          (match compensated.1 with
            | .error e => .error e
            | .ok _ => .error (.forward err), .forward idx :: compensated.2)

def run : Except (SagaError Err) Unit × List (Ran saga.steps.length) :=
  saga.runLoop env [] (List.finRange saga.steps.length)

/-! ## What is asked of a run -/

def ForwardFails (i : saga.Index) : Prop := ∃ e, (saga.steps.get i).forward env = .error e

/-- The step `k` is the first to fail. -/
def FirstFails (k : saga.Index) : Prop :=
  saga.ForwardFails env k ∧ ∀ i < k, ¬ saga.ForwardFails env i

def hasCompensation (i : saga.Index) : Bool := (saga.steps.get i).compensate.isSome

/-- The steps before `k`, in their order. -/
def before (k : saga.Index) : List saga.Index := (List.finRange saga.steps.length).take k

/-- The effects of a run: the forwards up to the first that fails, and then the compensations of all
    the steps before it that have one, in reverse; without a failure, all forwards. -/
structure Compensates : Prop where
  failed : ∀ k, saga.FirstFails env k → (saga.run env).2
    = (saga.before k ++ [k]).map Ran.forward
      ++ ((saga.before k).reverse.filter saga.hasCompensation).map Ran.compensate
  succeeded : (∀ i, ¬ saga.ForwardFails env i) →
    (saga.run env).2 = (List.finRange saga.steps.length).map Ran.forward

def CompensationFails (i : saga.Index) : Prop :=
  ∃ comp e, (saga.steps.get i).compensate = some comp ∧ comp env = .error e

/-- If a step fails, a compensation before it that fails is the last one to run. -/
def OnlyLastFails : Prop :=
  ∀ k, saga.FirstFails env k → ∀ i < k, saga.CompensationFails env i →
    ∀ j < i, saga.hasCompensation j = false

/-! ## The loops -/

variable {saga env}

/-- Steps that succeed are run in turn, and what comes after them finds them completed. -/
theorem runLoop_append {done : List saga.Index} (hdone : ∀ i ∈ done, ¬ saga.ForwardFails env i)
    (completed indices : List saga.Index) :
    (saga.runLoop env completed (done ++ indices)).2
      = done.map Ran.forward ++ (saga.runLoop env (completed ++ done) indices).2 := by
  induction done generalizing completed with
  | nil => rw [List.nil_append, List.append_nil, List.map_nil, List.nil_append]
  | cons idx done ih =>
      have hok := hdone idx (List.mem_cons_self ..)
      rw [List.cons_append, runLoop]
      cases hforward : (saga.steps.get idx).forward env with
      | error e => exact absurd ⟨e, hforward⟩ hok
      | ok a =>
          simp only [ih (fun i hi => hdone i (List.mem_cons_of_mem _ hi)), List.append_assoc,
            List.map_cons, List.cons_append, List.nil_append]

theorem runLoop_fails {k : saga.Index} (hk : saga.ForwardFails env k)
    (completed indices : List saga.Index) :
    (saga.runLoop env completed (k :: indices)).2
      = .forward k :: (saga.compensateIndices env completed).2 := by
  obtain ⟨e, he⟩ := hk
  rw [runLoop, he]

/-- **The loop over the compensations** runs all of them exactly when none that fails has another
    one after it. -/
theorem compensateLoop_iff (indices : List saga.Index) :
    (saga.compensateLoop env indices).2
        = (indices.filter saga.hasCompensation).map Ran.compensate
      ↔ indices.Pairwise fun i j =>
          saga.CompensationFails env i → saga.hasCompensation j = false := by
  induction indices with
  | nil => exact ⟨fun _ => .nil, fun _ => rfl⟩
  | cons idx indices ih =>
      rw [compensateLoop, List.pairwise_cons]
      cases hcomp : (saga.steps.get idx).compensate with
      | none =>
          have hhas : saga.hasCompensation idx = false := by rw [hasCompensation, hcomp]; rfl
          have hfails : ¬ saga.CompensationFails env idx := by
            rintro ⟨comp, e, hsome, -⟩
            rw [hcomp] at hsome
            cases hsome
          rw [List.filter_cons_of_neg (by rw [hhas]; exact Bool.false_ne_true)]
          exact ih.trans (and_iff_right fun j _ hfail => absurd hfail hfails).symm
      | some comp =>
          have hhas : saga.hasCompensation idx = true := by rw [hasCompensation, hcomp]; rfl
          rw [List.filter_cons_of_pos hhas, List.map_cons]
          cases hrun : comp env with
          | ok c =>
              have hfails : ¬ saga.CompensationFails env idx := by
                rintro ⟨comp', e, hsome, he⟩
                rw [hcomp, Option.some.injEq] at hsome
                rw [← hsome, hrun] at he
                cases he
              simp only [hrun, List.cons.injEq, true_and, ih]
              exact (and_iff_right fun j _ hfail => absurd hfail hfails).symm
          | error e =>
              -- the loop ends here, so nothing must be left
              simp only [hrun, List.cons.injEq, true_and, List.nil_eq, List.map_eq_nil_iff,
                List.filter_eq_nil_iff, Bool.not_eq_true]
              constructor
              · intro hnone
                refine ⟨fun j hj _ => hnone j hj, ?_⟩
                exact List.pairwise_of_forall_mem_list fun i _ j hj _ => hnone j hj
              · exact fun h j hj => h.1 j hj ⟨comp, e, hcomp, hrun⟩

/-! ## Runs -/

theorem mem_before {k i : saga.Index} : i ∈ saga.before k ↔ i < k := by
  rw [before, List.mem_take_iff_getElem]
  constructor
  · rintro ⟨j, hj, rfl⟩
    rw [List.getElem_finRange]
    exact Fin.lt_def.mpr (Nat.lt_min.mp hj).1
  · intro hi
    refine ⟨i, Nat.lt_min.mpr ⟨Fin.lt_def.mp hi, ?_⟩, ?_⟩
    · rw [List.length_finRange]
      exact i.isLt
    · rw [List.getElem_finRange]
      rfl

/-- The indices are those before `k`, then `k`, and others. -/
theorem exists_finRange_eq (k : saga.Index) :
    ∃ later, List.finRange saga.steps.length = saga.before k ++ k :: later := by
  have hk : (k : ℕ) < (List.finRange saga.steps.length).length := by
    rw [List.length_finRange]
    exact k.isLt
  refine ⟨(List.finRange saga.steps.length).drop (k + 1), ?_⟩
  have hdrop := List.drop_eq_getElem_cons hk
  rw [List.getElem_finRange] at hdrop
  rw [before]
  exact (List.take_append_drop ..).symm.trans (congrArg _ hdrop)

theorem pairwise_iff_of_ascending {n : ℕ} {P : Fin n → Fin n → Prop} {l : List (Fin n)}
    (hl : l.Pairwise (· < ·)) : l.Pairwise P ↔ ∀ i ∈ l, ∀ j ∈ l, i < j → P i j := by
  induction l with
  | nil => exact ⟨fun _ i hi => absurd hi List.not_mem_nil, fun _ => .nil⟩
  | cons x l ih =>
      obtain ⟨hx, hl⟩ := List.pairwise_cons.mp hl
      rw [List.pairwise_cons, ih hl]
      constructor
      · rintro ⟨hfirst, hrest⟩ i hi j hj hij
        rcases List.mem_cons.mp hj with rfl | hjl
        · rcases List.mem_cons.mp hi with rfl | hil
          · exact absurd hij (lt_irrefl _)
          · exact absurd (hx i hil) hij.asymm
        · rcases List.mem_cons.mp hi with rfl | hil
          · exact hfirst j hjl
          · exact hrest i hil j hjl hij
      · intro h
        exact ⟨fun j hj => h x (List.mem_cons_self ..) j (List.mem_cons_of_mem _ hj) (hx j hj),
          fun i hi j hj => h i (List.mem_cons_of_mem _ hi) j (List.mem_cons_of_mem _ hj)⟩

/-- The steps that were completed are compensated in descending order. -/
theorem pairwise_reverse_before {k : saga.Index} {P : saga.Index → saga.Index → Prop} :
    (saga.before k).reverse.Pairwise P ↔ ∀ i < k, ∀ j < i, P i j := by
  have hsorted : (saga.before k).Pairwise (· < ·) :=
    (List.pairwise_lt_finRange _).sublist (List.take_sublist ..)
  rw [List.pairwise_reverse, pairwise_iff_of_ascending hsorted]
  simp only [mem_before]
  exact ⟨fun h i hi j hj => h j (hj.trans hi) i hi hj, fun h j _ i hi hj => h i hi j hj⟩

/-- A run up to the first failure. -/
theorem run_fails {k : saga.Index} (hk : saga.FirstFails env k) :
    (saga.run env).2 = (saga.before k ++ [k]).map Ran.forward
      ++ (saga.compensateIndices env (saga.before k)).2 := by
  obtain ⟨later, hrange⟩ := saga.exists_finRange_eq k
  rw [run, hrange, runLoop_append fun i hi => hk.2 i (mem_before.mp hi), List.nil_append,
    runLoop_fails hk.1, List.map_append, List.append_assoc]
  rfl

theorem run_succeeds (h : ∀ i, ¬ saga.ForwardFails env i) :
    (saga.run env).2 = (List.finRange saga.steps.length).map Ran.forward := by
  have hrun := @runLoop_append _ _ _ _ saga env (List.finRange saga.steps.length)
    (fun i _ => h i) [] []
  rw [List.append_nil] at hrun
  rw [run, hrun, runLoop, List.append_nil]

/-- **A failed saga** compensates everything it completed exactly when no compensation that fails
    has another one after it. -/
theorem compensates_iff (saga : Saga A C Err R) (env : R) :
    saga.Compensates env ↔ saga.OnlyLastFails env := by
  have hfails : ∀ k, saga.FirstFails env k →
      ((saga.run env).2 = (saga.before k ++ [k]).map Ran.forward
          ++ ((saga.before k).reverse.filter saga.hasCompensation).map Ran.compensate
        ↔ ∀ i < k, saga.CompensationFails env i → ∀ j < i, saga.hasCompensation j = false) := by
    intro k hk
    rw [run_fails hk, List.append_cancel_left_eq, compensateIndices, compensateLoop_iff,
      pairwise_reverse_before]
    exact forall₂_congr fun i _ =>
      ⟨fun h hfail j hj => h j hj hfail, fun h j hj hfail => h hfail j hj⟩
  constructor
  · exact fun h k hk => (hfails k hk).mp (h.failed k hk)
  · exact fun h => ⟨fun k hk => (hfails k hk).mpr (h k hk), run_succeeds⟩

end Saga

/-- The last step fails, and so does the compensation of the one before it. -/
def threeSteps : Saga Unit Unit String Unit where
  steps :=
    [⟨fun _ => .ok (), some fun _ => .ok ()⟩, ⟨fun _ => .ok (), some fun _ => .error "second"⟩,
      ⟨fun _ => .error "third", none⟩]

theorem threeSteps_firstFails : threeSteps.FirstFails () (2 : Fin 3) := by
  have hok : ∀ j : Fin 3, j < 2 → (threeSteps.steps.get j).forward () = .ok () := by
    intro j hj
    match j, hj with
    | 0, _ => rfl
    | 1, _ => rfl
  refine ⟨⟨"third", rfl⟩, fun i hi => ?_⟩
  rintro ⟨e, he⟩
  rw [hok i hi] at he
  cases he

/-- The compensation of the second step fails, and the first is never compensated. -/
theorem compensation_skipped :
    (threeSteps.run ()).2
        = [.forward (0 : Fin 3), .forward (1 : Fin 3), .forward (2 : Fin 3),
            .compensate (1 : Fin 3)]
      ∧ ¬ threeSteps.Compensates () := by
  have hrun : (threeSteps.run ()).2 = [.forward (0 : Fin 3), .forward (1 : Fin 3),
      .forward (2 : Fin 3), .compensate (1 : Fin 3)] := by decide +kernel
  refine ⟨hrun, fun h => ?_⟩
  have hall := h.failed _ threeSteps_firstFails
  rw [hrun] at hall
  exact absurd hall (by decide +kernel)

end IdEffect.Fsm
