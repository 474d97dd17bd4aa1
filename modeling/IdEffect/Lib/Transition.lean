import Mathlib.Data.List.Basic

set_option autoImplicit false

/-! # Labelled transition systems

An interleaving of concurrent calls is a list of labels, one per atomic step, run from a start state
by a partial step function. This module collects what every such system here shares: runs (`run`),
the condition that each step of a run was taken in an acceptable state (`Along`), and the induction
rules that turn a one-step argument into one about whole runs (`run_invariant`,
`run_invariant_along`, `run_iff_along`, `run_variant`). Nothing here knows which program is being
stepped. -/

namespace Transition

variable {S L : Type*}

/-- Take the steps of `ls` in order from `s`; `none` as soon as one of them is not enabled. -/
def run (step : S → L → Option S) : S → List L → Option S
  | s, [] => some s
  | s, l :: ls => (step s l).bind (fun s' => run step s' ls)

@[simp] theorem run_nil (step : S → L → Option S) (s : S) : run step s [] = some s := rfl

theorem run_cons (step : S → L → Option S) (s : S) (l : L) (ls : List L) :
    run step s (l :: ls) = (step s l).bind (fun s' => run step s' ls) := rfl

theorem run_cons_eq_some {step : S → L → Option S} {s s' : S} {l : L} {ls : List L} :
    run step s (l :: ls) = some s' ↔ ∃ m, step s l = some m ∧ run step m ls = some s' := by
  rw [run_cons, Option.bind_eq_some_iff]

/-- A run goes on where another one has ended. -/
theorem run_append {step : S → L → Option S} {s m : S} {ls ls' : List L}
    (h : run step s ls = some m) : run step s (ls ++ ls') = run step m ls' := by
  induction ls generalizing s with
  | nil =>
      obtain rfl := Option.some.inj h
      rfl
  | cons l ls ih =>
      obtain ⟨s', hstep, hrest⟩ := run_cons_eq_some.1 h
      rw [List.cons_append, run_cons, hstep, Option.bind_some, ih hrest]

/-- A run after the step `l` is a run. -/
theorem exists_run_cons {step : S → L → Option S} {P : S → Prop} {s m : S} {l : L}
    (h : step s l = some m) (hm : ∃ ls s', run step m ls = some s' ∧ P s') :
    ∃ ls s', run step s ls = some s' ∧ P s' := by
  obtain ⟨ls, s', hrun, hP⟩ := hm
  exact ⟨l :: ls, s', run_cons_eq_some.2 ⟨m, h, hrun⟩, hP⟩

/-- Evaluate an observation of the last state of a concrete run. -/
theorem exists_run {B : Type*} {step : S → L → Option S} {s : S} {ls : List L} (f : S → B) {b : B}
    (h : (run step s ls).map f = some b) : ∃ s', run step s ls = some s' ∧ f s' = b :=
  Option.map_eq_some_iff.1 h

/-- Steps that are always enabled can be taken in any number. -/
theorem exists_run_of_total {step : S → L → Option S} (h : ∀ s l, ∃ s', step s l = some s') (s : S)
    (ls : List L) : ∃ s', run step s ls = some s' := by
  induction ls generalizing s with
  | nil => exact ⟨s, rfl⟩
  | cons l ls ih =>
      obtain ⟨m, hm⟩ := h s l
      obtain ⟨s', hs'⟩ := ih m
      exact ⟨s', run_cons_eq_some.2 ⟨m, hm, hs'⟩⟩

/-- Every step of the run meets `guard` in the state it is taken in. -/
def Along (step : S → L → Option S) (guard : S → L → Prop) : S → List L → Prop
  | _, [] => True
  | s, l :: ls => guard s l ∧ ∀ s', step s l = some s' → Along step guard s' ls

theorem along_cons_iff {step : S → L → Option S} {guard : S → L → Prop} {s s' : S} {l : L}
    {ls : List L} (hstep : step s l = some s') :
    Along step guard s (l :: ls) ↔ guard s l ∧ Along step guard s' ls := by
  refine and_congr_right fun _ => ⟨fun h => h s' hstep, fun h m hm => ?_⟩
  rw [hstep, Option.some.injEq] at hm
  exact hm ▸ h

/-- Check the guard of the first step, take it, and go on. -/
theorem along_cons {step : S → L → Option S} {guard : S → L → Prop} {s s' : S} {l : L} {ls : List L}
    (hstep : step s l = some s') (hg : guard s l) (h : Along step guard s' ls) :
    Along step guard s (l :: ls) :=
  (along_cons_iff hstep).2 ⟨hg, h⟩

theorem Along.imp {step : S → L → Option S} {guard guard' : S → L → Prop}
    (himp : ∀ s l, guard s l → guard' s l) {s : S} {ls : List L} (h : Along step guard s ls) :
    Along step guard' s ls := by
  induction ls generalizing s with
  | nil => trivial
  | cons l ls ih => exact ⟨himp s l h.1, fun m hm => ih (h.2 m hm)⟩

theorem Along.and {step : S → L → Option S} {guard guard' : S → L → Prop} {s : S} {ls : List L}
    (h : Along step guard s ls) (h' : Along step guard' s ls) :
    Along step (fun s l => guard s l ∧ guard' s l) s ls := by
  induction ls generalizing s with
  | nil => trivial
  | cons l ls ih => exact ⟨⟨h.1, h'.1⟩, fun m hm => ih (h.2 m hm) (h'.2 m hm)⟩

instance decidableAlong (step : S → L → Option S) (guard : S → L → Prop)
    [∀ s l, Decidable (guard s l)] : ∀ (s : S) (ls : List L), Decidable (Along step guard s ls)
  | _, [] => .isTrue trivial
  | s, l :: ls =>
      match h : step s l with
      | none => decidable_of_iff (guard s l) (by simp [Along, h])
      | some s' =>
          have := decidableAlong step guard s' ls
          decidable_of_iff (guard s l ∧ Along step guard s' ls) (by simp [Along, h])

/-- `P` holds in every state the run comes to, the first and the last among them. -/
def Throughout (step : S → L → Option S) (P : S → Prop) : S → List L → Prop
  | s, [] => P s
  | s, l :: ls => P s ∧ ∀ s', step s l = some s' → Throughout step P s' ls

theorem throughout_cons_iff {step : S → L → Option S} {P : S → Prop} {s s' : S} {l : L}
    {ls : List L} (hstep : step s l = some s') :
    Throughout step P s (l :: ls) ↔ P s ∧ Throughout step P s' ls := by
  refine and_congr_right fun _ => ⟨fun h => h s' hstep, fun h m hm => ?_⟩
  rw [hstep, Option.some.injEq] at hm
  exact hm ▸ h

theorem Throughout.head {step : S → L → Option S} {P : S → Prop} {s : S} {ls : List L}
    (h : Throughout step P s ls) : P s := by
  cases ls with
  | nil => exact h
  | cons l ls => exact h.1

theorem Throughout.last {step : S → L → Option S} {P : S → Prop} {s s' : S} {ls : List L}
    (h : Throughout step P s ls) (hrun : run step s ls = some s') : P s' := by
  induction ls generalizing s with
  | nil =>
      rw [run_nil, Option.some.injEq] at hrun
      exact hrun ▸ h
  | cons l ls ih =>
      obtain ⟨m, hm, hrest⟩ := run_cons_eq_some.1 hrun
      exact ih (h.2 m hm) hrest

theorem Throughout.imp {step : S → L → Option S} {P Q : S → Prop} (hPQ : ∀ s, P s → Q s) {s : S}
    {ls : List L} (h : Throughout step P s ls) : Throughout step Q s ls := by
  induction ls generalizing s with
  | nil => exact hPQ s h
  | cons l ls ih => exact ⟨hPQ s h.1, fun m hm => ih (h.2 m hm)⟩

/-- **Invariant rule.** What every step preserves, every run preserves. -/
theorem run_invariant {step : S → L → Option S} {I : S → Prop}
    (hstep : ∀ s l s', I s → step s l = some s' → I s') :
    ∀ {ls : List L} {s s' : S}, I s → run step s ls = some s' → I s' := by
  intro ls
  induction ls with
  | nil =>
      intro s s' hs h
      rw [run_nil, Option.some.injEq] at h
      exact h ▸ hs
  | cons l ls ih =>
      intro s s' hs h
      obtain ⟨m, hm, hrest⟩ := run_cons_eq_some.1 h
      exact ih (hstep s l m hs hm) hrest

/-- **Guarded invariant rule.** What every step taken in an acceptable state preserves, every run of
    acceptable steps preserves. -/
theorem run_invariant_along {step : S → L → Option S} {guard : S → L → Prop} {I : S → Prop}
    (hstep : ∀ s l s', I s → guard s l → step s l = some s' → I s') :
    ∀ {ls : List L} {s s' : S}, I s → Along step guard s ls → run step s ls = some s' → I s' := by
  intro ls
  induction ls with
  | nil =>
      intro s s' hs _ h
      rw [run_nil, Option.some.injEq] at h
      exact h ▸ hs
  | cons l ls ih =>
      intro s s' hs hg h
      obtain ⟨m, hm, hrest⟩ := run_cons_eq_some.1 h
      exact ih (hstep s l m hs hg.1 hm) (hg.2 m hm) hrest

/-- **Blame rule.** If a step keeps `J` exactly when it meets `guard`, a run keeps `J` exactly when
    all its steps do. The steps considered are those that meet `side`. -/
theorem run_iff_along {step : S → L → Option S} {guard side : S → L → Prop} {I J : S → Prop}
    (hinv : ∀ s l s', I s → side s l → step s l = some s' → I s')
    (hstep : ∀ s l s', I s → side s l → step s l = some s' → (J s' ↔ J s ∧ guard s l)) :
    ∀ {ls : List L} {s s' : S}, I s → Along step side s ls → run step s ls = some s' →
      (J s' ↔ J s ∧ Along step guard s ls) := by
  intro ls
  induction ls with
  | nil =>
      intro s s' _ _ h
      rw [run_nil, Option.some.injEq] at h
      simp [h, Along]
  | cons l ls ih =>
      intro s s' hs hside h
      obtain ⟨m, hm, hrest⟩ := run_cons_eq_some.1 h
      rw [ih (hinv s l m hs hside.1 hm) (hside.2 m hm) hrest, hstep s l m hs hside.1 hm, Along,
        and_assoc]
      simp [hm]

/-- **Blame rule, for every state on the way.** If a step out of a state with `P` comes to one with
    `P` exactly when it meets `guard`, a run that starts with `P` has it all along exactly when all
    its steps meet `guard`. What is lost may come back later: it is the first loss that counts. -/
theorem throughout_iff_along {step : S → L → Option S} {guard : S → L → Prop} {I P : S → Prop}
    (hinv : ∀ s l s', I s → P s → P s' → step s l = some s' → I s')
    (hstep : ∀ s l s', I s → P s → step s l = some s' → (P s' ↔ guard s l)) :
    ∀ {ls : List L} {s s' : S}, I s → P s → run step s ls = some s' →
      (Throughout step P s ls ↔ Along step guard s ls) := by
  intro ls
  induction ls with
  | nil => exact fun _ hP _ => iff_of_true hP trivial
  | cons l ls ih =>
      intro s s' hI hP hrun
      obtain ⟨m, hm, hrest⟩ := run_cons_eq_some.1 hrun
      have hguard := hstep s l m hI hP hm
      rw [throughout_cons_iff hm, along_cons_iff hm, and_iff_right hP]
      refine ⟨fun h => ?_, fun h => ?_⟩
      · exact ⟨hguard.1 h.head, (ih (hinv s l m hI hP h.head hm) h.head hrest).1 h⟩
      · have hPm := hguard.2 h.1
        exact (ih (hinv s l m hI hP hPm hm) hPm hrest).2 h.2

/-- What an observer, who makes `f` of every step, has seen after a run. -/
def seen {B : Type*} (step : S → L → Option S) (f : S → L → List B) : S → List L → List B
  | _, [] => []
  | s, l :: ls =>
      match step s l with
      | none => f s l
      | some s' => f s l ++ seen step f s' ls

theorem seen_cons {B : Type*} {step : S → L → Option S} {f : S → L → List B} {s s' : S} {l : L}
    (hstep : step s l = some s') (ls : List L) :
    seen step f s (l :: ls) = f s l ++ seen step f s' ls := by
  rw [seen, hstep]

/-- **Observer rule.** An invariant of the states and of what has been seen so far. -/
theorem run_seen {B : Type*} {step : S → L → Option S} {f : S → L → List B}
    {I : S → List B → Prop}
    (hstep : ∀ s l s' log, I s log → step s l = some s' → I s' (log ++ f s l)) :
    ∀ {ls : List L} {s s' : S} {log : List B}, I s log → run step s ls = some s' →
      I s' (log ++ seen step f s ls) := by
  intro ls
  induction ls with
  | nil =>
      intro s s' log hs h
      rw [run_nil, Option.some.injEq] at h
      rw [seen, List.append_nil]
      exact h ▸ hs
  | cons l ls ih =>
      intro s s' log hs h
      obtain ⟨m, hm, hrest⟩ := run_cons_eq_some.1 h
      rw [seen_cons hm, ← List.append_assoc]
      exact ih (hstep s l m log hs hm) hrest

/-- **Variant rule.** If no step makes `μ` grow and the steps that count make it smaller until `P`
    holds, `P` holds at the latest after `μ` steps that count. -/
theorem run_variant {step : S → L → Option S} {guard : S → L → Prop} {I P : S → Prop} {μ : S → ℕ}
    {c : L → Bool} (hinv : ∀ s l s', I s → guard s l → step s l = some s' → I s')
    (hP : ∀ s l s', I s → P s → step s l = some s' → P s')
    (hμ : ∀ s l s', I s → guard s l → ¬ P s → step s l = some s' →
      P s' ∨ μ s' + (if c l then 1 else 0) ≤ μ s) :
    ∀ {ls : List L} {s s' : S}, I s → Along step guard s ls → run step s ls = some s' →
      P s' ∨ μ s' + ls.countP c ≤ μ s := by
  intro ls
  induction ls with
  | nil =>
      intro s s' _ _ h
      rw [run_nil, Option.some.injEq] at h
      subst h
      exact Or.inr (Nat.le_refl _)
  | cons l ls ih =>
      intro s s' hs hg h
      obtain ⟨m, hm, hrest⟩ := run_cons_eq_some.1 h
      have hI : I m := hinv s l m hs hg.1 hm
      have hP' : P m → P s' := fun hPm =>
        (run_invariant_along (I := fun s => I s ∧ P s)
          (fun a k b ha hk hb => ⟨hinv a k b ha.1 hk hb, hP a k b ha.1 ha.2 hb⟩)
          ⟨hI, hPm⟩ (hg.2 m hm) hrest).2
      by_cases hPs : P s
      · exact Or.inl (hP' (hP s l m hs hPs hm))
      · rcases hμ s l m hs hg.1 hPs hm with hPm | hlt
        · exact Or.inl (hP' hPm)
        · refine (ih hI (hg.2 m hm) hrest).imp_right fun hle => ?_
          rw [List.countP_cons]
          omega

/-- A condition on the labels only. -/
theorem along_of_forall {step : S → L → Option S} {guard : S → L → Prop} {ls : List L}
    (h : ∀ l ∈ ls, ∀ s, guard s l) (s : S) : Along step guard s ls := by
  induction ls generalizing s with
  | nil => trivial
  | cons l ls ih =>
      obtain ⟨hl, hls⟩ := List.forall_mem_cons.1 h
      exact ⟨hl s, fun s' _ => ih hls s'⟩

/-- No condition at all. -/
theorem along_true (step : S → L → Option S) (s : S) (ls : List L) :
    Along step (fun _ _ => True) s ls :=
  along_of_forall (fun _ _ _ => trivial) s

end Transition
