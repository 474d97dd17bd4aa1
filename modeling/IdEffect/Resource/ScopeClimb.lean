import IdEffect.Lib.Forest
import IdEffect.Resource.ScopeTree

set_option autoImplicit false

/-! # Climbing to the root of a scope

`is_closed` climbs from a scope to its parent until it finds a closed scope or a root. `make` and
`fork` put new scopes at the bottom, and a scope that is dropped cuts links. But `extend` only asks
whether both scopes are open: when it puts a scope under itself, or under one of those below it, the
links make a cycle, from which no climb ends. So climbs end in exactly the runs without such an
`extend` (`climbs_end_iff`). -/

namespace IdEffect.Scope

open Versioned Transition Forest

variable {Tid : Type} [DecidableEq Tid] {s s' : Sys Tid} {l : Label Tid}

/-! ## The promise -/

/-- The parent of a scope, if its weak reference can be upgraded. -/
def Sys.up (s : Sys Tid) (sc : ℕ) : Option ℕ := (s.parent sc).filter s.alive

/-- The call is one of `extend` or of `add_finalizer`. -/
def Call.registers : Call Tid → Bool
  | .walk _ (.extendSelf _ _) | .climb _ (.extendSelf _ _) => true
  | .walk _ (.extendOther _ _) | .climb _ (.extendOther _ _) => true
  | .walk _ (.addFinalizer _) | .climb _ (.addFinalizer _) => true
  | .extendParent _ _ | .extendPush _ _ | .extendDone _ _ _ => true
  | .adding _ | .added _ _ | .addDone _ _ => true
  | _ => false

/-- `extend` or `add_finalizer` has returned. -/
def Call.registered : Call Tid → Bool
  | .extendDone _ _ _ | .addDone _ _ => true
  | _ => false

/-- The call takes `n` steps. -/
def Sys.stepsOf (s : Sys Tid) (t : Tid) (n : ℕ) : Option (Sys Tid) :=
  run Sys.step s (List.replicate n (.step t))

/-- `extend` or `add_finalizer` returns by steps of its own. -/
def Returns (s : Sys Tid) (t : Tid) : Prop :=
  ∃ n s', s.stepsOf t n = some s' ∧ (s'.calls t).registered = true

/-- Following the parents from any scope comes to a root; `is_closed` answers whoever asks, and
    `extend` and `add_finalizer` return, after finitely many steps of their own. -/
structure ClimbsEnd (s : Sys Tid) : Prop where
  rooted : IsForest s.up
  answers : ∀ t cur k, s.calls t = .walk cur k ∨ s.calls t = .climb cur k →
    ∃ n s' b, s.stepsOf t n = some s' ∧ s'.calls t = k.answer b
  returns : ∀ t, (s.calls t).registers = true → Returns s t

/-- No `extend` puts a scope under one below it, or under itself. -/
def KeepsForest (s : Sys Tid) : Label Tid → Prop
  | .step t =>
      match s.calls t with
      | .extendParent self other => s.alive self = true → ¬ Reaches s.up self other
      | _ => True
  | _ => True

/-! ## Climbs -/

omit [DecidableEq Tid] in
theorem up_eq_some {sc p : ℕ} : s.up sc = some p ↔ s.parent sc = some p ∧ s.alive p = true := by
  simp [Sys.up, Option.filter_eq_some_iff]

@[simp] theorem setCall_setCall (t : Tid) (c c' : Call Tid) :
    (s.setCall t c).setCall t c' = s.setCall t c' := by
  simp [Sys.setCall]

theorem setCall_self {t : Tid} {c : Call Tid} (h : s.calls t = c) : s.setCall t c = s := by
  rw [Sys.setCall, ← h, Function.update_eq_self]

/-- A round of `is_closed` looks at the flag of `cur`. -/
theorem stepCall_walk (t : Tid) (cur : ℕ) (k : Check) :
    (s.setCall t (.walk cur k)).stepCall t =
      some (s.setCall t (if s.closed cur then k.answer true else .climb cur k)) := by
  unfold Sys.stepCall
  simp only [setCall_calls, if_true, setCall_setCall, apply_ite some, apply_ite (s.setCall t)]
  rfl

theorem stepCall_climb {t : Tid} {cur p : ℕ} {k : Check} (h : s.up cur = some p) :
    (s.setCall t (.climb cur k)).stepCall t = some (s.setCall t (.walk p k)) := by
  obtain ⟨hp, ha⟩ := up_eq_some.1 h
  have hp : (s.setCall t (.climb cur k)).parent cur = some p := hp
  have ha : (s.setCall t (.climb cur k)).alive p = true := ha
  simp [Sys.stepCall, hp, ha]

theorem stepCall_climb_root {t : Tid} {cur : ℕ} {k : Check} (h : s.up cur = none) :
    (s.setCall t (.climb cur k)).stepCall t = some (s.setCall t (k.answer false)) := by
  have hup : (s.setCall t (.climb cur k)).up cur = none := h
  unfold Sys.stepCall
  simp only [setCall_calls, if_true, setCall_setCall]
  split
  · next p hp =>
      split
      · next ha => exact absurd (up_eq_some.2 ⟨hp, ha⟩) (by simp [hup])
      · rfl
  · rfl

/-- A step of the call, and then some more. -/
theorem stepsOf_succ {t : Tid} {n : ℕ} (h : s.stepCall t = some s') :
    s.stepsOf t (n + 1) = s'.stepsOf t n := by
  rw [Sys.stepsOf, List.replicate_succ, run_cons]
  exact congrArg (Option.bind · _) h

/-- The round at `cur` is over, or the rounds above it are. -/
theorem walk_of_climb {t : Tid} {cur : ℕ} {k : Check}
    (h : ∃ n b, (s.setCall t (.climb cur k)).stepsOf t n = some (s.setCall t (k.answer b))) :
    ∃ n b, (s.setCall t (.walk cur k)).stepsOf t n = some (s.setCall t (k.answer b)) := by
  cases hcl : s.closed cur with
  | true => exact ⟨1, true, stepsOf_succ (by rw [stepCall_walk, hcl, if_pos rfl])⟩
  | false =>
      obtain ⟨n, b, hclimb⟩ := h
      refine ⟨n + 1, b, (stepsOf_succ ?_).trans hclimb⟩
      rw [stepCall_walk, hcl]
      simp

/-- Where the links come to a root, the climb comes to an answer. -/
theorem climb_answers {t : Tid} {cur : ℕ} {k : Check} (h : Rooted s.up cur) :
    ∃ n b, (s.setCall t (.climb cur k)).stepsOf t n = some (s.setCall t (k.answer b)) := by
  refine h.climb (P := fun cur => ∃ n b, (s.setCall t (.climb cur k)).stepsOf t n =
    some (s.setCall t (k.answer b))) (fun cur hroot => ?_) fun cur p hup hp => ?_
  · exact ⟨1, false, stepsOf_succ (stepCall_climb_root hroot)⟩
  · obtain ⟨n, b, hwalk⟩ := walk_of_climb hp
    exact ⟨n + 1, b, (stepsOf_succ (stepCall_climb hup)).trans hwalk⟩

theorem answers_of_forest (h : IsForest s.up) {t : Tid} {cur : ℕ} {k : Check}
    (hc : s.calls t = .walk cur k ∨ s.calls t = .climb cur k) :
    ∃ n b, s.stepsOf t n = some (s.setCall t (k.answer b)) := by
  have hclimb := climb_answers (t := t) (k := k) (h cur)
  rcases hc with hc | hc
  · obtain ⟨n, b, hn⟩ := walk_of_climb hclimb
    exact ⟨n, b, by rwa [setCall_self hc] at hn⟩
  · obtain ⟨n, b, hn⟩ := hclimb
    exact ⟨n, b, by rwa [setCall_self hc] at hn⟩

/-- From a scope that is its own parent, the climb does not get away. -/
theorem climb_forever {t : Tid} {sc : ℕ} {k : Check} (hup : s.up sc = some sc)
    (hcl : s.closed sc = false) (n : ℕ) :
    ∃ c, (c = .walk sc k ∨ c = .climb sc k) ∧
      (s.setCall t (.walk sc k)).stepsOf t n = some (s.setCall t c) := by
  have hboth : ∀ c, c = .walk sc k ∨ c = .climb sc k → ∃ c', (c' = .walk sc k ∨ c' = .climb sc k) ∧
      (s.setCall t c).stepsOf t n = some (s.setCall t c') := by
    induction n with
    | zero => exact fun c hc => ⟨c, hc, rfl⟩
    | succ n ih =>
        rintro c (rfl | rfl)
        · obtain ⟨c', hc', hn⟩ := ih (.climb sc k) (.inr rfl)
          refine ⟨c', hc', (stepsOf_succ ?_).trans hn⟩
          rw [stepCall_walk, hcl]
          simp
        · obtain ⟨c', hc', hn⟩ := ih (.walk sc k) (.inl rfl)
          exact ⟨c', hc', (stepsOf_succ (stepCall_climb hup)).trans hn⟩
  exact hboth _ (.inl rfl)

/-! ## Calls that return -/

theorem Returns.here {t : Tid} (h : (s.calls t).registered = true) : Returns s t := ⟨0, s, rfl, h⟩

theorem Returns.of_step {t : Tid} (h : s.stepCall t = some s') (hr : Returns s' t) :
    Returns s t := by
  obtain ⟨n, m, hrun, hm⟩ := hr
  exact ⟨n + 1, m, (stepsOf_succ h).trans hrun, hm⟩

theorem Returns.of_steps {t : Tid} {n : ℕ} (h : s.stepsOf t n = some s') (hr : Returns s' t) :
    Returns s t := by
  induction n generalizing s with
  | zero => exact Option.some.inj h ▸ hr
  | succ n ih =>
      obtain ⟨m, hstep, hrun⟩ := run_cons_eq_some.1 h
      exact (ih hrun).of_step hstep

/-- On a scope that is its own parent nothing is registered. -/
theorem not_returns_of_own_parent {t : Tid} {sc : ℕ}
    (hc : s.calls t = .walk sc (.addFinalizer sc)) (hup : s.up sc = some sc)
    (hcl : s.closed sc = false) : ¬ Returns s t := by
  rintro ⟨n, s', hn, hreg⟩
  obtain ⟨c, hcall, hn'⟩ := climb_forever (t := t) (k := .addFinalizer sc) hup hcl n
  rw [setCall_self hc, hn, Option.some.injEq] at hn'
  rw [hn', setCall_calls, if_pos rfl] at hreg
  rcases hcall with rfl | rfl <;> cases hreg

theorem returns_addDone (t : Tid) (sc : ℕ) (ok : Bool) : Returns (s.setCall t (.addDone sc ok)) t :=
  .here (by rw [setCall_calls, if_pos rfl]; rfl)

theorem returns_extendDone (t : Tid) (self other : ℕ) (ok : Bool) :
    Returns (s.setCall t (.extendDone self other ok)) t :=
  .here (by rw [setCall_calls, if_pos rfl]; rfl)

theorem stepCall_added (t : Tid) (sc : ℕ) {txn : Txn (Bucket Tid)} {σ : Store (Bucket Tid)}
    (h : tryCommit txn s.buckets = some σ) :
    (s.setCall t (.added sc txn)).stepCall t =
      some ({ s with buckets := σ }.setCall t (.addDone sc true)) := by
  have hσ : tryCommit txn (s.setCall t (.added sc txn)).buckets = some σ := h
  simp only [Sys.stepCall, setCall_calls, if_true, hσ]
  simp [Sys.setCall]

/-- The transaction commits if nobody writes the bucket in between. -/
theorem returns_adding (t : Tid) (sc : ℕ) : Returns (s.setCall t (.adding sc)) t := by
  have hcommit : tryCommit ((addFinalizerStm sc t).runOn s.buckets Txn.new).2 s.buckets ≠ none := by
    rw [tryCommit_add, if_pos rfl]
    simp
  obtain ⟨σ, hσ⟩ := Option.ne_none_iff_exists'.1 hcommit
  have hattempt : (s.setCall t (.adding sc)).stepCall t =
      some (s.setCall t (.added sc ((addFinalizerStm sc t).runOn s.buckets Txn.new).2)) := by
    simp only [Sys.stepCall, setCall_calls, if_true, setCall_setCall]
    rfl
  have hdone : (s.setCall t (.added sc
      ((addFinalizerStm sc t).runOn s.buckets Txn.new).2)).stepCall t =
      some ({ s with buckets := σ }.setCall t (.addDone sc true)) := stepCall_added t sc hσ
  exact .of_step hattempt (.of_step hdone (returns_addDone t sc true))

/-- An attempt from before the call was left alone may have to be made again. -/
theorem returns_added (t : Tid) (sc : ℕ) (txn : Txn (Bucket Tid)) :
    Returns (s.setCall t (.added sc txn)) t := by
  cases hσ : tryCommit txn s.buckets with
  | some σ => exact .of_step (stepCall_added t sc hσ) (returns_addDone t sc true)
  | none =>
      have hσ : tryCommit txn (s.setCall t (.added sc txn)).buckets = none := hσ
      have hagain : (s.setCall t (.added sc txn)).stepCall t = some (s.setCall t (.adding sc)) := by
        simp only [Sys.stepCall, setCall_calls, if_true, hσ, setCall_setCall]
      exact .of_step hagain (returns_adding t sc)

theorem returns_extendPush (t : Tid) (self other : ℕ) :
    Returns (s.setCall t (.extendPush self other)) t := by
  have hpush : (s.setCall t (.extendPush self other)).stepCall t =
      some ((s.attach self other).setCall t (.extendDone self other true)) := by
    simp only [Sys.stepCall, setCall_calls, if_true]
    simp [Sys.setCall, Sys.attach, Sys.pushChild]
  exact .of_step hpush (returns_extendDone t self other true)

theorem returns_extendParent (t : Tid) (self other : ℕ) :
    Returns (s.setCall t (.extendParent self other)) t := by
  have hparent : (s.setCall t (.extendParent self other)).stepCall t =
      some ((s.setParent other self).setCall t (.extendPush self other)) := by
    simp only [Sys.stepCall, setCall_calls, if_true]
    simp [Sys.setCall, Sys.setParent]
  exact .of_step hparent (returns_extendPush t self other)

/-- The climb of the second scope has its answer. -/
theorem returns_extendOther (h : IsForest s.up) {t : Tid} {cur self other : ℕ}
    (hc : s.calls t = .walk cur (.extendOther self other) ∨
      s.calls t = .climb cur (.extendOther self other)) : Returns s t := by
  obtain ⟨n, b, hn⟩ := answers_of_forest h hc
  cases b with
  | true => exact .of_steps hn (returns_extendDone t self other false)
  | false => exact .of_steps hn (returns_extendParent t self other)

theorem returns_extendSelf (h : IsForest s.up) {t : Tid} {cur self other : ℕ}
    (hc : s.calls t = .walk cur (.extendSelf self other) ∨
      s.calls t = .climb cur (.extendSelf self other)) : Returns s t := by
  obtain ⟨n, b, hn⟩ := answers_of_forest h hc
  cases b with
  | true => exact .of_steps hn (returns_extendDone t self other false)
  | false =>
      have hother : (s.setCall t (.walk other (.extendOther self other))).calls t =
          .walk other (.extendOther self other) := by rw [setCall_calls, if_pos rfl]
      have hreturns : Returns (s.setCall t (.walk other (.extendOther self other))) t :=
        returns_extendOther (s := s.setCall t _) h (.inl hother)
      exact .of_steps hn hreturns

theorem returns_addFinalizer (h : IsForest s.up) {t : Tid} {cur sc : ℕ}
    (hc : s.calls t = .walk cur (.addFinalizer sc) ∨ s.calls t = .climb cur (.addFinalizer sc)) :
    Returns s t := by
  obtain ⟨n, b, hn⟩ := answers_of_forest h hc
  cases b with
  | true => exact .of_steps hn (returns_addDone t sc false)
  | false => exact .of_steps hn (returns_adding t sc)

theorem returns_of_forest (h : IsForest s.up) {t : Tid} (hr : (s.calls t).registers = true) :
    Returns s t := by
  cases hc : s.calls t with
  | walk cur k =>
      cases k with
      | fork p c => simp [hc, Call.registers] at hr
      | extendSelf self other => exact returns_extendSelf h (.inl hc)
      | extendOther self other => exact returns_extendOther h (.inl hc)
      | addFinalizer sc => exact returns_addFinalizer h (.inl hc)
  | climb cur k =>
      cases k with
      | fork p c => simp [hc, Call.registers] at hr
      | extendSelf self other => exact returns_extendSelf h (.inr hc)
      | extendOther self other => exact returns_extendOther h (.inr hc)
      | addFinalizer sc => exact returns_addFinalizer h (.inr hc)
  | extendParent self other => exact setCall_self hc ▸ returns_extendParent t self other
  | extendPush self other => exact setCall_self hc ▸ returns_extendPush t self other
  | extendDone self other ok => exact setCall_self hc ▸ returns_extendDone t self other ok
  | adding sc => exact setCall_self hc ▸ returns_adding t sc
  | added sc txn => exact setCall_self hc ▸ returns_added t sc txn
  | addDone sc ok => exact setCall_self hc ▸ returns_addDone t sc ok
  | _ => simp [hc, Call.registers] at hr

/-- All that is asked comes down to the forest. -/
theorem climbsEnd_iff : ClimbsEnd s ↔ IsForest s.up := by
  refine ⟨ClimbsEnd.rooted, fun h => ⟨h, fun t cur k hc => ?_, fun t hr => returns_of_forest h hr⟩⟩
  obtain ⟨n, b, hn⟩ := answers_of_forest h hc
  exact ⟨n, _, b, hn, by rw [setCall_calls, if_pos rfl]⟩

/-! ## What a step does to the links -/

/-- The scope an `extend` puts another one under. -/
def Call.extendSelf : Call Tid → Option ℕ
  | .extendParent p _ | .extendPush p _ => some p
  | .walk _ (.extendSelf p _) | .climb _ (.extendSelf p _) => some p
  | .walk _ (.extendOther p _) | .climb _ (.extendOther p _) => some p
  | _ => none

omit [DecidableEq Tid] in
theorem Check.answer_extendSelf {k : Check} {b : Bool} {p : ℕ} (cur : ℕ)
    (h : (k.answer b : Call Tid).extendSelf = some p) :
    (Call.walk cur k : Call Tid).extendSelf = some p := by
  cases k <;> cases b <;> first | exact h | cases h

/-- Scopes are only put under those that have been made. -/
structure Made (s : Sys Tid) : Prop where
  forks : Forks s
  parent : ∀ c p, s.parent c = some p → p < s.next
  extended : ∀ t p, (s.calls t).extendSelf = some p → p < s.next

theorem made_init : Made (Sys.init : Sys Tid) where
  forks := treeInv_init.forks
  parent c p h := by simp [Sys.init] at h
  extended t p h := by simp [Sys.init, Call.extendSelf] at h

/-- The call goes on with the scopes it has. -/
theorem extended_setCall {m : Sys Tid} {t : Tid} {c : Call Tid} (hs : Made s)
    (hm : m.calls = s.calls) (hn : s.next ≤ m.next)
    (hc : ∀ p, c.extendSelf = some p → p < s.next) (u : Tid) (p : ℕ)
    (h : ((m.setCall t c).calls u).extendSelf = some p) : p < (m.setCall t c).next := by
  refine Nat.lt_of_lt_of_le ?_ hn
  rw [setCall_calls] at h
  split at h
  · exact hc p h
  · exact hs.extended u p (hm ▸ h)

theorem Made.parent_step (hs : Made s) (h : Step s l s') (c p : ℕ)
    (hc : s'.parent c = some p) : p < s'.next := by
  cases h with
  | make => exact Nat.lt_succ_of_lt (hs.parent c p hc)
  | @startFork t q h hq =>
      have hc : Function.update s.parent s.next (some q) c = some p := hc
      rw [Function.update_apply] at hc
      split at hc
      · exact Option.some.inj hc ▸ Nat.lt_succ_of_lt (hs.forks.handed q hq).1
      · exact Nat.lt_succ_of_lt (hs.parent c p hc)
  | @extendParent t self other h =>
      have hc : Function.update s.parent other (some self) c = some p := hc
      rw [Function.update_apply] at hc
      split at hc
      · exact Option.some.inj hc ▸ hs.extended t self (by rw [h]; rfl)
      · exact hs.parent c p hc
  | _ => exact hs.parent c p hc

theorem Made.extended_step (hs : Made s) (h : Step s l s') :
    ∀ t p, (s'.calls t).extendSelf = some p → p < s'.next := by
  have hnone : ∀ {c : Call Tid}, c.extendSelf = none →
      ∀ p, c.extendSelf = some p → p < s.next := fun hc p hp => by simp [hc] at hp
  have hanswer : ∀ {t : Tid} {cur : ℕ} {k : Check} (b : Bool), s.calls t = .walk cur k ∨
      s.calls t = .climb cur k → ∀ p, (k.answer b : Call Tid).extendSelf = some p →
      p < s.next := by
    intro t cur k b hc p hp
    have hp := Check.answer_extendSelf cur hp
    rcases hc with hc | hc <;> exact hs.extended t p (by rw [hc]; cases k <;> exact hp)
  cases h with
  | make => exact fun t p hp => Nat.lt_succ_of_lt (hs.extended t p hp)
  | startFork h hq => exact extended_setCall hs rfl (Nat.le_succ _) (hnone rfl)
  | @startExtend t self other h hself hother =>
      refine extended_setCall hs rfl le_rfl fun p hp => ?_
      exact Option.some.inj hp ▸ (hs.forks.handed self hself).1
  | startAdd | startClose => exact extended_setCall hs rfl le_rfl (hnone rfl)
  | walkClosed h hcl => exact extended_setCall hs rfl le_rfl (hanswer true (.inl h))
  | @walkOpen t cur k h _ | @climb t cur _ k h _ =>
      refine extended_setCall hs rfl le_rfl fun p hp => hs.extended t p ?_
      rw [h]
      cases k <;> exact hp
  | climbTop h => exact extended_setCall hs rfl le_rfl (hanswer false (.inr h))
  | @extendParent t self other h =>
      exact extended_setCall hs rfl le_rfl fun p hp => hs.extended t p (by rw [h]; exact hp)
  | drop | collect | childrenDone | childLost | childSwap | childWaited | drain | drainCommit
  | drainAbort | runOne | finish => exact hs.extended
  | _ => exact extended_setCall hs rfl le_rfl (hnone rfl)

theorem Made.step (hs : Made s) (h : Step s l s') : Made s' :=
  ⟨hs.forks.step h, hs.parent_step h, hs.extended_step h⟩

omit [DecidableEq Tid] in
theorem up_setParent (c p : ℕ) :
    (s.setParent c p).up = Function.update s.up c ((some p).filter s.alive) := by
  funext q
  simp only [Sys.up, Sys.setParent, Function.update_apply]
  split <;> rfl

omit [DecidableEq Tid] in
/-- The one step of an `extend` that writes a parent. -/
theorem forest_setParent_iff (hf : IsForest s.up) (self other : ℕ) :
    IsForest (s.setParent other self).up ↔ (s.alive self = true → ¬ Reaches s.up self other) := by
  rw [up_setParent]
  cases ha : s.alive self with
  | true =>
      rw [Option.filter_some_pos ha, forest_link_iff hf]
      simp
  | false =>
      rw [Option.filter_some_neg (by simp [ha])]
      refine iff_of_true (hf.cut fun n => ?_) (by simp)
      rw [Function.update_apply]
      split
      · exact .inr rfl
      · exact .inl rfl

omit [DecidableEq Tid] in
/-- A new scope is at the bottom: nothing has it as its parent yet. -/
theorem Made.forest_makeChild (hs : Made s) (hf : IsForest s.up) {p : ℕ}
    (hp : s.handed p = true) : IsForest (s.makeChild p).up := by
  refine (forest_setParent_iff hf p s.next).2 fun _ hreach => ?_
  rcases Relation.ReflTransGen.cases_tail hreach with heq | ⟨q, -, hq⟩
  · exact Nat.lt_irrefl _ (heq ▸ (hs.forks.handed p hp).1)
  · exact Nat.lt_irrefl _ (hs.parent q s.next (up_eq_some.1 hq).1)

/-- All other steps keep the links, or take some away. -/
theorem Made.forest_step (hs : Made s) (hf : IsForest s.up) (h : Step s l s')
    (hne : ∀ t self other, l = .step t → s.calls t ≠ .extendParent self other) :
    IsForest s'.up := by
  cases h with
  | @drop sc h =>
      refine hf.cut fun n => ?_
      simp only [Sys.up]
      cases hp : s.parent n with
      | none => exact .inl rfl
      | some p =>
          by_cases hpsc : p = sc
          · exact .inr (by simp [hpsc])
          · exact .inl (by simp [Option.filter_some, Function.update_of_ne hpsc])
  | startFork h hp => exact hs.forest_makeChild hf hp
  | extendParent h => exact absurd h (hne _ _ _ rfl)
  | _ => exact hf

/-- **One step.** The links stay a forest exactly if no scope is put under one below it. -/
theorem Made.step_forest_iff (hs : Made s) (hf : IsForest s.up) (h : s.step l = some s') :
    IsForest s'.up ↔ KeepsForest s l := by
  have hother : (∀ t self other, l = .step t → s.calls t ≠ .extendParent self other) →
      IsForest s'.up := hs.forest_step hf (.of_step h)
  unfold KeepsForest
  split
  · next t =>
      split
      · next self other hc =>
          have hs' : s' = (s.setParent other self).setCall t (.extendPush self other) := by
            simpa [Sys.step, Sys.stepCall, hc] using h.symm
          rw [hs']
          exact forest_setParent_iff hf self other
      · next hc =>
          refine iff_of_true (hother fun u self other hu => ?_) trivial
          cases hu
          exact hc self other
  · next hl => exact iff_of_true (hother fun t _ _ ht => absurd ht (hl t)) trivial

/-! ## Every run -/

omit [DecidableEq Tid] in
theorem forest_init : IsForest (Sys.init : Sys Tid).up := fun _ => rooted_of_none rfl

/-- Climbs end all along a run exactly if in that run no `extend` writes the parent of a scope that
    is the new parent itself or above it. -/
theorem climbs_end_iff (ls : List (Label Tid)) (s : Sys Tid)
    (hrun : run Sys.step Sys.init ls = some s) :
    Throughout Sys.step ClimbsEnd Sys.init ls ↔ Along Sys.step KeepsForest Sys.init ls := by
  refine throughout_iff_along (I := Made) (fun s l s' hs _ _ h => hs.step (.of_step h))
    (fun s l s' hs hf h => ?_) made_init (climbsEnd_iff.2 forest_init) hrun
  rw [climbsEnd_iff]
  exact hs.step_forest_iff (climbsEnd_iff.1 hf) h

/-- The second of two scopes is put under the first one. -/
theorem climbs_end_iff_extended :
    ∃ s, run Sys.step (Sys.init : Sys ℕ) [.make, .make, .extend 0 0 1, .step 0, .step 0, .step 0,
        .step 0, .step 0, .step 0] = some s ∧
      s.calls 0 = .extendDone 0 1 true ∧ s.up 1 = some 0 ∧
      Throughout Sys.step ClimbsEnd (Sys.init : Sys ℕ) [.make, .make, .extend 0 0 1, .step 0,
        .step 0, .step 0, .step 0, .step 0, .step 0] := by
  refine ⟨_, rfl, rfl, rfl, (climbs_end_iff _ _ rfl).2 ?_⟩
  have hroot : ∀ {s : Sys ℕ}, s.up 0 = none → s.alive 0 = true → ¬ Reaches s.up 0 1 := by
    intro s hup _ hreach
    rcases Relation.ReflTransGen.cases_head hreach with heq | ⟨q, hq, -⟩
    · cases heq
    · rw [hup] at hq
      cases hq
  -- The eighth step is the one that writes the parent of scope 1.
  exact along_cons rfl trivial (along_cons rfl trivial (along_cons rfl trivial
    (along_cons rfl trivial (along_cons rfl trivial (along_cons rfl trivial
    (along_cons rfl trivial (along_cons rfl (hroot rfl) (along_cons rfl trivial trivial))))))))

/-- `extend` puts the scope under itself and returns; `add_finalizer` on it climbs for ever. -/
theorem extend_under_itself :
    ∃ s, run Sys.step (Sys.init : Sys ℕ) [.make, .extend 0 0 0, .step 0, .step 0, .step 0, .step 0,
        .step 0, .step 0, .addFinalizer 1 0] = some s ∧
      s.calls 0 = .extendDone 0 0 true ∧ ¬ ClimbsEnd s := by
  refine ⟨_, rfl, rfl, fun h => ?_⟩
  exact not_returns_of_own_parent rfl rfl rfl (h.returns 1 rfl)

end IdEffect.Scope
