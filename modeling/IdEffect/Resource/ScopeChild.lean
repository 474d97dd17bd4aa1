import IdEffect.Resource.ScopeTree

set_option autoImplicit false

/-! # One child and one finalizer

What the whole tree keeps in orderly runs, one child can count on under conditions of its own: its
parent's close has it on its list or has seen its close to the end (`SeenTo`), if it is not dropped
before the list is read, and if whoever else closes it is done before the parent gets to it. In the
same way a single finalizer is not lost (`Keeps`), whatever happens to the others. -/

namespace IdEffect.Scope

open Versioned Transition

variable {Tid : Type} [DecidableEq Tid] {s s' : Sys Tid} {l : Label Tid}

/-! ## One step, as one close sees it -/

/-- What a step can do to the progress of the close of `sc`. -/
inductive Moves (s : Sys Tid) (sc : ℕ) : Label Tid → Phase Tid → Prop
  | same {l : Label Tid} : Moves s sc l (s.phase sc)
  | begin {l : Label Tid} (h : s.phase sc = .idle) : Moves s sc l .swapped
  | collect (h : s.phase sc = .swapped) :
      Moves s sc (.closer sc) (.closing ((s.children sc).filter s.alive))
  | childrenDone (h : s.phase sc = .closing []) : Moves s sc (.closer sc) .draining
  | lost {c : ℕ} {rest : List ℕ} (h : s.phase sc = .closing (c :: rest))
      (hcl : s.closed c = true) : Moves s sc (.closer sc) (.closing rest)
  | enter {c : ℕ} {rest : List ℕ} (h : s.phase sc = .closing (c :: rest)) :
      Moves s sc (.closer sc) (.waiting c rest)
  | leave {c : ℕ} {rest : List ℕ} (h : s.phase sc = .waiting c rest) (hd : s.phase c = .done) :
      Moves s sc (.closer sc) (.closing rest)
  | past {ph : Phase Tid} (h : (s.phase sc).pastChildren = true) (hnd : s.phase sc ≠ .done)
      (hph : ph.pastChildren = true) : Moves s sc (.closer sc) ph

omit [DecidableEq Tid] in
theorem Moves.of_setPhase {m : Sys Tid} {q sc : ℕ} {ph : Phase Tid} (hm : m.phase = s.phase)
    (h : Moves s q (.closer q) ph) : Moves s sc (.closer q) ((m.setPhase q ph).phase sc) := by
  rw [setPhase_phase]
  split
  · next heq => exact heq ▸ h
  · rw [hm]
    exact .same

omit [DecidableEq Tid] in
theorem Moves.of_beginClose {q sc : ℕ} (h : s.phase q = .idle) :
    Moves s sc l ((s.beginClose q).phase sc) := by
  rw [beginClose_phase]
  split
  · next heq => exact .begin (heq ▸ h)
  · exact .same

theorem Step.moves (h : Step s l s') (hs : FlagOk s) (sc : ℕ) : Moves s sc l (s'.phase sc) := by
  cases h with
  | forkSwap h hcl => exact .of_beginClose ((hs _).2 hcl)
  | closeSwap h hcl => exact .of_beginClose ((hs _).2 hcl)
  | collect h => exact .of_setPhase rfl (.collect h)
  | childrenDone h => exact .of_setPhase rfl (.childrenDone h)
  | childLost h hcl => exact .of_setPhase rfl (.lost h hcl)
  | @childSwap q c rest h hcl =>
      have hne : c ≠ q := by
        rintro rfl
        rw [(hs c).2 hcl] at h
        cases h
      rw [setPhase_phase]
      split
      · next heq =>
          subst heq
          exact .enter h
      · exact .of_beginClose ((hs c).2 hcl)
  | childWaited h hd => exact .of_setPhase rfl (.leave h hd)
  | drain h => exact .of_setPhase rfl (.past (by rw [h]; rfl) (by simp [h]) rfl)
  | drainCommit h hσ => exact .of_setPhase rfl (.past (by rw [h]; rfl) (by simp [h]) rfl)
  | drainAbort h hσ => exact .of_setPhase rfl (.past (by rw [h]; rfl) (by simp [h]) rfl)
  | runOne h => exact .of_setPhase rfl (.past (by rw [h]; rfl) (by simp [h]) rfl)
  | finish h => exact .of_setPhase rfl (.past (by rw [h]; rfl) (by simp [h]) rfl)
  | _ => exact .same

/-- A close that is over stays over. -/
theorem Step.done (h : Step s l s') (hs : FlagOk s) {sc : ℕ} (hd : s.phase sc = .done) :
    s'.phase sc = .done := by
  have hmoves := h.moves hs sc
  generalize hph : s'.phase sc = ph at hmoves ⊢
  cases hmoves with
  | same => exact hd
  | past _ hnd _ => exact absurd hd hnd
  | begin hp | collect hp | childrenDone hp | lost hp _ | enter hp | leave hp _ =>
      rw [hd] at hp
      cases hp

theorem Step.closed (h : Step s l s') (hs : FlagOk s) {sc : ℕ} (hc : s.closed sc = true) :
    s'.closed sc = true := by
  refine eq_true_of_ne_false fun hopen => ?_
  have hidle := ((hs.step h) sc).2 hopen
  have hmoves := h.moves hs sc
  rw [hidle] at hmoves
  generalize hph : (Phase.idle : Phase Tid) = ph at hmoves
  cases hmoves with
  | same =>
      rw [(hs sc).1 hph.symm] at hc
      cases hc
  | past _ _ hpast =>
      subst hph
      cases hpast
  | begin _ | collect _ | childrenDone _ | lost _ _ | enter _ | leave _ _ => cases hph

theorem Step.mem_children (h : Step s l s') {p c : ℕ} (hc : c ∈ s.children p) :
    c ∈ s'.children p := by
  have hpush : ∀ q e, c ∈ (s.pushChild q e).children p := fun q e => mem_pushChild.2 (.inl hc)
  cases h with
  | forkPush h => exact hpush _ _
  | extendPush h => exact hpush _ _
  | _ => exact hc

theorem Step.alive (h : Step s l s') {c : ℕ} (hl : l ≠ .drop c) (hc : s.alive c = true) :
    s'.alive c = true := by
  cases h with
  | @drop sc h =>
      have hne : c ≠ sc := fun heq => hl (by rw [heq])
      show Function.update s.alive sc false c = true
      rw [Function.update_of_ne hne]
      exact hc
  | _ => exact hc

/-- Whose call begins or goes on. -/
def Label.caller : Label Tid → Option Tid
  | .fork t _ | .extend t _ _ | .addFinalizer t _ | .close t _ | .step t => some t
  | .make | .drop _ | .closer _ => none

theorem Step.calls_of_ne (h : Step s l s') {t : Tid} (ht : l.caller ≠ some t) :
    s'.calls t = s.calls t := by
  have hset : ∀ {m : Sys Tid} {u : Tid} {c : Call Tid}, m.calls = s.calls → some u ≠ some t →
      (m.setCall u c).calls t = s.calls t := by
    intro m u c hm hne
    rw [setCall_calls, if_neg fun heq => hne (by rw [heq]), hm]
  cases h with
  | make | drop _ | collect _ | childrenDone _ | childLost _ _ | childSwap _ _ | childWaited _ _
  | drain _ | drainCommit _ _ | drainAbort _ _ | runOne _ | finish _ => rfl
  | _ => exact hset rfl ht

theorem Step.mem_ran (h : Step s l s') {u : Tid} (hu : u ∈ s.ran) : u ∈ s'.ran := by
  cases h with
  | runOne h => exact List.mem_append_left _ hu
  | _ => exact hu

/-! ## A child is seen to -/

/-- The close has read its list of children. -/
def Phase.hasRead : Phase Tid → Bool
  | .idle | .swapped => false
  | _ => true

/-- The child a close gets to next. -/
def Phase.next : Phase Tid → Option ℕ
  | .closing (c :: _) => some c
  | _ => none

/-- The close of `p` is going to come across `c`, or has, and the close of `c` is over. -/
def SeenTo (s : Sys Tid) (p c : ℕ) : Prop :=
  match s.phase p with
  | .idle | .swapped => c ∈ s.children p ∧ s.alive c = true
  | .closing rest => c ∈ rest ∨ s.phase c = .done
  | .waiting d rest => c = d ∨ c ∈ rest ∨ s.phase c = .done
  | _ => s.phase c = .done

/-- `c` is not dropped before the close of `p` has read its list, and a close of `c` by somebody
    else is over when that of `p` comes to it. -/
def Leaves (p c : ℕ) (s : Sys Tid) : Label Tid → Prop
  | .drop sc => sc = c → (s.phase p).hasRead = true
  | .closer sc => sc = p → (s.phase p).next = some c → s.closed c = true →
      (s.phase c).isDone = true
  | _ => True

instance (p c : ℕ) (s : Sys Tid) (l : Label Tid) : Decidable (Leaves p c s l) :=
  match l with
  | .drop sc => inferInstanceAs (Decidable (sc = c → (s.phase p).hasRead = true))
  | .closer sc => inferInstanceAs (Decidable (sc = p → (s.phase p).next = some c →
      s.closed c = true → (s.phase c).isDone = true))
  | .make | .fork _ _ | .extend _ _ _ | .addFinalizer _ _ | .close _ _ | .step _ => .isTrue trivial

omit [DecidableEq Tid] in
theorem seenTo_of_past {p c : ℕ} (h : (s.phase p).pastChildren = true) :
    SeenTo s p c ↔ s.phase c = .done := by
  unfold SeenTo
  revert h
  cases s.phase p <;> simp [Phase.pastChildren]

omit [DecidableEq Tid] in
/-- As long as a parent is open, it is enough to be on its list. -/
theorem seenTo_of_idle {p c : ℕ} (h : s.phase p = .idle) (hmem : c ∈ s.children p)
    (halive : s.alive c = true) : SeenTo s p c := by
  rw [SeenTo, h]
  exact ⟨hmem, halive⟩

theorem SeenTo.step {p c : ℕ} (hc : SeenTo s p c) (hs : FlagOk s) (h : Step s l s')
    (hl : Leaves p c s l) : SeenTo s' p c := by
  have hdone : s.phase c = .done → s'.phase c = .done := h.done hs
  have hmoves := h.moves hs p
  unfold SeenTo at hc ⊢
  generalize hph : s'.phase p = ph at hmoves ⊢
  cases hmoves with
  | same =>
      revert hc
      cases hp : s.phase p with
      | idle | swapped =>
          rintro ⟨hmem, halive⟩
          refine ⟨h.mem_children hmem, h.alive ?_ halive⟩
          rintro rfl
          have hread := hl rfl
          rw [hp] at hread
          cases hread
      | closing rest => exact Or.imp_right hdone
      | waiting d rest => exact Or.imp_right (Or.imp_right hdone)
      | draining | drained txn fs | running fs | done => exact hdone
  | begin hp =>
      rw [hp] at hc
      refine ⟨h.mem_children hc.1, h.alive ?_ hc.2⟩
      rintro rfl
      have hread := hl rfl
      rw [hp] at hread
      cases hread
  | collect hp =>
      rw [hp] at hc
      exact .inl (List.mem_filter.2 hc)
  | childrenDone hp =>
      rw [hp] at hc
      exact hdone (hc.resolve_left List.not_mem_nil)
  | @lost d rest hp hcl =>
      rw [hp] at hc
      rcases hc with hmem | hd
      · rcases List.mem_cons.1 hmem with rfl | hmem
        · exact .inr (hdone (Phase.isDone_iff.1 (hl rfl (by rw [hp]; rfl) hcl)))
        · exact .inl hmem
      · exact .inr (hdone hd)
  | @enter d rest hp =>
      rw [hp] at hc
      rcases hc with hmem | hd
      · exact (List.mem_cons.1 hmem).imp_right .inl
      · exact .inr (.inr (hdone hd))
  | @leave d rest hp hd =>
      rw [hp] at hc
      rcases hc with rfl | hmem | hc
      · exact .inr (hdone hd)
      · exact .inl hmem
      · exact .inr (hdone hc)
  | past hp _ hpast =>
      have hd := hdone ((seenTo_of_past hp).1 (by unfold SeenTo; exact hc))
      cases ph with
      | draining | drained txn fs | running fs | done => exact hd
      | idle | swapped | closing rest | waiting d rest => cases hpast

/-! ## A parent is followed -/

/-- The scope a call of `close` is about to close. -/
def Call.closes : Call Tid → Option ℕ
  | .closing sc => some sc
  | _ => none

/-- A `close` of `p` that is not the first finds the first one over. -/
def Waits (p : ℕ) (s : Sys Tid) : Label Tid → Prop
  | .step t => (s.calls t).closes = some p → s.closed p = true → (s.phase p).isDone = true
  | _ => True

instance (p : ℕ) (s : Sys Tid) (l : Label Tid) : Decidable (Waits p s l) :=
  match l with
  | .step t => inferInstanceAs (Decidable ((s.calls t).closes = some p → s.closed p = true →
      (s.phase p).isDone = true))
  | .make | .drop _ | .fork _ _ | .extend _ _ _ | .addFinalizer _ _ | .close _ _ | .closer _ =>
      .isTrue trivial

/-- The child is seen to, and a close of the parent that has returned is over. -/
structure Followed (s : Sys Tid) (p c : ℕ) : Prop where
  seenTo : SeenTo s p c
  returned : ∀ t ok, s.calls t = .closeDone p ok → s.phase p = .done

/-- Who returned from `close` has found the flag up, or the close over. -/
theorem Step.closeDone (h : Step s l s') {t : Tid} {p : ℕ} {ok : Bool}
    (hc : s'.calls t = .closeDone p ok) :
    s.calls t = .closeDone p ok
      ∨ (l = .step t ∧ s.calls t = .closing p ∧ s.closed p = true) ∨ s.phase p = .done := by
  have hset : ∀ {m : Sys Tid} {u : Tid} {c : Call Tid}, m.calls = s.calls →
      (∀ q b, c ≠ .closeDone q b) → (m.setCall u c).calls t = .closeDone p ok →
      s.calls t = .closeDone p ok := by
    intro m u c hm hne hc
    rw [setCall_calls] at hc
    split at hc
    · exact absurd hc (hne p ok)
    · rw [← hm]
      exact hc
  cases h with
  | @closeLost u sc h hcl =>
      rw [setCall_calls] at hc
      split at hc
      · next heq =>
          obtain ⟨rfl, -⟩ := Call.closeDone.inj hc
          exact .inr (.inl ⟨by rw [heq], by rw [heq]; exact h, hcl⟩)
      · exact .inl hc
  | @closeWaited u sc h hd =>
      rw [setCall_calls] at hc
      split at hc
      · obtain ⟨rfl, -⟩ := Call.closeDone.inj hc
        exact .inr (.inr hd)
      · exact .inl hc
  | walkClosed _ _ | climbTop _ =>
      exact .inl (hset rfl (fun q b => Check.answer_ne_closeDone _ _ q b) hc)
  | startFork _ _ | startExtend _ _ _ | startAdd _ _ | startClose _ _ | walkOpen _ _ | climb _ _
  | forkPush _ | forkLost _ _ | forkSwap _ _ | forkWaited _ _ | forkReturn _ | extendParent _
  | extendPush _ | attempt _ | commit _ _ | abort _ _ | closeSwap _ _ =>
      exact .inl (hset rfl (fun _ _ heq => by cases heq) hc)
  | make | drop _ | collect _ | childrenDone _ | childLost _ _ | childSwap _ _ | childWaited _ _
  | drain _ | drainCommit _ _ | drainAbort _ _ | runOne _ | finish _ => exact .inl hc

/-- A close that has returned has found the flag up, or put it up. -/
def ReturnedClosed (s : Sys Tid) : Prop :=
  ∀ t p ok, s.calls t = .closeDone p ok → s.closed p = true

theorem ReturnedClosed.step (hr : ReturnedClosed s) (hs : FlagOk s) (h : Step s l s') :
    ReturnedClosed s' := by
  intro t p ok hc
  refine h.closed hs ?_
  rcases h.closeDone hc with hc | ⟨-, -, hcl⟩ | hd
  · exact hr t p ok hc
  · exact hcl
  · refine eq_true_of_ne_false fun hopen => ?_
    rw [(hs p).2 hopen] at hd
    cases hd

omit [DecidableEq Tid] in
/-- On the list of an open parent. -/
theorem Followed.of_open (hr : ReturnedClosed s) (hs : FlagOk s) {p c : ℕ}
    (hopen : s.closed p = false) (hmem : c ∈ s.children p) (halive : s.alive c = true) :
    Followed s p c where
  seenTo := seenTo_of_idle ((hs p).2 hopen) hmem halive
  returned := fun t ok hc => by
    rw [hr t p ok hc] at hopen
    cases hopen

theorem Followed.step {p c : ℕ} (hf : Followed s p c) (hs : FlagOk s) (h : Step s l s')
    (hl : Leaves p c s l) (hw : Waits p s l) : Followed s' p c where
  seenTo := hf.seenTo.step hs h hl
  returned := fun t ok hc => by
    refine h.done hs ?_
    rcases h.closeDone hc with hc | ⟨rfl, hclosing, hcl⟩ | hd
    · exact hf.returned t ok hc
    · exact Phase.isDone_iff.1 (hw (by rw [hclosing]; rfl) hcl)
    · exact hd

/-- A child that is not closed before its parent need not be left alone by others. -/
theorem Followed.step_or_closed {p c : ℕ} (hf : s.closed c = true ∨ Followed s p c)
    (hs : FlagOk s) (h : Step s l s') (hl : l = .drop c → (s.phase p).hasRead = true)
    (hw : Waits p s l) : s'.closed c = true ∨ Followed s' p c := by
  by_cases hc : s.closed c = true
  · exact .inl (h.closed hs hc)
  · refine .inr ((hf.resolve_left hc).step hs h ?_ hw)
    cases l with
    | drop sc => exact fun heq => hl (by rw [heq])
    | closer sc => exact fun _ _ hcl => absurd hcl hc
    | make | fork _ _ | extend _ _ _ | addFinalizer _ _ | close _ _ | step _ => trivial

omit [DecidableEq Tid] in
/-- When a close of the parent has returned, that of the child is over. -/
theorem Followed.child_done {p c : ℕ} (hf : Followed s p c) {t : Tid} {ok : Bool}
    (hc : s.calls t = .closeDone p ok) : s.phase c = .done := by
  have hp := hf.returned t ok hc
  exact (seenTo_of_past (by rw [hp]; rfl)).1 hf.seenTo

/-! ## A finalizer is kept -/

/-- The transaction a call of `add_finalizer` is about to commit, and for which scope. -/
def Call.commits : Call Tid → Option (ℕ × Txn (Bucket Tid))
  | .added sc txn => some (sc, txn)
  | _ => none

/-- What the drain has taken out of the cells. -/
def Phase.taken : Phase Tid → List Tid
  | .drained _ fs => fs
  | _ => []

/-- The finalizer of `u` is not committed after the drain of `sc`, and no other is while the drain
    has it in its hands. -/
def Keeps (u : Tid) (sc : ℕ) (s : Sys Tid) : Label Tid → Prop
  | .step t => ∀ qt ∈ (s.calls t).commits, qt.1 = sc → (tryCommit qt.2 s.buckets).isSome = true →
      (t = u → (s.phase sc).late = false) ∧ u ∉ (s.phase sc).taken
  | _ => True

instance (u : Tid) (sc : ℕ) (s : Sys Tid) (l : Label Tid) : Decidable (Keeps u sc s l) :=
  match l with
  | .step t => inferInstanceAs (Decidable (∀ qt ∈ (s.calls t).commits, qt.1 = sc →
      (tryCommit qt.2 s.buckets).isSome = true →
      (t = u → (s.phase sc).late = false) ∧ u ∉ (s.phase sc).taken))
  | .make | .drop _ | .fork _ _ | .extend _ _ _ | .addFinalizer _ _ | .close _ _ | .closer _ =>
      .isTrue trivial

theorem pending_step (hs : FinInv s) (hw : NoWrap s l) (h : FinStep s l s') {sc : ℕ} {u : Tid}
    (hu : s.calls u = .addDone sc true) (hp : Pending s sc u) (hk : Keeps u sc s l) :
    Pending s' sc u := by
  cases h with
  | quiet hq _ => exact (hq.pending_iff hs sc u).2 hp
  | attempt h => exact hp
  | @commit t q txn σ h hσ =>
      by_cases hq : q = sc
      · subst hq
        rw [pending_commit hs hw h hσ]
        have htaken := (hk (q, txn) (by rw [h]; rfl) rfl (by rw [hσ]; rfl)).2
        rcases hp with hr | ⟨hm, -⟩ | ⟨hm, hc⟩
        · exact .inl hr
        · refine .inr (.inl ⟨hm, fun tx fs hph => ?_⟩)
          rw [hph] at hm htaken
          exact htaken hm
        · exact .inr (.inr ⟨List.mem_append_left _ hm, hc⟩)
      · have hsame : Pending ({ s with buckets := σ }.setCall t (.addDone q true)) sc u
            ↔ Pending s sc u := by
          refine pending_congr hs Iff.rfl rfl ?_ rfl
          show σ sc = s.buckets sc
          rw [hs.commit_eq h hσ, setCell_of_ne _ _ (Ne.symm hq)]
        exact hsame.2 hp
  | drain h => exact (pending_drain hs h sc u hu).2 hp
  | drainCommit h hσ => exact (pending_drainCommit hs h hσ sc u).2 hp
  | drainAbort h hσ => exact (pending_drainAbort hs h hσ sc u).2 hp
  | runOne h => exact (pending_runOne hs h sc u hu).2 hp
  | finish h => exact (pending_finish hs h sc u).2 hp

/-- The commit of a finalizer before the drain is over makes it pending. -/
theorem pending_of_commit (hs : FinInv s) (hw : ∀ q, (s.buckets q).ver.toNat + 1 < 2 ^ 64) {u : Tid}
    {sc : ℕ} {txn : Txn (Bucket Tid)} {σ : Store (Bucket Tid)} (h : s.calls u = .added sc txn)
    (hσ : tryCommit txn s.buckets = some σ) (hk : Keeps u sc s (.step u)) :
    Pending ({ s with buckets := σ }.setCall u (.addDone sc true)) sc u := by
  rw [pending_commit hs hw h hσ]
  refine .inr (.inr ⟨List.mem_append_right _ (List.mem_singleton_self u), ?_, ?_⟩)
  · exact hs.fresh u (by rw [h]; rfl)
  · exact (hk (sc, txn) (by rw [h]; rfl) rfl (by rw [hσ]; rfl)).1 rfl

end IdEffect.Scope
