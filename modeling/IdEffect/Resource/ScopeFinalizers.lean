import IdEffect.Resource.Scope

set_option autoImplicit false

/-! # Finalizers of a scope

Two windows lose finalizers. `add_finalizer` looks at the closed flag before its transaction, which
may then commit after the drain: nobody will ever look into the bucket again. And the drain takes
the finalizers out of their cells while its transaction runs; if that has to be retried because a
finalizer was added meanwhile, the cells are empty the second time, and what the first attempt had
taken is gone.

Nothing else goes wrong. A finalizer runs at most once, never unless it was accepted, and the
accepted ones all run if and only if no `add_finalizer` commits into one of the two windows
(`finalizers_run_once_iff`). Bucket versions are 64 bit counters; the runs considered do not wrap
them around. -/

namespace IdEffect.Scope

open Versioned Transition

variable {Tid : Type} [DecidableEq Tid] {s s' : Sys Tid} {l : Label Tid}

/-! ## The promise -/

/-- By the time the close of `sc` is over, each finalizer that was accepted has run once, and none
    that was refused has run. -/
def RunOnce (s : Sys Tid) (sc : ℕ) : Prop :=
  (∀ t, s.calls t = .addDone sc true → s.ran.count t = 1) ∧
    ∀ t, s.calls t = .addDone sc false → s.ran.count t = 0

/-- No bucket version is about to wrap around. -/
def NoWrap (s : Sys Tid) (_ : Label Tid) : Prop := ∀ sc, (s.buckets sc).ver.toNat + 1 < 2 ^ 64

/-- The drain has not taken anything yet. -/
def Phase.Untouched : Phase Tid → Prop
  | .drained _ fs => fs = []
  | .running _ | .done => False
  | _ => True

/-- An `add_finalizer` that commits into the bucket of `sc` does so before the drain has taken
    anything. -/
def InTime (sc : ℕ) (s : Sys Tid) : Label Tid → Prop
  | .step t => ∀ txn, s.calls t = .added sc txn → (tryCommit txn s.buckets).isSome = true →
      (s.phase sc).Untouched
  | _ => True

/-- Finalizers run exactly once in every run that closes a scope. -/
def FinalizersRunOnce (Tid : Type) [DecidableEq Tid] : Prop :=
  ∀ (ls : List (Label Tid)) (s : Sys Tid) (sc : ℕ), run Sys.step Sys.init ls = some s →
    s.phase sc = .done → RunOnce s sc

/-- The scope 0 has been closed by the call 9, the calls 0 and 1 have had their finalizers accepted,
    and only that of the call 1 has run. -/
def ranOneOfTwo (s : Sys ℕ) : Bool :=
  match s.phase 0, s.calls 9, s.calls 0, s.calls 1 with
  | .done, .closeDone 0 true, .addDone 0 true, .addDone 0 true => s.ran == [1]
  | _, _, _, _ => false

/-- **Finalizers are lost.** A finalizer is accepted after the scope was drained and never runs. And
    a finalizer accepted while the drain's transaction is under way makes the drain lose the one
    that was there before. -/
theorem accepted_finalizer_never_runs :
    (∃ s : Sys ℕ, run Sys.step Sys.init [.make, .addFinalizer 0 0, .step 0, .step 0, .close 9 0,
        .step 9, .closer 0, .closer 0, .closer 0, .closer 0, .closer 0, .step 9, .step 0,
        .step 0] = some s ∧
      s.phase 0 = .done ∧ s.calls 9 = .closeDone 0 true ∧ s.calls 0 = .addDone 0 true ∧
      s.ran = []) ∧
    (∃ s : Sys ℕ, run Sys.step Sys.init [.make, .addFinalizer 0 0, .step 0, .step 0, .step 0,
        .step 0, .addFinalizer 1 0, .step 1, .step 1, .step 1, .close 9 0, .step 9, .closer 0,
        .closer 0, .closer 0, .step 1, .closer 0, .closer 0, .closer 0, .closer 0, .closer 0,
        .step 9] = some s ∧
      s.phase 0 = .done ∧ s.calls 9 = .closeDone 0 true ∧ s.calls 0 = .addDone 0 true ∧
      s.calls 1 = .addDone 0 true ∧ s.ran = [1]) ∧
    ¬ FinalizersRunOnce ℕ := by
  have hlate : ∃ s : Sys ℕ, run Sys.step Sys.init [.make, .addFinalizer 0 0, .step 0, .step 0,
        .close 9 0, .step 9, .closer 0, .closer 0, .closer 0, .closer 0, .closer 0, .step 9,
        .step 0, .step 0] = some s ∧
      s.phase 0 = .done ∧ s.calls 9 = .closeDone 0 true ∧ s.calls 0 = .addDone 0 true ∧
      s.ran = [] := ⟨_, rfl, rfl, rfl, rfl, rfl⟩
  refine ⟨hlate, ?_, fun h => ?_⟩
  · obtain ⟨s, hrun, hran⟩ : ∃ s, run Sys.step Sys.init [.make, .addFinalizer 0 0, .step 0, .step 0,
        .step 0, .step 0, .addFinalizer 1 0, .step 1, .step 1, .step 1, .close 9 0, .step 9,
        .closer 0, .closer 0, .closer 0, .step 1, .closer 0, .closer 0, .closer 0, .closer 0,
        .closer 0, .step 9] = some s ∧ ranOneOfTwo s = true := exists_run _ (by decide +kernel)
    unfold ranOneOfTwo at hran
    split at hran
    · next hdone hclose hfirst hsecond =>
        exact ⟨s, hrun, hdone, hclose, hfirst, hsecond, beq_iff_eq.1 hran⟩
    · cases hran
  · obtain ⟨s, hrun, hdone, -, hacc, hran⟩ := hlate
    have hone := (h _ s 0 hrun hdone).1 0 hacc
    simp [hran] at hone

/-! ## One step, as the finalizers see it -/

/-- The close has not got to the drain. -/
def Phase.early : Phase Tid → Bool
  | .drained _ _ | .running _ | .done => false
  | _ => true

/-- The call has had its finalizer accepted. -/
def Call.accepted : Call Tid → Bool
  | .addDone _ true => true
  | _ => false

def Call.isAdded : Call Tid → Bool
  | .added _ _ => true
  | _ => false

/-- Nothing happens to any finalizer: calls move on without being accepted, and closes without
    getting to the drain. -/
structure Quiet (s s' : Sys Tid) : Prop where
  buckets : s'.buckets = s.buckets
  cell : s'.cell = s.cell
  ran : s'.ran = s.ran
  calls : ∀ t, s'.calls t = s.calls t ∨
    (s.calls t).accepted = false ∧ (s'.calls t).accepted = false ∧ (s'.calls t).isAdded = false
  phases : ∀ sc, s'.phase sc = s.phase sc ∨
    (s.phase sc).early = true ∧ (s'.phase sc).early = true

inductive FinStep (s : Sys Tid) : Label Tid → Sys Tid → Prop
  | quiet {l : Label Tid} {s' : Sys Tid} (h : Quiet s s')
      (hl : ∀ t sc txn, l = .step t → s.calls t = .added sc txn →
        tryCommit txn s.buckets = none) : FinStep s l s'
  | attempt {t : Tid} {sc : ℕ} (h : s.calls t = .adding sc) :
      FinStep s (.step t)
        (s.setCall t (.added sc ((addFinalizerStm sc t).runOn s.buckets Txn.new).2))
  | commit {t : Tid} {sc : ℕ} {txn : Txn (Bucket Tid)} {σ : Store (Bucket Tid)}
      (h : s.calls t = .added sc txn) (hσ : tryCommit txn s.buckets = some σ) :
      FinStep s (.step t) ({ s with buckets := σ }.setCall t (.addDone sc true))
  | drain {sc : ℕ} (h : s.phase sc = .draining) :
      FinStep s (.closer sc)
        ({ s with cell := fun f => s.cell f && !decide (f ∈ (s.buckets sc).value) }.setPhase sc
          (.drained ((drainStm sc).runOn s.buckets Txn.new).2 ((s.buckets sc).value.filter s.cell)))
  | drainCommit {sc : ℕ} {txn : Txn (Bucket Tid)} {fs : List Tid} {σ : Store (Bucket Tid)}
      (h : s.phase sc = .drained txn fs) (hσ : tryCommit txn s.buckets = some σ) :
      FinStep s (.closer sc) ({ s with buckets := σ }.setPhase sc (.running fs.reverse))
  | drainAbort {sc : ℕ} {txn : Txn (Bucket Tid)} {fs : List Tid}
      (h : s.phase sc = .drained txn fs) (hσ : tryCommit txn s.buckets = none) :
      FinStep s (.closer sc) (s.setPhase sc .draining)
  | runOne {sc : ℕ} {f : Tid} {fs : List Tid} (h : s.phase sc = .running (f :: fs)) :
      FinStep s (.closer sc) ({ s with ran := s.ran ++ [f] }.setPhase sc (.running fs))
  | finish {sc : ℕ} (h : s.phase sc = .running []) : FinStep s (.closer sc) (s.setPhase sc .done)

/-- A call that was not accepted moves on, and the rest is as it was. -/
theorem Quiet.of_setCall {m : Sys Tid} {t : Tid} {c : Call Tid} (hq : Quiet s m)
    (hm : m.calls = s.calls) (h : (s.calls t).accepted = false) (hc : c.accepted = false)
    (ha : c.isAdded = false) : Quiet s (m.setCall t c) where
  buckets := hq.buckets
  cell := hq.cell
  ran := hq.ran
  calls := by
    intro u
    rw [setCall_calls, hm]
    split
    · next hu => exact Or.inr ⟨hu ▸ h, hc, ha⟩
    · exact Or.inl rfl
  phases := hq.phases

omit [DecidableEq Tid] in
/-- A change of flags and links only. -/
theorem Quiet.of_eq (hbuckets : s'.buckets = s.buckets) (hcell : s'.cell = s.cell)
    (hran : s'.ran = s.ran) (hcalls : s'.calls = s.calls) (hphase : s'.phase = s.phase) :
    Quiet s s' :=
  ⟨hbuckets, hcell, hran, fun u => Or.inl (by rw [hcalls]), fun q => Or.inl (by rw [hphase])⟩

omit [DecidableEq Tid] in
theorem Quiet.refl (s : Sys Tid) : Quiet s s := .of_eq rfl rfl rfl rfl rfl

omit [DecidableEq Tid] in
theorem Quiet.of_setPhase {m : Sys Tid} {sc : ℕ} {ph : Phase Tid} (hq : Quiet s m)
    (h : (s.phase sc).early = true) (hph : ph.early = true) : Quiet s (m.setPhase sc ph) where
  buckets := hq.buckets
  cell := hq.cell
  ran := hq.ran
  calls := hq.calls
  phases := by
    intro q
    rw [setPhase_phase]
    split
    · next hu => exact Or.inr ⟨hu ▸ h, hph⟩
    · exact hq.phases q

omit [DecidableEq Tid] in
theorem Quiet.beginClose (hs : FlagOk s) {sc : ℕ} (hcl : s.closed sc = false) :
    Quiet s (s.beginClose sc) := by
  have hearly : (s.phase sc).early = true := by rw [(hs sc).2 hcl]; rfl
  have h : Quiet s (s.setPhase sc .swapped) := (Quiet.refl s).of_setPhase hearly rfl
  exact ⟨h.buckets, h.cell, h.ran, h.calls, h.phases⟩

omit [DecidableEq Tid] in
theorem Check.answer_accepted (k : Check) (b : Bool) :
    (k.answer b : Call Tid).accepted = false ∧ (k.answer b : Call Tid).isAdded = false := by
  cases k <;> cases b <;> exact ⟨rfl, rfl⟩

/-- A quiet step that is not taken by a call with a commit to make. -/
theorem FinStep.of_quiet {t : Tid} (hq : Quiet s s') (h : (s.calls t).isAdded = false) :
    FinStep s (.step t) s' := by
  refine .quiet hq fun u sc txn hl hu => ?_
  cases hl
  rw [hu] at h
  cases h

/-- A call without a commit to make moves on, and flags and links may change. -/
theorem FinStep.of_link {t : Tid} {m : Sys Tid} {c : Call Tid} (hq : Quiet s m)
    (hm : m.calls = s.calls) (h : (s.calls t).accepted = false)
    (hadd : (s.calls t).isAdded = false) (hc : c.accepted = false) (ha : c.isAdded = false) :
    FinStep s (.step t) (m.setCall t c) :=
  .of_quiet (hq.of_setCall hm h hc ha) hadd

theorem FinStep.of_setCall {t : Tid} {c : Call Tid} (h : (s.calls t).accepted = false)
    (hadd : (s.calls t).isAdded = false) (hc : c.accepted = false) (ha : c.isAdded = false) :
    FinStep s (.step t) (s.setCall t c) :=
  .of_link (.refl s) rfl h hadd hc ha

theorem FinStep.of_step (hs : FlagOk s) (h : Step s l s') : FinStep s l s' := by
  cases h with
  | make => exact .quiet (.of_eq rfl rfl rfl rfl rfl) (by simp)
  | drop h => exact .quiet (.of_eq rfl rfl rfl rfl rfl) (by simp)
  | startFork h hp =>
      exact .quiet (Quiet.of_setCall (.of_eq rfl rfl rfl rfl rfl) rfl (by rw [h]; rfl) rfl rfl)
        (by simp)
  | startExtend h _ _ | startAdd h _ | startClose h _ =>
      exact .quiet ((Quiet.refl s).of_setCall rfl (by rw [h]; rfl) rfl rfl) (by simp)
  | @walkClosed t cur k h hcl =>
      exact .of_setCall (by rw [h]; rfl) (by rw [h]; rfl) (k.answer_accepted true).1
        (k.answer_accepted true).2
  | walkOpen h _ | climb h _ | forkLost h _ | forkWaited h _ | closeLost h _ | closeWaited h _ =>
      exact .of_setCall (by rw [h]; rfl) (by rw [h]; rfl) rfl rfl
  | @climbTop t cur k h =>
      exact .of_setCall (by rw [h]; rfl) (by rw [h]; rfl) (k.answer_accepted false).1
        (k.answer_accepted false).2
  | forkPush h | forkReturn h | extendParent h | extendPush h =>
      exact .of_link (.of_eq rfl rfl rfl rfl rfl) rfl (by rw [h]; rfl) (by rw [h]; rfl) rfl rfl
  | forkSwap h hcl | closeSwap h hcl =>
      exact .of_link (.beginClose hs hcl) rfl (by rw [h]; rfl) (by rw [h]; rfl) rfl rfl
  | attempt h => exact .attempt h
  | commit h hσ => exact .commit h hσ
  | @abort t sc txn h hσ =>
      refine .quiet ((Quiet.refl s).of_setCall rfl (by rw [h]; rfl) rfl rfl) fun u q tx hl hu => ?_
      cases hl
      rw [h] at hu
      cases hu
      exact hσ
  | collect h | childrenDone h | childLost h _ | childWaited h _ =>
      exact .quiet ((Quiet.refl s).of_setPhase (by rw [h]; rfl) rfl) (by simp)
  | @childSwap sc c rest h hcl =>
      have hq : Quiet s ((s.beginClose c).setPhase sc (.waiting c rest)) :=
        (Quiet.beginClose hs hcl).of_setPhase (by rw [h]; rfl) rfl
      exact .quiet ⟨hq.buckets, hq.cell, hq.ran, hq.calls, hq.phases⟩ (by simp)
  | drain h => exact .drain h
  | drainCommit h hσ => exact .drainCommit h hσ
  | drainAbort h hσ => exact .drainAbort h hσ
  | runOne h => exact .runOne h
  | finish h => exact .finish h

/-! ## The invariant of all runs -/

/-- The bucket of `sc` as it was in `σ₀` is older than, or the same as, the one in `σ`. -/
def ReadAt (σ₀ σ : Store (Bucket Tid)) (sc : ℕ) : Prop :=
  (σ₀ sc).ver.toNat ≤ (σ sc).ver.toNat ∧ ((σ sc).ver = (σ₀ sc).ver → (σ sc).value = (σ₀ sc).value)

omit [DecidableEq Tid] in
theorem ReadAt.refl (σ : Store (Bucket Tid)) (sc : ℕ) : ReadAt σ σ sc :=
  ⟨Nat.le_refl _, fun _ => rfl⟩

omit [DecidableEq Tid] in
/-- A write makes everything read before older. -/
theorem ReadAt.older {σ₀ σ : Store (Bucket Tid)} {sc : ℕ} (h : ReadAt σ₀ σ sc)
    (hw : (σ sc).ver.toNat + 1 < 2 ^ 64) (v : List Tid) :
    (σ₀ sc).ver.toNat < (setCell σ sc v sc).ver.toNat := by
  have hle := h.1
  rw [setCell_self, Cell.write, UInt64.toNat_add]
  simp only [UInt64.reduceToNat]
  omega

omit [DecidableEq Tid] in
theorem ReadAt.setCell {σ₀ σ : Store (Bucket Tid)} {sc : ℕ} (h : ReadAt σ₀ σ sc) (q : ℕ)
    (hw : (σ sc).ver.toNat + 1 < 2 ^ 64) (v : List Tid) : ReadAt σ₀ (setCell σ q v) sc := by
  by_cases hq : sc = q
  · subst hq
    have hlt := h.older hw v
    refine ⟨hlt.le, fun he => ?_⟩
    rw [he] at hlt
    exact absurd hlt (Nat.lt_irrefl _)
  · unfold ReadAt
    rw [setCell_of_ne _ _ hq]
    exact h

/-- The commit of an `add_finalizer` that read the bucket in `σ₀`. -/
theorem tryCommit_add (sc : ℕ) (f : Tid) (σ₀ σ : Store (Bucket Tid)) :
    tryCommit ((addFinalizerStm sc f).runOn σ₀ Txn.new).2 σ
      = if (σ sc).ver = (σ₀ sc).ver then
          some (setCell σ sc (if f ∈ (σ₀ sc).value then (σ₀ sc).value else (σ₀ sc).value ++ [f]))
        else none :=
  tryCommit_modifyStm sc _ σ₀ σ

omit [DecidableEq Tid] in
/-- The commit of a drain that read the bucket in `σ₀`. -/
theorem tryCommit_drain (sc : ℕ) (σ₀ σ : Store (Bucket Tid)) :
    tryCommit ((drainStm sc : Stm (Bucket Tid) (List Tid) Unit).runOn σ₀ Txn.new).2 σ
      = if (σ sc).ver = (σ₀ sc).ver then some (setCell σ sc []) else none :=
  tryCommit_modifyStm sc _ σ₀ σ

/-- What a close has taken out of the cells and not run yet. -/
def Phase.hand : Phase Tid → List Tid
  | .drained _ fs | .running fs => fs
  | _ => []

omit [DecidableEq Tid] in
theorem Phase.hand_of_early {ph : Phase Tid} (h : ph.early = true) : ph.hand = [] := by
  cases ph <;> first | rfl | cases h

omit [DecidableEq Tid] in
theorem Call.accepted_iff {c : Call Tid} : c.accepted = true ↔ ∃ sc, c = .addDone sc true := by
  unfold Call.accepted
  split <;> simp_all

/-- Where the finalizers are: those in a bucket or in the hand of a close were accepted for that
    scope, what is in a hand or has run is no longer in its cell, and nothing is there twice. A
    transaction under way has read the bucket as it is or as it was; if a drain has read it as it
    is, the cells of the bucket are empty. -/
structure FinInv (s : Sys Tid) : Prop where
  bucket : ∀ sc, ∀ t ∈ (s.buckets sc).value, s.calls t = .addDone sc true
  bucketNodup : ∀ sc, (s.buckets sc).value.Nodup
  hand : ∀ sc, ∀ t ∈ (s.phase sc).hand, s.calls t = .addDone sc true ∧ s.cell t = false ∧ t ∉ s.ran
  handNodup : ∀ sc, (s.phase sc).hand.Nodup
  ran : ∀ t ∈ s.ran, (s.calls t).accepted = true ∧ s.cell t = false
  ranNodup : s.ran.Nodup
  fresh : ∀ t, (s.calls t).accepted = false → s.cell t = true
  added : ∀ t sc txn, s.calls t = .added sc txn →
    ∃ σ₀, txn = ((addFinalizerStm sc t).runOn σ₀ Txn.new).2 ∧ ReadAt σ₀ s.buckets sc
  drained : ∀ sc txn fs, s.phase sc = .drained txn fs →
    ∃ σ₀, txn = ((drainStm sc).runOn σ₀ Txn.new).2 ∧ ReadAt σ₀ s.buckets sc ∧
      ((s.buckets sc).ver = (σ₀ sc).ver → ∀ t ∈ (s.buckets sc).value, s.cell t = false)

theorem finInv_init : FinInv (Sys.init : Sys Tid) where
  bucket := by simp [Sys.init]
  bucketNodup := by simp [Sys.init]
  hand := by simp [Sys.init, Phase.hand]
  handNodup := by simp [Sys.init, Phase.hand]
  ran := by simp [Sys.init]
  ranNodup := List.nodup_nil
  fresh := fun _ _ => rfl
  added := by simp [Sys.init]
  drained := by simp [Sys.init]

/-- Only accepted finalizers are in a bucket. -/
theorem FinInv.not_mem_bucket (hs : FinInv s) {t : Tid} {sc : ℕ}
    (h : s.calls t ≠ .addDone sc true) : t ∉ (s.buckets sc).value :=
  fun ht => h (hs.bucket sc t ht)

/-- Whoever has run stays accepted if acceptance is kept. -/
theorem FinInv.ran_of_keep (hs : FinInv s) {calls : Tid → Call Tid}
    (hkeep : ∀ u q, s.calls u = .addDone q true → calls u = .addDone q true) {t : Tid}
    (ht : t ∈ s.ran) : (calls t).accepted = true ∧ s.cell t = false := by
  obtain ⟨hacc, hcell⟩ := hs.ran t ht
  obtain ⟨q, hq⟩ := Call.accepted_iff.1 hacc
  exact ⟨Call.accepted_iff.2 ⟨q, hkeep t q hq⟩, hcell⟩

omit [DecidableEq Tid] in
/-- In a quiet step, whoever was accepted still is, and nobody else. -/
theorem Quiet.addDone_iff (hq : Quiet s s') (t : Tid) (sc : ℕ) :
    s'.calls t = .addDone sc true ↔ s.calls t = .addDone sc true := by
  rcases hq.calls t with h | ⟨h, h', -⟩
  · rw [h]
  · constructor
    · intro he
      rw [he] at h'
      cases h'
    · intro he
      rw [he] at h
      cases h

omit [DecidableEq Tid] in
theorem Quiet.hand_eq (hq : Quiet s s') (sc : ℕ) : (s'.phase sc).hand = (s.phase sc).hand := by
  rcases hq.phases sc with h | ⟨h, h'⟩
  · rw [h]
  · rw [Phase.hand_of_early h, Phase.hand_of_early h']

theorem FinInv.quiet (hs : FinInv s) (hq : Quiet s s') : FinInv s' where
  bucket := by
    intro sc t ht
    rw [hq.buckets] at ht
    exact (hq.addDone_iff t sc).2 (hs.bucket sc t ht)
  bucketNodup := by rw [hq.buckets]; exact hs.bucketNodup
  hand := by
    intro sc t ht
    rw [hq.hand_eq sc] at ht
    obtain ⟨hacc, hcell, hran⟩ := hs.hand sc t ht
    exact ⟨(hq.addDone_iff t sc).2 hacc, by rw [hq.cell]; exact hcell, by rw [hq.ran]; exact hran⟩
  handNodup := by
    intro sc
    rw [hq.hand_eq sc]
    exact hs.handNodup sc
  ran := by
    intro t ht
    rw [hq.ran] at ht
    rw [hq.cell]
    exact hs.ran_of_keep (fun u q => (hq.addDone_iff u q).2) ht
  ranNodup := by rw [hq.ran]; exact hs.ranNodup
  fresh := by
    intro t ht
    rw [hq.cell]
    refine hs.fresh t ?_
    rcases hq.calls t with h | ⟨h, -, -⟩
    · rwa [h] at ht
    · exact h
  added := by
    intro t sc txn ht
    rw [hq.buckets]
    rcases hq.calls t with h | ⟨-, -, h⟩
    · exact hs.added t sc txn (h ▸ ht)
    · rw [ht] at h
      cases h
  drained := by
    intro sc txn fs h
    rw [hq.buckets, hq.cell]
    rcases hq.phases sc with he | ⟨-, he⟩
    · exact hs.drained sc txn fs (he ▸ h)
    · rw [h] at he
      cases he

/-- A commit of `add_finalizer` appends to the bucket. -/
theorem FinInv.commit_eq (hs : FinInv s) {t : Tid} {sc : ℕ} {txn : Txn (Bucket Tid)}
    {σ : Store (Bucket Tid)} (h : s.calls t = .added sc txn)
    (hσ : tryCommit txn s.buckets = some σ) :
    σ = setCell s.buckets sc ((s.buckets sc).value ++ [t]) := by
  obtain ⟨σ₀, rfl, hread⟩ := hs.added t sc txn h
  rw [tryCommit_add] at hσ
  split at hσ
  · next hver =>
      -- the snapshot is still the bucket, and the finalizer is not in it
      have hnot : t ∉ (s.buckets sc).value := hs.not_mem_bucket (by rw [h]; nofun)
      rw [← hread.2 hver, if_neg hnot, Option.some.injEq] at hσ
      exact hσ.symm
  · cases hσ

/-- A commit of the drain empties a bucket whose cells are empty already. -/
theorem FinInv.drainCommit_eq (hs : FinInv s) {sc : ℕ} {txn : Txn (Bucket Tid)} {fs : List Tid}
    {σ : Store (Bucket Tid)} (h : s.phase sc = .drained txn fs)
    (hσ : tryCommit txn s.buckets = some σ) :
    σ = setCell s.buckets sc [] ∧ ∀ t ∈ (s.buckets sc).value, s.cell t = false := by
  obtain ⟨σ₀, rfl, -, hcells⟩ := hs.drained sc txn fs h
  rw [tryCommit_drain] at hσ
  split at hσ
  · next hver => exact ⟨(Option.some.inj hσ).symm, hcells hver⟩
  · cases hσ

omit [DecidableEq Tid] in
theorem setCell_value (σ : Store (Bucket Tid)) (sc q : ℕ) (v : List Tid) :
    (setCell σ sc v q).value = if q = sc then v else (σ q).value := by
  split
  · next h =>
      subst h
      rw [setCell_self]
      rfl
  · next h => rw [setCell_of_ne _ _ h]

theorem FinInv.attempt (hs : FinInv s) {t : Tid} {sc : ℕ} (h : s.calls t = .adding sc) :
    FinInv (s.setCall t (.added sc ((addFinalizerStm sc t).runOn s.buckets Txn.new).2)) := by
  have hacc : ∀ u q, (s.setCall t (.added sc ((addFinalizerStm sc t).runOn s.buckets
      Txn.new).2)).calls u = .addDone q true ↔ s.calls u = .addDone q true := by
    intro u q
    rw [setCall_calls]
    split
    · next hu => simp [hu, h]
    · rfl
  refine ⟨fun q u hu => (hacc u q).2 (hs.bucket q u hu), hs.bucketNodup, fun q u hu => ?_,
    hs.handNodup, fun u hu => ?_, hs.ranNodup, fun u hu => ?_, fun u q txn hu => ?_, hs.drained⟩
  · obtain ⟨h1, h2, h3⟩ := hs.hand q u hu
    exact ⟨(hacc u q).2 h1, h2, h3⟩
  · exact hs.ran_of_keep (fun u q => (hacc u q).2) hu
  · refine hs.fresh u ?_
    rw [setCall_calls] at hu
    split at hu
    · next he => rw [he, h]; rfl
    · exact hu
  · rw [setCall_calls] at hu
    split at hu
    · next he =>
        cases hu
        exact ⟨s.buckets, by rw [he], .refl _ _⟩
    · exact hs.added u q txn hu

theorem FinInv.commit (hs : FinInv s) (hw : ∀ q, (s.buckets q).ver.toNat + 1 < 2 ^ 64) {t : Tid}
    {sc : ℕ} {txn : Txn (Bucket Tid)} {σ : Store (Bucket Tid)} (h : s.calls t = .added sc txn)
    (hσ : tryCommit txn s.buckets = some σ) :
    FinInv ({ s with buckets := σ }.setCall t (.addDone sc true)) := by
  have hnew := hs.commit_eq h hσ
  have hkeep : ∀ u q, s.calls u = .addDone q true →
      ({ s with buckets := σ }.setCall t (.addDone sc true)).calls u = .addDone q true := by
    intro u q hu
    rw [setCall_calls, if_neg]
    · exact hu
    · rintro rfl
      rw [h] at hu
      cases hu
  have hnot : t ∉ (s.buckets sc).value := hs.not_mem_bucket (by rw [h]; nofun)
  refine ⟨fun q u hu => ?_, fun q => ?_, fun q u hu => ?_, hs.handNodup, fun u hu => ?_,
    hs.ranNodup, fun u hu => ?_, fun u q tx hu => ?_, fun q tx fs hq => ?_⟩
  · have hu : u ∈ (σ q).value := hu
    rw [hnew, setCell_value] at hu
    split at hu
    · next hq =>
        subst hq
        rcases List.mem_append.1 hu with hu | hu
        · exact hkeep u q (hs.bucket q u hu)
        · rw [List.mem_singleton.1 hu]
          simp
    · exact hkeep u q (hs.bucket q u hu)
  · show (σ q).value.Nodup
    rw [hnew, setCell_value]
    split
    · next hq =>
        rw [List.nodup_append]
        refine ⟨hs.bucketNodup sc, List.nodup_singleton t, fun a ha b hb => ?_⟩
        rw [List.mem_singleton.1 hb]
        exact fun he => hnot (he ▸ ha)
    · exact hs.bucketNodup q
  · obtain ⟨h1, h2, h3⟩ := hs.hand q u hu
    exact ⟨hkeep u q h1, h2, h3⟩
  · exact hs.ran_of_keep hkeep hu
  · refine hs.fresh u ?_
    rw [setCall_calls] at hu
    split at hu
    · next he => rw [he, h]; rfl
    · exact hu
  · rw [setCall_calls] at hu
    split at hu
    · cases hu
    · obtain ⟨σ₀, htx, hread⟩ := hs.added u q tx hu
      refine ⟨σ₀, htx, ?_⟩
      show ReadAt σ₀ σ q
      rw [hnew]
      exact hread.setCell sc (hw q) _
  · obtain ⟨σ₀, htx, hread, hcells⟩ := hs.drained q tx fs hq
    refine ⟨σ₀, htx, ?_, ?_⟩
    · show ReadAt σ₀ σ q
      rw [hnew]
      exact hread.setCell sc (hw q) _
    · show (σ q).ver = (σ₀ q).ver → ∀ t ∈ (σ q).value, s.cell t = false
      rw [hnew]
      by_cases hqs : q = sc
      -- a drain under way has read an older version of this bucket
      · subst hqs
        intro he
        have hlt := hread.older (hw q) ((s.buckets q).value ++ [t])
        rw [he] at hlt
        exact absurd hlt (Nat.lt_irrefl _)
      · rw [setCell_of_ne _ _ hqs]
        exact hcells

theorem FinInv.drain (hs : FinInv s) (sc : ℕ) :
    FinInv ({ s with cell := fun f => s.cell f && !decide (f ∈ (s.buckets sc).value) }.setPhase sc
      (.drained ((drainStm sc).runOn s.buckets Txn.new).2
        ((s.buckets sc).value.filter s.cell))) := by
  refine ⟨hs.bucket, hs.bucketNodup, fun q u hu => ?_, fun q => ?_, fun u hu => ?_, hs.ranNodup,
    fun u hu => ?_, hs.added, fun q tx fs hq => ?_⟩
  · rw [setPhase_phase] at hu
    show _ ∧ (s.cell u && !decide (u ∈ (s.buckets sc).value)) = false ∧ _
    split at hu
    · next hq =>
        subst hq
        obtain ⟨hmem, hcell⟩ := List.mem_filter.1 hu
        refine ⟨hs.bucket q u hmem, by simp [hmem], fun hran => ?_⟩
        simp [(hs.ran u hran).2] at hcell
    · obtain ⟨h1, h2, h3⟩ := hs.hand q u hu
      exact ⟨h1, by simp [h2], h3⟩
  · rw [setPhase_phase]
    split
    · exact (hs.bucketNodup sc).filter _
    · exact hs.handNodup q
  · obtain ⟨h1, h2⟩ := hs.ran u hu
    exact ⟨h1, by show (s.cell u && _) = false; simp [h2]⟩
  · have hnot : u ∉ (s.buckets sc).value := by
      refine hs.not_mem_bucket fun hacc => ?_
      have hu : (s.calls u).accepted = false := hu
      rw [hacc] at hu
      cases hu
    show (s.cell u && !decide (u ∈ (s.buckets sc).value)) = true
    simp [hs.fresh u hu, hnot]
  · show ∃ σ₀, _ ∧ _ ∧ (_ → ∀ t ∈ (s.buckets q).value,
      (s.cell t && !decide (t ∈ (s.buckets sc).value)) = false)
    rw [setPhase_phase] at hq
    split at hq
    · next he =>
        subst he
        cases hq
        exact ⟨s.buckets, rfl, .refl _ _, fun _ u hu => by simp [hu]⟩
    · obtain ⟨σ₀, htx, hread, hcells⟩ := hs.drained q tx fs hq
      exact ⟨σ₀, htx, hread, fun he u hu => by simp [hcells he u hu]⟩

/-- The hand of a close changes to a part of itself. -/
theorem FinInv.setPhase (hs : FinInv s) {sc : ℕ} {ph : Phase Tid}
    (hsub : ∀ t ∈ ph.hand, t ∈ (s.phase sc).hand) (hnd : ph.hand.Nodup)
    (hph : ∀ txn fs, ph ≠ .drained txn fs) : FinInv (s.setPhase sc ph) where
  bucket := hs.bucket
  bucketNodup := hs.bucketNodup
  hand := by
    intro q u hu
    rw [setPhase_phase] at hu
    split at hu
    · next hq =>
        subst hq
        exact hs.hand q u (hsub u hu)
    · exact hs.hand q u hu
  handNodup := by
    intro q
    rw [setPhase_phase]
    split
    · exact hnd
    · exact hs.handNodup q
  ran := hs.ran
  ranNodup := hs.ranNodup
  fresh := hs.fresh
  added := hs.added
  drained := by
    intro q tx fs hq
    rw [setPhase_phase] at hq
    split at hq
    · exact absurd hq (hph tx fs)
    · exact hs.drained q tx fs hq

theorem FinInv.drainCommit (hs : FinInv s) (hw : ∀ q, (s.buckets q).ver.toNat + 1 < 2 ^ 64) {sc : ℕ}
    {txn : Txn (Bucket Tid)} {fs : List Tid} {σ : Store (Bucket Tid)}
    (h : s.phase sc = .drained txn fs) (hσ : tryCommit txn s.buckets = some σ) :
    FinInv ({ s with buckets := σ }.setPhase sc (.running fs.reverse)) := by
  obtain ⟨hnew, -⟩ := hs.drainCommit_eq h hσ
  have hrun : FinInv (s.setPhase sc (.running fs.reverse)) := by
    refine hs.setPhase (fun t ht => ?_) ?_ (by simp)
    · rw [h]
      exact List.mem_reverse.1 ht
    · have hnd := hs.handNodup sc
      rw [h] at hnd
      exact List.nodup_reverse.2 hnd
  refine ⟨fun q u hu => ?_, fun q => ?_, hrun.hand, hrun.handNodup, hrun.ran, hrun.ranNodup,
    hrun.fresh, fun u q tx hu => ?_, fun q tx gs hq => ?_⟩
  · have hu : u ∈ (σ q).value := hu
    rw [hnew, setCell_value] at hu
    split at hu
    · cases hu
    · exact hs.bucket q u hu
  · show (σ q).value.Nodup
    rw [hnew, setCell_value]
    split
    · exact List.nodup_nil
    · exact hs.bucketNodup q
  · obtain ⟨σ₀, htx, hread⟩ := hs.added u q tx hu
    refine ⟨σ₀, htx, ?_⟩
    show ReadAt σ₀ σ q
    rw [hnew]
    exact hread.setCell sc (hw q) _
  · rw [setPhase_phase] at hq
    split at hq
    · cases hq
    · next hqs =>
        obtain ⟨σ₀, htx, hread, hcells⟩ := hs.drained q tx gs hq
        have hsame : σ q = s.buckets q := by rw [hnew, setCell_of_ne _ _ hqs]
        refine ⟨σ₀, htx, ?_, ?_⟩
        · show ReadAt σ₀ σ q
          unfold ReadAt
          rw [hsame]
          exact hread
        · show (σ q).ver = (σ₀ q).ver → ∀ t ∈ (σ q).value, s.cell t = false
          rw [hsame]
          exact hcells

theorem FinInv.runOne (hs : FinInv s) {sc : ℕ} {f : Tid} {fs : List Tid}
    (h : s.phase sc = .running (f :: fs)) :
    FinInv ({ s with ran := s.ran ++ [f] }.setPhase sc (.running fs)) := by
  obtain ⟨hacc, hcell, hran⟩ := hs.hand sc f (by rw [h]; exact List.mem_cons_self)
  have hnd := hs.handNodup sc
  rw [h] at hnd
  obtain ⟨hnot, hnd⟩ := List.nodup_cons.1 hnd
  refine ⟨hs.bucket, hs.bucketNodup, fun q u hu => ?_, fun q => ?_, fun u hu => ?_, ?_, hs.fresh,
    hs.added, fun q tx gs hq => ?_⟩
  · -- nobody else holds `f`: it was accepted for this scope, and is in hand once
    have hother : s.calls u = .addDone q true ∧ s.cell u = false ∧ u ∉ s.ran ∧ u ≠ f := by
      rw [setPhase_phase] at hu
      split at hu
      · next hq =>
          subst hq
          obtain ⟨h1, h2, h3⟩ := hs.hand q u (by rw [h]; exact List.mem_cons_of_mem _ hu)
          exact ⟨h1, h2, h3, fun he => hnot (he ▸ hu)⟩
      · next hq =>
          obtain ⟨h1, h2, h3⟩ := hs.hand q u hu
          refine ⟨h1, h2, h3, ?_⟩
          rintro rfl
          rw [hacc, Call.addDone.injEq] at h1
          exact hq h1.1.symm
    refine ⟨hother.1, hother.2.1, ?_⟩
    show u ∉ s.ran ++ [f]
    simp [hother.2.2.1, hother.2.2.2]
  · rw [setPhase_phase]
    split
    · exact hnd
    · exact hs.handNodup q
  · rcases List.mem_append.1 hu with hu | hu
    · exact hs.ran u hu
    · rw [List.mem_singleton.1 hu]
      exact ⟨Call.accepted_iff.2 ⟨sc, hacc⟩, hcell⟩
  · show (s.ran ++ [f]).Nodup
    rw [List.nodup_append]
    refine ⟨hs.ranNodup, List.nodup_singleton f, fun a ha b hb => ?_⟩
    rw [List.mem_singleton.1 hb]
    exact fun he => hran (he ▸ ha)
  · rw [setPhase_phase] at hq
    split at hq
    · cases hq
    · exact hs.drained q tx gs hq

/-- **Every step keeps the finalizers in their places.** -/
theorem FinInv.step (hs : FinInv s) (hw : NoWrap s l) (h : FinStep s l s') : FinInv s' := by
  cases h with
  | quiet hq hl => exact hs.quiet hq
  | attempt h => exact hs.attempt h
  | commit h hσ => exact hs.commit hw h hσ
  | drain h => exact hs.drain _
  | drainCommit h hσ => exact hs.drainCommit hw h hσ
  | drainAbort h hσ => exact hs.setPhase (by simp [Phase.hand]) List.nodup_nil (by simp)
  | runOne h => exact hs.runOne h
  | finish h => exact hs.setPhase (by simp [Phase.hand]) List.nodup_nil (by simp)

/-! ## When a finalizer is lost -/

/-- The drain is over. -/
def Phase.late : Phase Tid → Bool
  | .running _ | .done => true
  | _ => false

/-- The drain under way is going to commit. -/
def HandOk (s : Sys Tid) (sc : ℕ) : Prop :=
  ∀ txn fs, s.phase sc = .drained txn fs → (tryCommit txn s.buckets).isSome = true

/-- The finalizer has run, or is in the hand of a close that is going to run it, or in a bucket that
    is going to be drained. -/
def Pending (s : Sys Tid) (sc : ℕ) (t : Tid) : Prop :=
  t ∈ s.ran ∨ (t ∈ (s.phase sc).hand ∧ HandOk s sc) ∨
    (t ∈ (s.buckets sc).value ∧ s.cell t = true ∧ (s.phase sc).late = false)

def NotLost (sc : ℕ) (s : Sys Tid) : Prop := ∀ t, s.calls t = .addDone sc true → Pending s sc t

theorem handOk_congr (hs : FinInv s) {sc : ℕ} (hp : s'.phase sc = s.phase sc)
    (hb : s'.buckets sc = s.buckets sc) : HandOk s' sc ↔ HandOk s sc := by
  unfold HandOk
  rw [hp]
  refine forall_congr' fun txn => forall_congr' fun fs => imp_congr_right fun h => ?_
  obtain ⟨σ₀, rfl, -, -⟩ := hs.drained sc txn fs h
  rw [tryCommit_drain, tryCommit_drain, hb]
  split <;> rfl

theorem pending_congr (hs : FinInv s) {sc : ℕ} {t : Tid} (hr : t ∈ s'.ran ↔ t ∈ s.ran)
    (hp : s'.phase sc = s.phase sc) (hb : s'.buckets sc = s.buckets sc)
    (hc : s'.cell t = s.cell t) : Pending s' sc t ↔ Pending s sc t := by
  unfold Pending
  rw [hr, handOk_congr hs hp hb, hp, hb, hc]

omit [DecidableEq Tid] in
/-- While the close has not got to the drain, a finalizer is pending in its bucket. -/
theorem pending_of_early {sc : ℕ} {t : Tid} (h : (s.phase sc).early = true) :
    Pending s sc t ↔ t ∈ s.ran ∨ (t ∈ (s.buckets sc).value ∧ s.cell t = true) := by
  have hlate : (s.phase sc).late = false := by
    revert h
    cases s.phase sc <;> simp [Phase.early, Phase.late]
  unfold Pending
  rw [Phase.hand_of_early h, hlate]
  simp

omit [DecidableEq Tid] in
/-- Once the drain is over, only what is in hand is pending. -/
theorem pending_of_late {sc : ℕ} {t : Tid} (h : (s.phase sc).late = true) :
    Pending s sc t ↔ t ∈ s.ran ∨ t ∈ (s.phase sc).hand := by
  have hok : HandOk s sc := by
    intro txn fs hp
    rw [hp] at h
    cases h
  unfold Pending
  rw [h]
  simp [hok]

theorem Quiet.pending_iff (hs : FinInv s) (hq : Quiet s s') (sc : ℕ) (t : Tid) :
    Pending s' sc t ↔ Pending s sc t := by
  rcases hq.phases sc with h | ⟨h, h'⟩
  · exact pending_congr hs (by rw [hq.ran]) h (by rw [hq.buckets]) (by rw [hq.cell])
  · rw [pending_of_early h, pending_of_early h', hq.ran, hq.buckets, hq.cell]

omit [DecidableEq Tid] in
/-- Nothing changes for the accepted finalizers of `sc`, and nobody is accepted. -/
theorem notLost_of_kept {sc : ℕ} (hin : InTime sc s l)
    (hc : ∀ t, s'.calls t = .addDone sc true ↔ s.calls t = .addDone sc true)
    (hp : ∀ t, s.calls t = .addDone sc true → (Pending s' sc t ↔ Pending s sc t)) :
    NotLost sc s' ↔ NotLost sc s ∧ InTime sc s l := by
  rw [and_iff_left hin]
  refine forall_congr' fun t => ?_
  rw [hc t]
  exact imp_congr_right (hp t)

omit [DecidableEq Tid] in
/-- Two scopes do not share an accepted finalizer. -/
theorem addDone_ne {sc q : ℕ} {t u : Tid} (ht : s.calls t = .addDone sc true)
    (hu : s.calls u = .addDone q true) (h : q ≠ sc) : t ≠ u := by
  rintro rfl
  rw [ht, Call.addDone.injEq] at hu
  exact h hu.1.symm

/-- A commit makes any drain under way stale. -/
theorem drain_stale_of_commit (hs : FinInv s) (hw : ∀ q, (s.buckets q).ver.toNat + 1 < 2 ^ 64)
    {t : Tid} {sc : ℕ} {txn tx : Txn (Bucket Tid)} {σ : Store (Bucket Tid)} {fs : List Tid}
    (h : s.calls t = .added sc txn) (hσ : tryCommit txn s.buckets = some σ)
    (hp : s.phase sc = .drained tx fs) : tryCommit tx σ = none := by
  obtain ⟨σ₀, rfl, hread, -⟩ := hs.drained sc tx fs hp
  rw [tryCommit_drain, if_neg]
  intro he
  have hlt := hread.older (hw sc) ((s.buckets sc).value ++ [t])
  rw [← hs.commit_eq h hσ, he] at hlt
  exact absurd hlt (Nat.lt_irrefl _)

/-- After the commit of `t`, the finalizers a drain holds in its hands are lost. -/
theorem pending_commit (hs : FinInv s) (hw : ∀ q, (s.buckets q).ver.toNat + 1 < 2 ^ 64) {t : Tid}
    {sc : ℕ} {txn : Txn (Bucket Tid)} {σ : Store (Bucket Tid)} (h : s.calls t = .added sc txn)
    (hσ : tryCommit txn s.buckets = some σ) (u : Tid) :
    Pending ({ s with buckets := σ }.setCall t (.addDone sc true)) sc u ↔
      u ∈ s.ran ∨ (u ∈ (s.phase sc).hand ∧ ∀ tx fs, s.phase sc ≠ .drained tx fs) ∨
        (u ∈ (s.buckets sc).value ++ [t] ∧ s.cell u = true ∧ (s.phase sc).late = false) := by
  have hval : (σ sc).value = (s.buckets sc).value ++ [t] := by
    rw [hs.commit_eq h hσ, setCell_value, if_pos rfl]
  show u ∈ s.ran ∨ (u ∈ (s.phase sc).hand ∧ HandOk _ sc) ∨
    (u ∈ (σ sc).value ∧ s.cell u = true ∧ (s.phase sc).late = false) ↔ _
  rw [hval]
  refine or_congr_right (or_congr_left (and_congr_right fun _ => ?_))
  constructor
  · intro hok tx fs hp
    have hsome : (tryCommit tx σ).isSome = true := hok tx fs hp
    simp [drain_stale_of_commit hs hw h hσ hp] at hsome
  · intro hno tx fs hp
    exact absurd hp (hno tx fs)

theorem notLost_commit (hs : FinInv s) (hw : ∀ q, (s.buckets q).ver.toNat + 1 < 2 ^ 64) {t : Tid}
    {sc : ℕ} {txn : Txn (Bucket Tid)} {σ : Store (Bucket Tid)} (h : s.calls t = .added sc txn)
    (hσ : tryCommit txn s.buckets = some σ) :
    NotLost sc ({ s with buckets := σ }.setCall t (.addDone sc true)) ↔
      NotLost sc s ∧ (s.phase sc).Untouched := by
  have hpend := pending_commit hs hw h hσ
  have hcalls : ∀ u, u ≠ t →
      ({ s with buckets := σ }.setCall t (.addDone sc true)).calls u = s.calls u := by
    intro u hu
    rw [setCall_calls, if_neg hu]
  have hne : ∀ u, s.calls u = .addDone sc true → u ≠ t := by
    rintro u hu rfl
    rw [h] at hu
    cases hu
  constructor
  · intro hJ
    refine ⟨fun u hu => ?_, ?_⟩
    · rcases (hpend u).1 (hJ u (by rw [hcalls u (hne u hu)]; exact hu)) with
        hr | ⟨hm, hno⟩ | ⟨hm, hc⟩
      · exact Or.inl hr
      · exact Or.inr (Or.inl ⟨hm, fun tx fs hp => absurd hp (hno tx fs)⟩)
      · rw [List.mem_append, List.mem_singleton] at hm
        exact Or.inr (Or.inr ⟨hm.resolve_right (hne u hu), hc⟩)
    · have hlate : (s.phase sc).late = false := by
        rcases (hpend t).1 (hJ t (by simp)) with hr | ⟨hm, -⟩ | ⟨-, -, hl⟩
        · have hacc := (hs.ran t hr).1
          simp [h, Call.accepted] at hacc
        · exact absurd rfl (hne t (hs.hand sc t hm).1)
        · exact hl
      cases hp : s.phase sc with
      | drained tx fs =>
          -- a finalizer in the hands of the drain would be lost
          show fs = []
          by_contra hnil
          obtain ⟨f, hf⟩ := List.exists_mem_of_ne_nil fs hnil
          obtain ⟨hacc, hcell, hnr⟩ := hs.hand sc f (by rw [hp]; exact hf)
          rcases (hpend f).1 (hJ f (by rw [hcalls f (hne f hacc)]; exact hacc)) with
            hr | ⟨-, hno⟩ | ⟨-, hc, -⟩
          · exact hnr hr
          · exact hno tx fs hp
          · rw [hcell] at hc
            cases hc
      | running fs => simp [hp, Phase.late] at hlate
      | done => simp [hp, Phase.late] at hlate
      | _ => trivial
  · rintro ⟨hJ, hU⟩ u hu
    rw [hpend]
    by_cases hut : u = t
    · subst hut
      refine Or.inr (Or.inr ⟨by simp, hs.fresh u (by rw [h]; rfl), ?_⟩)
      revert hU
      cases s.phase sc <;> simp [Phase.Untouched, Phase.late]
    · rw [hcalls u hut] at hu
      rcases hJ u hu with hr | ⟨hm, -⟩ | ⟨hm, hc⟩
      · exact Or.inl hr
      · refine Or.inr (Or.inl ⟨hm, fun tx fs hp => ?_⟩)
        rw [hp] at hU hm
        have hnil : fs = [] := hU
        subst hnil
        cases hm
      · exact Or.inr (Or.inr ⟨List.mem_append_left _ hm, hc⟩)

/-- The steps of the drain itself lose nothing that was not lost before. -/
theorem pending_drain (hs : FinInv s) {sc : ℕ} (h : s.phase sc = .draining) (q : ℕ) (t : Tid)
    (ht : s.calls t = .addDone q true) :
    Pending ({ s with cell := fun f => s.cell f && !decide (f ∈ (s.buckets sc).value) }.setPhase sc
      (.drained ((drainStm sc).runOn s.buckets Txn.new).2
        ((s.buckets sc).value.filter s.cell))) q t ↔ Pending s q t := by
  by_cases hq : q = sc
  · subst hq
    rw [pending_of_early (s := s) (by rw [h]; rfl)]
    have hok : HandOk ({ s with
        cell := fun f => s.cell f && !decide (f ∈ (s.buckets q).value) }.setPhase q
        (.drained ((drainStm q).runOn s.buckets Txn.new).2
          ((s.buckets q).value.filter s.cell))) q := by
      intro txn fs hp
      rw [setPhase_phase, if_pos rfl] at hp
      cases hp
      show (tryCommit _ s.buckets).isSome = true
      rw [tryCommit_drain, if_pos rfl]
      rfl
    simp only [Pending, hok, and_true, setPhase_phase, if_true]
    show t ∈ s.ran ∨ t ∈ (s.buckets q).value.filter s.cell ∨ (t ∈ (s.buckets q).value ∧
      (s.cell t && !decide (t ∈ (s.buckets q).value)) = true ∧ _) ↔ _
    refine or_congr_right ?_
    rw [List.mem_filter]
    refine or_iff_left ?_
    rintro ⟨hm, hc, -⟩
    simp [hm] at hc
  · refine pending_congr hs Iff.rfl ?_ rfl ?_
    · rw [setPhase_phase, if_neg hq]
    · have hnot : t ∉ (s.buckets sc).value := fun hm =>
        addDone_ne ht (hs.bucket sc t hm) (Ne.symm hq) rfl
      show (s.cell t && !decide (t ∈ (s.buckets sc).value)) = s.cell t
      simp [hnot]

theorem pending_drainCommit (hs : FinInv s) {sc : ℕ} {txn : Txn (Bucket Tid)} {fs : List Tid}
    {σ : Store (Bucket Tid)} (h : s.phase sc = .drained txn fs)
    (hσ : tryCommit txn s.buckets = some σ) (q : ℕ) (t : Tid) :
    Pending ({ s with buckets := σ }.setPhase sc (.running fs.reverse)) q t ↔ Pending s q t := by
  obtain ⟨hnew, hcells⟩ := hs.drainCommit_eq h hσ
  by_cases hq : q = sc
  · subst hq
    have hok : HandOk s q := by
      intro tx gs hp
      rw [h] at hp
      cases hp
      rw [hσ]
      rfl
    rw [pending_of_late (by rw [setPhase_phase, if_pos rfl]; rfl), setPhase_phase, if_pos rfl]
    show t ∈ s.ran ∨ t ∈ fs.reverse ↔ t ∈ s.ran ∨ (t ∈ (s.phase q).hand ∧ HandOk s q) ∨ _
    rw [h, List.mem_reverse]
    refine or_congr_right ?_
    constructor
    · exact fun hm => Or.inl ⟨hm, hok⟩
    · rintro (⟨hm, -⟩ | ⟨hm, hc, -⟩)
      · exact hm
      · rw [hcells t hm] at hc
        cases hc
  · refine pending_congr hs Iff.rfl ?_ ?_ rfl
    · rw [setPhase_phase, if_neg hq]
    · show σ q = s.buckets q
      rw [hnew, setCell_of_ne _ _ hq]

theorem pending_drainAbort (hs : FinInv s) {sc : ℕ} {txn : Txn (Bucket Tid)} {fs : List Tid}
    (h : s.phase sc = .drained txn fs) (hσ : tryCommit txn s.buckets = none) (q : ℕ) (t : Tid) :
    Pending (s.setPhase sc .draining) q t ↔ Pending s q t := by
  by_cases hq : q = sc
  · subst hq
    have hnot : ¬ HandOk s q := by
      intro hok
      have hsome := hok txn fs h
      simp [hσ] at hsome
    rw [pending_of_early (by rw [setPhase_phase, if_pos rfl]; rfl)]
    show t ∈ s.ran ∨ (t ∈ (s.buckets q).value ∧ s.cell t = true) ↔ _
    simp [Pending, hnot, h, Phase.late]
  · exact pending_congr hs Iff.rfl (by rw [setPhase_phase, if_neg hq]) rfl rfl

theorem pending_runOne (hs : FinInv s) {sc : ℕ} {f : Tid} {fs : List Tid}
    (h : s.phase sc = .running (f :: fs)) (q : ℕ) (t : Tid) (ht : s.calls t = .addDone q true) :
    Pending ({ s with ran := s.ran ++ [f] }.setPhase sc (.running fs)) q t ↔ Pending s q t := by
  have hf := (hs.hand sc f (by rw [h]; exact List.mem_cons_self)).1
  by_cases hq : q = sc
  · subst hq
    rw [pending_of_late (by rw [setPhase_phase, if_pos rfl]; rfl), setPhase_phase, if_pos rfl,
      pending_of_late (s := s) (by rw [h]; rfl), h]
    show t ∈ s.ran ++ [f] ∨ t ∈ fs ↔ t ∈ s.ran ∨ t ∈ f :: fs
    simp [or_assoc]
  · have hne : t ≠ f := addDone_ne ht hf (Ne.symm hq)
    refine pending_congr hs ?_ (by rw [setPhase_phase, if_neg hq]) rfl rfl
    show t ∈ s.ran ++ [f] ↔ _
    simp [hne]

theorem pending_finish (hs : FinInv s) {sc : ℕ} (h : s.phase sc = .running []) (q : ℕ) (t : Tid) :
    Pending (s.setPhase sc .done) q t ↔ Pending s q t := by
  by_cases hq : q = sc
  · subst hq
    rw [pending_of_late (by rw [setPhase_phase, if_pos rfl]; rfl), setPhase_phase, if_pos rfl,
      pending_of_late (s := s) (by rw [h]; rfl), h]
    rfl
  · exact pending_congr hs Iff.rfl (by rw [setPhase_phase, if_neg hq]) rfl rfl

/-- **One step.** A step loses a finalizer of `sc` exactly if it commits one into the bucket of `sc`
    after the drain has taken something. -/
theorem notLost_step (hs : FinInv s) (hw : NoWrap s l) (h : FinStep s l s') (sc : ℕ) :
    NotLost sc s' ↔ NotLost sc s ∧ InTime sc s l := by
  cases h with
  | quiet hq hl =>
      have hin : InTime sc s l := by
        cases l with
        | step t =>
            intro txn ht hsome
            rw [hl t sc txn rfl ht] at hsome
            cases hsome
        | _ => trivial
      exact notLost_of_kept hin (fun t => hq.addDone_iff t sc) fun t _ => hq.pending_iff hs sc t
  | @attempt t q h =>
      have hin : InTime sc s (.step t) := by
        intro txn ht
        rw [h] at ht
        cases ht
      refine notLost_of_kept hin (fun u => ?_) fun u _ => Iff.rfl
      rw [setCall_calls]
      split
      · next hu => simp [hu, h]
      · rfl
  | @commit t q txn σ h hσ =>
      by_cases hq : q = sc
      · subst hq
        rw [notLost_commit hs hw h hσ]
        exact and_congr_right fun _ => ⟨fun hU _ _ _ => hU, fun hin => hin txn h (by rw [hσ]; rfl)⟩
      · have hin : InTime sc s (.step t) := by
          intro tx ht
          rw [h, Call.added.injEq] at ht
          exact absurd ht.1 hq
        have hnew := hs.commit_eq h hσ
        refine notLost_of_kept hin (fun u => ?_) fun u _ => ?_
        · rw [setCall_calls]
          split
          · next hu => simp [hu, h, hq]
          · rfl
        · refine pending_congr hs Iff.rfl rfl ?_ rfl
          show σ sc = s.buckets sc
          rw [hnew, setCell_of_ne _ _ (Ne.symm hq)]
  | drain h =>
      exact notLost_of_kept trivial (fun _ => Iff.rfl) fun t ht => pending_drain hs h sc t ht
  | drainCommit h hσ =>
      exact notLost_of_kept trivial (fun _ => Iff.rfl) fun t _ => pending_drainCommit hs h hσ sc t
  | drainAbort h hσ =>
      exact notLost_of_kept trivial (fun _ => Iff.rfl) fun t _ => pending_drainAbort hs h hσ sc t
  | runOne h =>
      exact notLost_of_kept trivial (fun _ => Iff.rfl) fun t ht => pending_runOne hs h sc t ht
  | finish h =>
      exact notLost_of_kept trivial (fun _ => Iff.rfl) fun t _ => pending_finish hs h sc t

/-! ## Whole runs -/

/-- Once the close is over, finalizers have run once exactly if none was lost. -/
theorem FinInv.runOnce_iff (hs : FinInv s) {sc : ℕ} (hdone : s.phase sc = .done) :
    RunOnce s sc ↔ NotLost sc s := by
  have hpend : ∀ t, Pending s sc t ↔ t ∈ s.ran := by
    intro t
    rw [pending_of_late (by rw [hdone]; rfl), hdone]
    exact or_iff_left List.not_mem_nil
  have hrefused : ∀ t, s.calls t = .addDone sc false → s.ran.count t = 0 := by
    intro t ht
    rw [List.count_eq_zero]
    intro hr
    simpa [ht, Call.accepted] using (hs.ran t hr).1
  unfold RunOnce
  rw [and_iff_left hrefused]
  refine forall_congr' fun t => imp_congr_right fun _ => ?_
  rw [hpend, hs.ranNodup.count]
  split <;> simp_all

theorem finInv_run {ls : List (Label Tid)} (hw : Along Sys.step NoWrap Sys.init ls)
    (hrun : run Sys.step Sys.init ls = some s) : FlagOk s ∧ FinInv s :=
  run_invariant_along (I := fun s => FlagOk s ∧ FinInv s)
    (fun _ _ _ hs hw h => ⟨hs.1.step (.of_step h), hs.2.step hw (.of_step hs.1 (.of_step h))⟩)
    ⟨flagOk_init, finInv_init⟩ hw hrun

/-- **Finalizers run exactly once, exactly if they are added in time.** In every run in which the
    close of a scope has come to its end, each finalizer accepted for the scope has run once, and
    none that was refused has run, if and only if no `add_finalizer` committed its finalizer after
    the drain had taken something. -/
theorem finalizers_run_once_iff (ls : List (Label Tid)) (s : Sys Tid) (sc : ℕ)
    (hrun : run Sys.step Sys.init ls = some s) (hw : Along Sys.step NoWrap Sys.init ls)
    (hdone : s.phase sc = .done) : RunOnce s sc ↔ Along Sys.step (InTime sc) Sys.init ls := by
  have hiff := run_iff_along (I := fun s : Sys Tid => FlagOk s ∧ FinInv s) (J := NotLost sc)
    (fun _ _ _ hs hw h => ⟨hs.1.step (.of_step h), hs.2.step hw (.of_step hs.1 (.of_step h))⟩)
    (fun _ _ _ hs hw h => notLost_step hs.2 hw (.of_step hs.1 (.of_step h)) sc)
    ⟨flagOk_init, finInv_init⟩ hw hrun
  have h0 : NotLost sc (Sys.init : Sys Tid) := fun _ h => by cases h
  rw [(finInv_run hw hrun).2.runOnce_iff hdone, hiff]
  exact and_iff_right h0

/-- A step commits at most once. -/
theorem Step.ver_le (h : Step s l s') (sc : ℕ) :
    (s'.buckets sc).ver.toNat ≤ (s.buckets sc).ver.toNat + 1 := by
  have hcommit : ∀ {txn : Txn (Bucket Tid)} {σ : Store (Bucket Tid)},
      tryCommit txn s.buckets = some σ → (σ sc).ver.toNat ≤ (s.buckets sc).ver.toNat + 1 := by
    intro txn σ hσ
    rcases tryCommit_follows hσ sc with h | ⟨v, h⟩
    · rw [h]
      exact Nat.le_succ _
    · rw [h, Cell.write, UInt64.toNat_add]
      exact Nat.mod_le _ _
  cases h with
  | commit h hσ => exact hcommit hσ
  | drainCommit h hσ => exact hcommit hσ
  | _ => exact Nat.le_succ _

/-- A run of fewer than `2 ^ 64 - 1` steps wraps no version around. -/
theorem along_noWrap (ls : List (Label Tid)) : ∀ (n : ℕ) (s : Sys Tid),
    (∀ sc, (s.buckets sc).ver.toNat ≤ n) → n + ls.length < 2 ^ 64 → Along Sys.step NoWrap s ls := by
  induction ls with
  | nil => exact fun _ _ _ _ => trivial
  | cons l ls ih =>
      intro n s hver hlen
      rw [List.length_cons] at hlen
      refine ⟨fun sc => ?_, fun s' h => ih (n + 1) s' (fun sc => ?_) (by omega)⟩
      · have := hver sc
        omega
      · have := (Step.of_step h).ver_le sc
        have := hver sc
        omega

/-- A test for a step of a run in which no close has begun yet where an `add_finalizer` commits. -/
def addsEarly (s : Sys ℕ) : Label ℕ → Bool
  | .step t =>
      match s.calls t, s.phase 0 with
      | .added _ _, .idle => true
      | .added _ _, _ => false
      | _, _ => true
  | _ => true

theorem inTime_of_addsEarly {s : Sys ℕ} {l : Label ℕ} (h : addsEarly s l = true) :
    InTime 0 s l := by
  unfold InTime
  cases l with
  | step t =>
      intro txn hcall _
      unfold addsEarly at h
      simp only [hcall] at h
      cases hphase : s.phase 0 with
      | idle => trivial
      | _ => simp [hphase] at h
  | _ => trivial

/-- The scope 0 is closed and two finalizers have run. -/
def ranBoth (s : Sys ℕ) : Bool := (s.phase 0).isDone && s.ran == [1, 0]

/-- Two finalizers are added before the scope is closed, and run last in, first out. -/
theorem finalizers_run_once_iff_two : ∃ s : Sys ℕ,
    run Sys.step Sys.init [.make, .addFinalizer 0 0, .step 0, .step 0, .step 0, .step 0,
      .addFinalizer 1 0, .step 1, .step 1, .step 1, .step 1, .close 9 0, .step 9, .closer 0,
      .closer 0, .closer 0, .closer 0, .closer 0, .closer 0, .closer 0, .step 9] = some s ∧
    s.ran = [1, 0] ∧ RunOnce s 0 := by
  have hearly : Along Sys.step (fun s l => addsEarly s l = true) Sys.init [.make,
      .addFinalizer 0 0, .step 0, .step 0, .step 0, .step 0, .addFinalizer 1 0, .step 1, .step 1,
      .step 1, .step 1, .close 9 0, .step 9, .closer 0, .closer 0, .closer 0, .closer 0, .closer 0,
      .closer 0, .closer 0, .step 9] := by decide +kernel
  obtain ⟨s, hrun, hran⟩ : ∃ s, run Sys.step Sys.init [.make, .addFinalizer 0 0, .step 0, .step 0,
      .step 0, .step 0, .addFinalizer 1 0, .step 1, .step 1, .step 1, .step 1, .close 9 0, .step 9,
      .closer 0, .closer 0, .closer 0, .closer 0, .closer 0, .closer 0, .closer 0, .step 9] =
        some s ∧ ranBoth s = true := exists_run _ (by decide +kernel)
  rw [ranBoth, Bool.and_eq_true, beq_iff_eq] at hran
  have hdone : s.phase 0 = .done := by
    cases hphase : s.phase 0 <;> simp [hphase, Phase.isDone] at hran ⊢
  exact ⟨s, hrun, hran.2, (finalizers_run_once_iff _ s 0 hrun
    (along_noWrap _ 0 _ (fun _ => Nat.le_refl _) (by decide)) hdone).2
      (hearly.imp fun _ _ => inTime_of_addsEarly)⟩

end IdEffect.Scope
