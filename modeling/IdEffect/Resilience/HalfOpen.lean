import IdEffect.Resilience.CircuitBreaker

set_option autoImplicit false

/-! # The probe of a half-open breaker

The call that moves a breaker to `HalfOpen` is to be the only one that is let through until it has
set the state again. But `HalfOpen` lets every call through like `Closed`, and a call that was let
through earlier may start its effect at any time. So the probe is single in the runs in which nobody
comes across it (`Undisturbed`): then whoever has been let through and not started is the probe
itself, and so is whoever starts. -/

namespace IdEffect.Resilience

open Calls Transition

variable {A E : Type}

namespace Breaker

/-- While a probe is in progress, the effects that were started since are its own; it does not end
    without having set the state; and a call that reads the state meanwhile never starts its effect
    and is rejected. -/
structure SingleProbe (s : Sys Cells Unit (Phase A E) (Outcome A E)) : Prop where
  since : ∀ p u, s.store.probing = some p → u ∈ s.store.since → u = p
  settles : ∀ p q r, s.store.probing = some p → s.calls p ≠ .done q r
  unstarted : ∀ t found, seen (s.calls t) = some found → found.meanwhile = true →
    found.started = none
  rejected : ∀ t q found r, s.calls t = .done q (found, r) → found.meanwhile = true →
    r = .error .left

/-- A probe is begun by a call that has not read the state during another one, when no probe is in
    progress and everyone who was let through has started; while it is, the state is read as `Open`
    by others, and found as it was set by the probe. -/
def Undisturbed (cells : Cells) (t : ℕ) (phase : Phase A E) (_ : Event A E) : Prop :=
  match phase with
  | .reading => cells.probing.isSome = true → cells.state = .opened
  | .halving found => cells.probing = none ∧ cells.admitted = [] ∧ found.meanwhile = false
  | .rereading _ _ => cells.probing = some t → cells.state = .halfOpen
  | _ => True

instance (cells : Cells) (t : ℕ) (phase : Phase A E) (event : Event A E) :
    Decidable (Undisturbed cells t phase event) :=
  match phase with
  | .reading | .rereading _ _ => inferInstanceAs (Decidable (_ → _))
  | .halving _ => inferInstanceAs (Decidable (_ ∧ _ ∧ _))
  | .checking _ | .admitted _ | .running _ | .succeeded _ _ | .closing _ _ | .failed _ _
  | .opening _ _ | .stamping _ _ => inferInstanceAs (Decidable True)

/-- Everyone who was let through, or has started since, is the probe. -/
def OnlyProbe (cells : Cells) : Prop :=
  ∀ p, cells.probing = some p → (∀ u ∈ cells.admitted, u = p) ∧ ∀ u ∈ cells.since, u = p

/-- What a call knows of the probe: whether it can be the probe itself, and that it is not let
    through if it has read the state during a probe. -/
def Aware (t : ℕ) (status : Status Unit (Phase A E) (Outcome A E)) (cells : Cells) : Prop :=
  match status with
  | .idle | .running _ .reading => cells.probing ≠ some t
  | .running _ (.checking found) | .running _ (.halving found) =>
      cells.probing ≠ some t ∧ found.started = none
  | .running _ (.admitted found) => t ∈ cells.admitted ∧ found.meanwhile = false
  | .running _ (.running found) | .running _ (.succeeded found _)
  | .running _ (.closing found _) | .running _ (.failed found _)
  | .running _ (.opening found _) | .running _ (.stamping found _)
  | .running _ (.rereading found _) => found.meanwhile = false
  | .done _ (found, r) => cells.probing ≠ some t
      ∧ (found.meanwhile = false ∨ found.started = none ∧ r = .error .left)

variable {breaker : Breaker} {cells cells' : Cells} {t : ℕ} {phase : Phase A E} {event : Event A E}
variable {x : Phase A E ⊕ Outcome A E}

theorem Aware.mono {status : Status Unit (Phase A E) (Outcome A E)} (h : Aware t status cells)
    (hprobing : cells.probing ≠ some t → cells'.probing ≠ some t)
    (hadmitted : t ∈ cells.admitted → t ∈ cells'.admitted) : Aware t status cells' := by
  match status, h with
  | .idle, h | .running _ .reading, h => exact hprobing h
  | .running _ (.checking _), h | .running _ (.halving _), h => exact ⟨hprobing h.1, h.2⟩
  | .running _ (.admitted _), h => exact ⟨hadmitted h.1, h.2⟩
  | .running _ (.running _), h | .running _ (.succeeded _ _), h | .running _ (.closing _ _), h
  | .running _ (.failed _ _), h | .running _ (.opening _ _), h | .running _ (.stamping _ _), h
  | .running _ (.rereading _ _), h => exact h
  | .done _ (_, _), h => exact ⟨hprobing h.1, h.2⟩

theorem settle_ne (cells : Cells) (t : ℕ) : cells.settle t ≠ some t := by
  rw [Cells.settle]
  split_ifs with h
  · exact fun heq => by cases heq
  · exact h

theorem settle_eq_some {p : ℕ} (h : cells.settle t = some p) : cells.probing = some p := by
  rw [Cells.settle] at h
  split_ifs at h
  exact h

/-- A step of `t` does not make another call the probe, nor takes it out of those let through. -/
theorem Access.others (h : Access breaker t event cells phase x cells') {u : ℕ} (hu : u ≠ t) :
    (cells.probing ≠ some u → cells'.probing ≠ some u)
      ∧ (u ∈ cells.admitted → u ∈ cells'.admitted) := by
  have hsettle : cells.probing ≠ some u → cells.settle t ≠ some u :=
    fun hne heq => hne (settle_eq_some heq)
  cases h with
  | letThrough _ => exact ⟨id, List.mem_cons_of_mem _⟩
  | halved => exact ⟨fun _ heq => hu (Option.some.inj heq).symm, List.mem_cons_of_mem _⟩
  | started => exact ⟨id, fun hmem => List.mem_filter.mpr ⟨hmem, decide_eq_true hu⟩⟩
  | closed | stamped => exact ⟨hsettle, id⟩
  | foundOpen _ | rejected _ | cooled _ _ | succeeded _ | failed _ | reset | reached _ | below _
  | opened | reopens _ | reported _ => exact ⟨id, id⟩

theorem OnlyProbe.access (h : OnlyProbe cells) (hc : Aware t (.running () phase) cells)
    (haccess : Access breaker t event cells phase x cells')
    (hguard : Undisturbed cells t phase event) :
    OnlyProbe { cells' with now := event.time } := by
  cases haccess with
  | letThrough hstate =>
      -- during a probe the call is not let through
      exact fun p hp => absurd (hguard (Option.isSome_iff_exists.mpr ⟨p, hp⟩)) hstate
  | halved =>
      rintro p hp
      obtain rfl := Option.some.inj hp
      refine ⟨fun u hu => ?_, fun u hu => absurd hu List.not_mem_nil⟩
      rcases List.mem_cons.mp hu with rfl | hu
      · rfl
      · rw [hguard.2.1] at hu
        cases hu
  | started =>
      intro p hp
      obtain ⟨hadmitted, hsince⟩ := h p hp
      refine ⟨fun u hu => hadmitted u (List.mem_of_mem_filter hu), fun u hu => ?_⟩
      have hprobing : cells.probing.isSome = true := Option.isSome_iff_exists.mpr ⟨p, hp⟩
      simp only [if_pos hprobing] at hu
      rcases List.mem_cons.mp hu with rfl | hu
      · exact hadmitted _ hc.1
      · exact hsince u hu
  | closed | stamped => exact fun p hp => h p (settle_eq_some hp)
  | foundOpen _ | rejected _ | cooled _ _ | succeeded _ | failed _ | reset | reached _ | below _
  | opened | reopens _ | reported _ => exact h

theorem Aware.access (h : Aware t (.running () phase) cells)
    (haccess : Access breaker t event cells phase x cells')
    (hguard : Undisturbed cells t phase event) :
    Aware t (.next () x) { cells' with now := event.time } := by
  cases haccess with
  | foundOpen _ => exact ⟨h, rfl⟩
  | letThrough hstate =>
      have hmeanwhile : cells.probing.isSome = false :=
        Bool.eq_false_iff.mpr fun hsome => hstate (hguard hsome)
      exact ⟨List.mem_cons_self .., hmeanwhile⟩
  | rejected _ => exact ⟨h.1, .inr ⟨h.2, rfl⟩⟩
  | halved => exact ⟨List.mem_cons_self .., hguard.2.2⟩
  | started => exact h.2
  | closed | stamped => exact ⟨settle_ne cells t, .inl h⟩
  | reported hstate => exact ⟨fun hp => hstate (hguard hp), .inl h⟩
  | cooled _ _ | succeeded _ | failed _ | reset | reached _ | below _ | opened | reopens _ =>
      exact h

theorem keepsOn_undisturbed :
    (breaker.machine (A := A) (E := E)).KeepsOn Undisturbed OnlyProbe Aware := by
  refine ⟨fun _ _ _ h => h, fun t q phase event x cells cells' hI hc hguard hstep => ?_⟩
  obtain ⟨-, cells'', haccess, rfl⟩ := step_cases hstep
  refine ⟨hI.access hc haccess hguard, hc.access haccess hguard, fun u status hu hstatus => ?_⟩
  obtain ⟨hprobing, hadmitted⟩ := haccess.others hu
  exact hstatus.mono hprobing hadmitted

/-- A call that read the state during a probe is not let through. -/
theorem Aware.unstarted {status : Status Unit (Phase A E) (Outcome A E)} {found : Seen}
    (h : Aware t status cells) (hseen : seen status = some found)
    (hmeanwhile : found.meanwhile = true) : found.started = none := by
  have hnot : ∀ {found' : Seen}, found'.meanwhile = false → some found' = some found →
      found.started = none := by
    intro found' hfalse heq
    obtain rfl := Option.some.inj heq
    rw [hmeanwhile] at hfalse
    cases hfalse
  match status, h, hseen with
  | .running _ (.checking _), h, hseen | .running _ (.halving _), h, hseen =>
      exact Option.some.inj hseen ▸ h.2
  | .running _ (.admitted _), h, hseen => exact hnot h.2 hseen
  | .running _ (.running _), h, hseen | .running _ (.succeeded _ _), h, hseen
  | .running _ (.closing _ _), h, hseen | .running _ (.failed _ _), h, hseen
  | .running _ (.opening _ _), h, hseen | .running _ (.stamping _ _), h, hseen
  | .running _ (.rereading _ _), h, hseen => exact hnot h hseen
  | .done _ (_, _), ⟨_, .inl h⟩, hseen => exact hnot h hseen
  | .done _ (_, _), ⟨_, .inr h⟩, hseen => exact Option.some.inj hseen ▸ h.1

/-- **Half-open admits a single probe** in every run in which the probes are not disturbed. -/
theorem single_probe (breaker : Breaker) (ls : List (Label Unit (Event A E)))
    (s : Sys Cells Unit (Phase A E) (Outcome A E))
    (hrun : run breaker.machine.sysStep (Sys.init .make) ls = some s)
    (hguard : Along breaker.machine.sysStep (Machine.guardOf Undisturbed) (Sys.init .make) ls) :
    SingleProbe s := by
  have hinit : Machine.Knows OnlyProbe Aware
      (Sys.init .make : Sys Cells Unit (Phase A E) (Outcome A E)) :=
    ⟨fun _ hp => (by cases hp), fun _ hp => (by cases hp)⟩
  have hs := keepsOn_undisturbed.run hinit hguard hrun
  refine ⟨fun p u hp => (hs.store p hp).2 u, fun p q r hp hdone => ?_,
    fun t found => (hs.calls t).unstarted, fun t q found r hdone hmeanwhile => ?_⟩
  · have hc := hs.calls p
    rw [hdone] at hc
    exact hc.1 hp
  · have hc := hs.calls t
    rw [hdone] at hc
    rcases hc.2 with hnot | ⟨-, hr⟩
    · rw [hmeanwhile] at hnot
      cases hnot
    · exact hr

/-- The first call opens the breaker, the second probes it after the cooldown, and the third comes
    while the probe runs. -/
def secondProbe : List (Label Unit (Event Unit Unit)) :=
  [.call 0 (), .step 0 ⟨0, .ok ()⟩, .step 0 ⟨0, .ok ()⟩, .step 0 ⟨1, .error ()⟩,
    .step 0 ⟨1, .ok ()⟩, .step 0 ⟨1, .ok ()⟩, .step 0 ⟨1, .ok ()⟩,
    .call 1 (), .step 1 ⟨20, .ok ()⟩, .step 1 ⟨20, .ok ()⟩, .step 1 ⟨20, .ok ()⟩,
    .step 1 ⟨20, .ok ()⟩,
    .call 2 (), .step 2 ⟨21, .ok ()⟩, .step 2 ⟨21, .ok ()⟩]

/-- It is let through as well. -/
theorem two_probes :
    ∃ s, run tenUnits.machine.sysStep (Sys.init .make) secondProbe = some s
      ∧ s.store.probing = some 1 ∧ s.store.since = [2, 1] ∧ ¬ SingleProbe s := by
  have hlast : (run tenUnits.machine.sysStep (Sys.init .make) secondProbe).map
      (fun s => (s.store.probing, s.store.since)) = some (some 1, [2, 1]) := by decide +kernel
  obtain ⟨s, hrun, hcells⟩ := exists_run _ hlast
  obtain ⟨hprobing, hsince⟩ := Prod.mk.inj hcells
  refine ⟨s, hrun, hprobing, hsince, fun h => ?_⟩
  have htwo := h.since 1 2 hprobing (by rw [hsince]; exact List.mem_cons_self ..)
  exact absurd htwo (by decide)

/-- A probe that nobody comes across. -/
def loneProbe : List (Label Unit (Event Unit Unit)) :=
  [.call 0 (), .step 0 ⟨0, .ok ()⟩, .step 0 ⟨0, .ok ()⟩, .step 0 ⟨1, .error ()⟩,
    .step 0 ⟨1, .ok ()⟩, .step 0 ⟨1, .ok ()⟩, .step 0 ⟨1, .ok ()⟩,
    .call 1 (), .step 1 ⟨20, .ok ()⟩, .step 1 ⟨20, .ok ()⟩, .step 1 ⟨20, .ok ()⟩,
    .step 1 ⟨20, .ok ()⟩]

theorem single_probe_alone :
    ∃ s, run tenUnits.machine.sysStep (Sys.init .make) loneProbe = some s
      ∧ s.store.probing = some 1 ∧ s.store.since = [1] ∧ SingleProbe s := by
  have hlast : (run tenUnits.machine.sysStep (Sys.init .make) loneProbe).map
      (fun s => (s.store.probing, s.store.since)) = some (some 1, [1]) := by decide +kernel
  obtain ⟨s, hrun, hcells⟩ := exists_run _ hlast
  obtain ⟨hprobing, hsince⟩ := Prod.mk.inj hcells
  exact ⟨s, hrun, hprobing, hsince, single_probe tenUnits loneProbe s hrun (by decide +kernel)⟩

end Breaker

end IdEffect.Resilience
