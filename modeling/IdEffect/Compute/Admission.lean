import Mathlib.Algebra.Ring.Nat
import Mathlib.Order.Nat
import IdEffect.Lib.Gauge
import IdEffect.Lib.Transition

set_option autoImplicit false

/-! # Admission permits under a moving target

`AdmissionController` keeps the free permits in one atomic counter. `try_acquire` lowers it and
`release` raises it, each with a load and a compare-exchange, and `rebalance`, which the supervisor
runs on every tick, overwrites it by what the host load allows. What is overwritten is the number of
free permits, and those that are held are not asked for: so there are never too many permits as long
as no target is set that takes no account of them (`MakesRoom`), and there are too many from the
first one on that does not. -/

namespace IdEffect.Compute

open Transition

/-- The free permits, in an atomic counter, and the limit. -/
structure AdmissionController where
  permits : ℕ
  maxPermits : ℕ
  deriving DecidableEq, Repr

/-- What a snapshot says under a policy: no headroom, or some, and then
    `ceil(max_permits * headroom / 0.25)` as a number. -/
inductive Headroom where
  | exhausted
  | left (scaled : ℕ)
  deriving DecidableEq, Repr

/-- One `try_acquire` and, if it is successful, the work it lets in and the `release` after that. -/
inductive Call where
  | loading
  | swapping (current : ℕ)
  | refused
  | holding
  | reloading
  | raising (current : ℕ)
  | released
  deriving DecidableEq, Repr

/-- The permit is acquired and not yet released. -/
def Call.holds : Call → Bool
  | .holding | .reloading | .raising _ => true
  | .loading | .swapping _ | .refused | .released => false

/-- `clamp` panics if the bounds are the wrong way round. -/
def clamp (n lo hi : ℕ) : Option ℕ :=
  if lo ≤ hi then some (max lo (min n hi)) else none

namespace AdmissionController

def new (initial maxPermits : ℕ) : AdmissionController := ⟨min initial maxPermits, maxPermits⟩

variable (ac : AdmissionController)

/-- One step of `try_acquire`: the load, or the weak compare-exchange, which may also fail for no
    reason. -/
def tryAcquire (spurious : Bool) : Call → Option (Call × AdmissionController)
  | .loading => some (if ac.permits = 0 then .refused else .swapping ac.permits, ac)
  | .swapping current =>
      if ac.permits = current ∧ spurious = false then
        some (.holding, { ac with permits := current - 1 })
      else some (.loading, ac)
  | _ => none

/-- One step of `release`. The sum wraps around as a `usize` does. -/
def release (spurious : Bool) : Call → Option (Call × AdmissionController)
  | .reloading => some (.raising ac.permits, ac)
  | .raising current =>
      if ac.permits = current ∧ spurious = false then
        some (.released, { ac with permits := min ((current + 1) % 2 ^ 64) ac.maxPermits })
      else some (.reloading, ac)
  | _ => none

def desired (minPermits : ℕ) : Headroom → Option ℕ
  | .exhausted => some minPermits
  | .left scaled => clamp scaled minPermits ac.maxPermits

/-- The counter is overwritten, if the target can be computed. -/
def rebalance (minPermits : ℕ) (headroom : Headroom) : AdmissionController :=
  { ac with permits := (ac.desired minPermits headroom).getD ac.permits }

/-- What a tick of the supervisor asks for at least, by whether its spread bucket is empty. -/
def tickMinPermits (throttled : Bool) : ℕ :=
  max (if throttled then 1 else max ac.maxPermits 1 / 2) 1

def tick (throttled : Bool) (headroom : Headroom) : AdmissionController :=
  ac.rebalance (ac.tickMinPermits throttled) headroom

end AdmissionController

/-- A controller, and all calls that were made. -/
structure Admission where
  controller : AdmissionController
  calls : List Call
  deriving DecidableEq, Repr

/-- A new `try_acquire`, the `release` that call `i` owes, a step of call `i`, a rebalance or a
    tick. -/
inductive Label where
  | acquire
  | release (i : ℕ)
  | step (i : ℕ) (spurious : Bool)
  | rebalance (minPermits : ℕ) (headroom : Headroom)
  | tick (throttled : Bool) (headroom : Headroom)
  deriving DecidableEq, Repr

namespace Admission

def init (ac : AdmissionController) : Admission := ⟨ac, []⟩

def held (s : Admission) : ℕ := s.calls.countP Call.holds

/-- Call `i` goes on as `x` says. -/
def advance (s : Admission) (i : ℕ) (x : Call × AdmissionController) : Admission :=
  ⟨x.2, s.calls.set i x.1⟩

def step (s : Admission) : Label → Option Admission
  | .acquire => some { s with calls := s.calls ++ [.loading] }
  | .release i =>
      if s.calls[i]? = some .holding then some (s.advance i (.reloading, s.controller)) else none
  | .step i spurious =>
      s.calls[i]?.bind fun call =>
        ((s.controller.tryAcquire spurious call).or (s.controller.release spurious call)).map
          (s.advance i)
  | .rebalance minPermits headroom =>
      some { s with controller := s.controller.rebalance minPermits headroom }
  | .tick throttled headroom => some { s with controller := s.controller.tick throttled headroom }

/-- What there may be at any time: no more permits than the limit, those that are held among
    them. -/
structure Within (s : Admission) : Prop where
  held : s.held ≤ s.controller.maxPermits
  total : s.controller.permits + s.held ≤ s.controller.maxPermits

instance (s : Admission) : Decidable s.Within :=
  decidable_of_iff (s.held ≤ s.controller.maxPermits
      ∧ s.controller.permits + s.held ≤ s.controller.maxPermits)
    ⟨fun h => ⟨h.1, h.2⟩, fun h => ⟨h.held, h.total⟩⟩

/-- There is room for the permits that are held beside the least and beside the scaled target. With
    headroom nothing is set if the least one exceeds the limit. -/
def HasRoom (s : Admission) (minPermits : ℕ) : Headroom → Prop
  | .exhausted => minPermits + s.held ≤ s.controller.maxPermits
  | .left scaled =>
      minPermits ≤ s.controller.maxPermits →
        minPermits + s.held ≤ s.controller.maxPermits
          ∧ (s.held = 0 ∨ scaled + s.held ≤ s.controller.maxPermits)

instance (s : Admission) (minPermits : ℕ) (headroom : Headroom) :
    Decidable (s.HasRoom minPermits headroom) :=
  match headroom with
  | .exhausted => inferInstanceAs (Decidable (_ ≤ _))
  | .left _ => inferInstanceAs (Decidable (_ → _))

/-- A target is set only if there is room for it. -/
def MakesRoom (s : Admission) : Label → Prop
  | .rebalance minPermits headroom => s.HasRoom minPermits headroom
  | .tick throttled headroom => s.HasRoom (s.controller.tickMinPermits throttled) headroom
  | .acquire | .release _ | .step _ _ => True

instance (s : Admission) (l : Label) : Decidable (s.MakesRoom l) :=
  match l with
  | .rebalance _ _ | .tick _ _ => inferInstanceAs (Decidable (HasRoom ..))
  | .acquire | .release _ | .step _ _ => inferInstanceAs (Decidable True)

/-! ## What a step does to the permits -/

/-- A permit is taken, given back, or the number of free ones is set; or nothing happens to them. -/
inductive Move (l : Label) (s s' : Admission) : Prop where
  | stay (hroom : s.MakesRoom l) (controller : s'.controller = s.controller)
      (held : s'.held = s.held)
  | take (hroom : s.MakesRoom l) (n : ℕ) (hn : n + 1 = s.controller.permits)
      (controller : s'.controller = { s.controller with permits := n })
      (held : s'.held = s.held + 1)
  | give (hroom : s.MakesRoom l) (n : ℕ) (hn : n ≤ s.controller.permits + 1)
      (controller : s'.controller = { s.controller with permits := n })
      (held : s'.held + 1 = s.held)
  | set (minPermits : ℕ) (headroom : Headroom)
      (hroom : s.MakesRoom l ↔ s.HasRoom minPermits headroom)
      (controller : s'.controller = s.controller.rebalance minPermits headroom)
      (held : s'.held = s.held)

variable {s s' : Admission} {l : Label} {i : ℕ} {call : Call} {spurious : Bool}
variable {x : Call × AdmissionController}

/-- Who compares has seen a permit. -/
def Seen (s : Admission) : Prop := ∀ current, Call.swapping current ∈ s.calls → 0 < current

theorem held_advance (h : s.calls[i]? = some call) (x : Call × AdmissionController) :
    (s.advance i x).held + call.holds.toNat = s.held + x.1.holds.toNat :=
  Gauge.countP_set Call.holds h x.1

theorem move_tryAcquire (hseen : s.Seen) (h : s.calls[i]? = some call)
    (hx : s.controller.tryAcquire spurious call = some x) :
    Move (.step i spurious) s (s.advance i x) := by
  have hheld := held_advance h x
  cases call with
  | loading =>
      obtain rfl := Option.some.inj hx
      refine .stay trivial rfl ?_
      by_cases h0 : s.controller.permits = 0
      · simpa [h0, Call.holds] using hheld
      · simpa [h0, Call.holds] using hheld
  | swapping current =>
      have hpos : 0 < current := hseen current (List.mem_of_getElem? h)
      rw [AdmissionController.tryAcquire] at hx
      split at hx
      · next hsame =>
          obtain rfl := Option.some.inj hx
          refine .take trivial (current - 1) ?_ rfl (by simpa [Call.holds] using hheld)
          omega
      · obtain rfl := Option.some.inj hx
        exact .stay trivial rfl (by simpa [Call.holds] using hheld)
  | refused | holding | reloading | raising _ | released => cases hx

theorem move_release (h : s.calls[i]? = some call)
    (hx : s.controller.release spurious call = some x) :
    Move (.step i spurious) s (s.advance i x) := by
  have hheld := held_advance h x
  cases call with
  | reloading =>
      obtain rfl := Option.some.inj hx
      exact .stay trivial rfl (by simpa [Call.holds] using hheld)
  | raising current =>
      rw [AdmissionController.release] at hx
      split at hx
      · next hsame =>
          obtain rfl := Option.some.inj hx
          refine .give trivial _ ?_ rfl (by simpa [Call.holds] using hheld)
          calc min ((current + 1) % 2 ^ 64) s.controller.maxPermits ≤ (current + 1) % 2 ^ 64 :=
                Nat.min_le_left ..
            _ ≤ current + 1 := Nat.mod_le ..
            _ = s.controller.permits + 1 := by rw [hsame.1]
      · obtain rfl := Option.some.inj hx
        exact .stay trivial rfl (by simpa [Call.holds] using hheld)
  | loading | swapping _ | refused | holding | released => cases hx

theorem Move.of_step (hseen : s.Seen) (h : step s l = some s') : Move l s s' := by
  cases l with
  | acquire =>
      obtain rfl := Option.some.inj h
      refine .stay trivial rfl ?_
      rw [held, held, List.countP_append]
      rfl
  | release i =>
      rw [step] at h
      split at h
      · next hcall =>
          obtain rfl := Option.some.inj h
          refine .stay trivial rfl ?_
          simpa [Call.holds] using held_advance hcall (.reloading, s.controller)
      · cases h
  | step i spurious =>
      obtain ⟨call, hcall, h⟩ := Option.bind_eq_some_iff.1 h
      obtain ⟨x, hx, rfl⟩ := Option.map_eq_some_iff.1 h
      rcases Option.or_eq_some_iff.1 hx with hx | ⟨-, hx⟩
      · exact move_tryAcquire hseen hcall hx
      · exact move_release hcall hx
  | rebalance minPermits headroom =>
      obtain rfl := Option.some.inj h
      exact .set minPermits headroom Iff.rfl rfl rfl
  | tick throttled headroom =>
      obtain rfl := Option.some.inj h
      exact .set (s.controller.tickMinPermits throttled) headroom Iff.rfl rfl rfl

/-! ## Whole runs -/

theorem Seen.advance (hseen : s.Seen) (hx : ∀ current, x.1 = .swapping current → 0 < current) :
    (s.advance i x).Seen := by
  intro current hmem
  rcases List.mem_or_eq_of_mem_set hmem with hmem | heq
  · exact hseen current hmem
  · exact hx current heq.symm

theorem Seen.step (hseen : s.Seen) (h : step s l = some s') : s'.Seen := by
  cases l with
  | acquire =>
      obtain rfl := Option.some.inj h
      intro current hmem
      rcases List.mem_append.1 hmem with hmem | hmem
      · exact hseen current hmem
      · cases List.mem_singleton.1 hmem
  | release i =>
      rw [Admission.step] at h
      split at h
      · obtain rfl := Option.some.inj h
        exact hseen.advance fun _ heq => by cases heq
      · cases h
  | step i spurious =>
      obtain ⟨call, -, h⟩ := Option.bind_eq_some_iff.1 h
      obtain ⟨⟨c, ac⟩, hx, rfl⟩ := Option.map_eq_some_iff.1 h
      refine hseen.advance fun current heq => ?_
      obtain rfl : c = .swapping current := heq
      -- only the load of `try_acquire` leads there, and it has found a permit
      cases call with
      | loading =>
          have hc := (Prod.mk.inj (Option.some.inj hx)).1
          split at hc
          · cases hc
          · next h0 =>
              obtain rfl := Call.swapping.inj hc
              exact Nat.pos_of_ne_zero h0
      | swapping _ | raising _ =>
          simp only [AdmissionController.tryAcquire, AdmissionController.release] at hx
          split at hx <;> cases hx
      | reloading | refused | holding | released => cases hx
  | rebalance _ _ | tick _ _ =>
      obtain rfl := Option.some.inj h
      exact hseen

theorem rebalance_le_iff {minPermits : ℕ} {headroom : Headroom} (h : s.Within) :
    (s.controller.rebalance minPermits headroom).permits + s.held ≤ s.controller.maxPermits
      ↔ s.HasRoom minPermits headroom := by
  have hheld := h.held
  have htotal := h.total
  cases headroom with
  | exhausted => exact Iff.rfl
  | left scaled =>
      simp only [AdmissionController.rebalance, AdmissionController.desired, clamp, HasRoom]
      split
      · rw [Option.getD_some]
        omega
      · rw [Option.getD_none]
        omega

/-- The bound on all permits is a bound on those that are held. -/
theorem within_iff :
    s.Within ↔ s.controller.permits + s.held ≤ s.controller.maxPermits :=
  ⟨Within.total, fun h => ⟨Nat.le_trans (Nat.le_add_left ..) h, h⟩⟩

theorem Move.within_iff (hmove : Move l s s') (h : s.Within) : s'.Within ↔ s.MakesRoom l := by
  have htotal := h.total
  rw [Admission.within_iff]
  cases hmove with
  | stay hroom hcontroller hheld =>
      rw [hcontroller, hheld]
      exact iff_of_true htotal hroom
  | take hroom n hn hcontroller hheld =>
      rw [hcontroller, hheld]
      exact iff_of_true (show n + (s.held + 1) ≤ s.controller.maxPermits by omega) hroom
  | give hroom n hn hcontroller hheld =>
      rw [hcontroller]
      exact iff_of_true (show n + s'.held ≤ s.controller.maxPermits by omega) hroom
  | set minPermits headroom hroom hcontroller hheld =>
      rw [hroom, hcontroller, hheld]
      exact rebalance_le_iff h

/-- **Admission control never over-admits as long as every target leaves room for what is held**,
    and does so from the first target on that does not. -/
theorem within_iff_makesRoom {initial maxPermits : ℕ} {ls : List Label} {s' : Admission}
    (hrun : run step (init (.new initial maxPermits)) ls = some s') :
    Throughout step Within (init (.new initial maxPermits)) ls
      ↔ Along step MakesRoom (init (.new initial maxPermits)) ls := by
  refine throughout_iff_along (I := Seen) (fun _ _ _ hseen _ _ h => hseen.step h)
    (fun _ _ _ hseen hwithin h => (Move.of_step hseen h).within_iff hwithin) ?_ ?_ hrun
  · exact fun _ hmem => absurd hmem List.not_mem_nil
  · exact ⟨Nat.zero_le _, Nat.min_le_right ..⟩

/-- A permit of two is held when the load calls for one, and for two when it is given back. -/
theorem within_iff_makesRoom_two :
    Throughout step Within (init (.new 2 2))
      [.acquire, .step 0 false, .step 0 true, .step 0 false, .step 0 false, .tick false .exhausted,
        .release 0, .step 0 false, .step 0 false, .rebalance 1 (.left 9)] := by
  have hrun : run step (init (.new 2 2))
      [.acquire, .step 0 false, .step 0 true, .step 0 false, .step 0 false, .tick false .exhausted,
        .release 0, .step 0 false, .step 0 false, .rebalance 1 (.left 9)]
      = some ⟨⟨2, 2⟩, [.released]⟩ := rfl
  exact (within_iff_makesRoom hrun).2 (by decide)

/-- The supervisor raises the target to the limit while the only permit is held, and a second one is
    acquired. -/
theorem not_always_within :
    ¬ ∀ (initial maxPermits : ℕ) (ls : List Label) (s' : Admission),
      run step (init (.new initial maxPermits)) ls = some s' →
        Throughout step Within (init (.new initial maxPermits)) ls := by
  intro h
  have hrun := h 1 1 [.acquire, .step 0 false, .step 0 false, .tick false (.left 1), .acquire,
    .step 1 false, .step 1 false] ⟨⟨0, 1⟩, [.holding, .holding]⟩ rfl
  exact absurd (hrun.last rfl).held (by decide)

end Admission

end IdEffect.Compute
