import Mathlib.Algebra.Ring.Nat
import Mathlib.Order.Nat
import IdEffect.Lib.Gauge
import IdEffect.Lib.Transition

set_option autoImplicit false

/-! # A service with a limit on its calls

`EffectService::with_max_in_flight` lets a call in with a permit of a semaphore, which the service
takes in `poll_ready` and hands to the future that `call` returns. The future raises a shared
counter, runs the handler, and lowers the counter. The permit is released when its owner is dropped,
however that comes about; the counter is only lowered by a future that is driven to its end.

So the system is a `Gauge`: every step is one of its moves (`step_move`), and the handlers that run
have permits. The counter is right up to the first future that is dropped between its two updates,
and never again after that. -/

namespace IdEffect.Tower

open Transition

/-- `tokio::sync::Semaphore::MAX_PERMITS`, with more of which there is no semaphore. -/
def maxPermits : ℕ := 2 ^ 61 - 1

def u64Max : ℕ := 2 ^ 64 - 1

def saturatingAdd (n m : ℕ) : ℕ := min (n + m) u64Max

/-- The free permits of the semaphore, and the value of the counter. -/
structure ServiceLimit where
  sem : ℕ
  inFlight : ℕ
  deriving DecidableEq, Repr

/-- What the semaphore answers in one poll: `try_acquire_owned` has a permit, or else the future of
    `acquire_owned` has one, or it has not. It is never closed. -/
inductive Acquire where
  | atOnce
  | awaited
  | pending
  deriving DecidableEq, Repr

inductive Poll where
  | ready
  | pending
  deriving DecidableEq, Repr

/-- What is not shared by the clones of a service: whether it has metrics, and its permits. -/
structure EffectService where
  requestMetrics : Bool
  readyPermit : Bool
  pendingAcquire : Bool
  deriving DecidableEq, Repr

/-- The future of a call, by what it awaits: nothing yet or the lock of the counter, the handler,
    the error counter, and the lock of the counter again. -/
inductive CallFuture (Res E : Type) where
  | created (metrics : Bool)
  | handling (metrics : Bool)
  | recording (result : Except E Res)
  | releasing (result : Except E Res)
  | completed (result : Except E Res)
  | dropped

namespace ServiceLimit

/-- Zero permits, or too many, are a panic. -/
def new (maxInFlight : ℕ) : Option ServiceLimit :=
  if 0 < maxInFlight ∧ maxInFlight ≤ maxPermits then some ⟨maxInFlight, 0⟩ else none

/-- A permit is granted if one is free. -/
def acquire (lim : ServiceLimit) : Option ServiceLimit :=
  if 0 < lim.sem then some { lim with sem := lim.sem - 1 } else none

def release (lim : ServiceLimit) : ServiceLimit := { lim with sem := lim.sem + 1 }

def update (lim : ServiceLimit) (f : ℕ → ℕ) : ServiceLimit :=
  { lim with inFlight := f lim.inFlight }

end ServiceLimit

namespace EffectService

/-- `none` if the semaphore cannot answer so. -/
def pollReadyLimited (svc : EffectService) (lim : ServiceLimit) (answer : Acquire) :
    Option (Poll × EffectService × ServiceLimit) :=
  if svc.readyPermit then some (.ready, svc, lim)
  else
    match answer with
    | .atOnce | .awaited =>
        lim.acquire.map fun lim' =>
          (.ready, { svc with readyPermit := true, pendingAcquire := false }, lim')
    | .pending => some (.pending, { svc with pendingAcquire := true }, lim)

/-- A clone has no permit and does not wait for one. -/
def clone (svc : EffectService) : EffectService :=
  { svc with readyPermit := false, pendingAcquire := false }

def withRequestMetrics (svc : EffectService) : EffectService := { svc with requestMetrics := true }

/-- Without a permit `call` panics. -/
def call {Res E : Type} (svc : EffectService) : Option (EffectService × CallFuture Res E) :=
  if svc.readyPermit then some ({ svc with readyPermit := false }, .created svc.requestMetrics)
  else none

variable {svc svc' : EffectService} {lim lim' : ServiceLimit}

/-- A poll leaves the permits alone, or it takes one. -/
theorem pollReadyLimited_cases {answer : Acquire} {poll : Poll}
    (h : svc.pollReadyLimited lim answer = some (poll, svc', lim')) :
    (svc'.readyPermit = svc.readyPermit ∧ lim' = lim)
      ∨ (svc.readyPermit = false ∧ svc'.readyPermit = true ∧ lim.acquire = some lim') := by
  have hacquire : svc.readyPermit = false →
      (lim.acquire.map fun lim' => (Poll.ready,
        ({ svc with readyPermit := true, pendingAcquire := false } : EffectService), lim'))
        = some (poll, svc', lim') →
      svc.readyPermit = false ∧ svc'.readyPermit = true ∧ lim.acquire = some lim' := by
    intro hready hmap
    obtain ⟨lim'', hlim, heq⟩ := Option.map_eq_some_iff.mp hmap
    cases heq
    exact ⟨hready, rfl, hlim⟩
  unfold pollReadyLimited at h
  split_ifs at h with hready
  · cases h
    exact .inl ⟨rfl, rfl⟩
  · rw [Bool.not_eq_true] at hready
    cases answer with
    | atOnce => exact .inr (hacquire hready h)
    | awaited => exact .inr (hacquire hready h)
    | pending =>
        cases h
        exact .inl ⟨rfl, rfl⟩

end EffectService

namespace CallFuture

variable {Res E : Type}

/-- The handler has ended: an error is recorded if there are metrics. -/
def handled (metrics : Bool) (result : Except E Res) : CallFuture Res E :=
  match result, metrics with
  | .error _, true => .recording result
  | _, _ => .releasing result

/-- To the next await that waits, the handler ending with `result`. The last part, from the update
    of the counter to the end, has no await. -/
def poll (lim : ServiceLimit) (result : Except E Res) :
    CallFuture Res E → Option (CallFuture Res E × ServiceLimit)
  | .created metrics => some (.handling metrics, lim.update (saturatingAdd · 1))
  | .handling metrics => some (handled metrics result, lim)
  | .recording result => some (.releasing result, lim)
  | .releasing result => some (.completed result, (lim.update (· - 1)).release)
  | .completed _ | .dropped => none

/-- A future that is dropped drops its permit. -/
def drop (lim : ServiceLimit) : CallFuture Res E → Option (CallFuture Res E × ServiceLimit)
  | .completed _ | .dropped => none
  | .created _ | .handling _ | .recording _ | .releasing _ => some (.dropped, lim.release)

/-- The call is outstanding. -/
def holdsPermit : CallFuture Res E → Bool
  | .created _ | .handling _ | .recording _ | .releasing _ => true
  | .completed _ | .dropped => false

/-- It has passed its increment and has neither completed nor been dropped. -/
def counted : CallFuture Res E → Bool
  | .handling _ | .recording _ | .releasing _ => true
  | .created _ | .completed _ | .dropped => false

def handlerRuns : CallFuture Res E → Bool
  | .handling _ => true
  | _ => false

variable {future future' : CallFuture Res E} {lim lim' : ServiceLimit}

theorem holdsPermit_of_counted (h : future.counted = true) : future.holdsPermit = true := by
  cases future with
  | handling _ => rfl
  | recording _ => rfl
  | releasing _ => rfl
  | created _ => cases h
  | completed _ => cases h
  | dropped => cases h

theorem counted_of_not_holdsPermit (h : future.holdsPermit = false) : future.counted = false :=
  eq_false_of_ne_true fun hcounted =>
    absurd (holdsPermit_of_counted hcounted) (ne_true_of_eq_false h)

theorem counted_of_handlerRuns (h : future.handlerRuns = true) : future.counted = true := by
  cases future with
  | handling _ => rfl
  | created _ => cases h
  | recording _ => cases h
  | releasing _ => cases h
  | completed _ => cases h
  | dropped => cases h

theorem handled_counted (metrics : Bool) (result : Except E Res) :
    (handled metrics result).counted = true := by
  unfold handled
  split <;> rfl

/-- A poll raises the counter, or goes on, or lowers the counter and releases the permit. -/
theorem poll_cases {result : Except E Res} (h : future.poll lim result = some (future', lim')) :
    (future.holdsPermit = true ∧ future.counted = false ∧ future'.counted = true
        ∧ lim' = lim.update (saturatingAdd · 1))
      ∨ (future.counted = true ∧ future'.counted = true ∧ lim' = lim)
      ∨ (future.counted = true ∧ future'.holdsPermit = false
          ∧ lim' = (lim.update (· - 1)).release) := by
  cases future with
  | created metrics =>
      cases h
      exact .inl ⟨rfl, rfl, rfl, rfl⟩
  | handling metrics =>
      cases h
      exact .inr (.inl ⟨rfl, handled_counted metrics _, rfl⟩)
  | recording result =>
      cases h
      exact .inr (.inl ⟨rfl, rfl, rfl⟩)
  | releasing result =>
      cases h
      exact .inr (.inr ⟨rfl, rfl, rfl⟩)
  | completed result => cases h
  | dropped => cases h

theorem drop_cases (h : future.drop lim = some (future', lim')) :
    future.holdsPermit = true ∧ future' = .dropped ∧ lim' = lim.release := by
  cases future with
  | completed result => cases h
  | dropped => cases h
  | created metrics | handling metrics | recording result | releasing result =>
      cases h
      exact ⟨rfl, rfl, rfl⟩

end CallFuture

/-- The service and its clones, which may be dropped, and the futures of their calls. -/
structure Sys (Res E : Type) where
  limit : ServiceLimit
  services : List (Option EffectService)
  futures : List (CallFuture Res E)

inductive Label (Res E : Type) where
  | withRequestMetrics (i : ℕ)
  | clone (i : ℕ)
  | dropService (i : ℕ)
  | pollReady (i : ℕ) (answer : Acquire)
  | call (i : ℕ)
  | poll (t : ℕ) (result : Except E Res)
  | dropFuture (t : ℕ)

namespace Sys

variable {Res E : Type}

def withMaxInFlight (maxInFlight : ℕ) : Option (Sys Res E) :=
  (ServiceLimit.new maxInFlight).map fun limit => ⟨limit, [some ⟨false, false, false⟩], []⟩

def service (s : Sys Res E) (i : ℕ) : Option EffectService := (s.services[i]?).join

def setService (s : Sys Res E) (i : ℕ) (svc : EffectService) : Sys Res E :=
  { s with services := s.services.set i (some svc) }

def step (s : Sys Res E) : Label Res E → Option (Sys Res E)
  | .withRequestMetrics i => do
      let svc ← s.service i
      return s.setService i svc.withRequestMetrics
  | .clone i => do
      let svc ← s.service i
      return { s with services := s.services ++ [some svc.clone] }
  | .dropService i => do
      let svc ← s.service i
      return { s with
        limit := if svc.readyPermit then s.limit.release else s.limit
        services := s.services.set i none }
  | .pollReady i answer => do
      let svc ← s.service i
      let (_, svc', limit') ← svc.pollReadyLimited s.limit answer
      return { s.setService i svc' with limit := limit' }
  | .call i => do
      let svc ← s.service i
      let (svc', future) ← svc.call
      return { s.setService i svc' with futures := s.futures ++ [future] }
  | .poll t result => do
      let future ← s.futures[t]?
      let (future', limit') ← future.poll s.limit result
      return { s with limit := limit', futures := s.futures.set t future' }
  | .dropFuture t => do
      let future ← s.futures[t]?
      let (future', limit') ← future.drop s.limit
      return { s with limit := limit', futures := s.futures.set t future' }

/-! ## The tally -/

/-- The service has a permit for its next call. -/
def reserved : Option EffectService → Bool
  | some svc => svc.readyPermit
  | none => false

def outstanding (s : Sys Res E) : ℕ := s.futures.countP CallFuture.holdsPermit

def counted (s : Sys Res E) : ℕ := s.futures.countP CallFuture.counted

def handlers (s : Sys Res E) : ℕ := s.futures.countP CallFuture.handlerRuns

theorem counted_le_outstanding (s : Sys Res E) : s.counted ≤ s.outstanding :=
  List.countP_mono_left fun _ _ => CallFuture.holdsPermit_of_counted

theorem handlers_le_counted (s : Sys Res E) : s.handlers ≤ s.counted :=
  List.countP_mono_left fun _ _ => CallFuture.counted_of_handlerRuns

def tally (s : Sys Res E) : Gauge.Tally where
  free := s.limit.sem
  held := s.services.countP reserved + s.outstanding
  entered := s.counted
  gauge := s.limit.inFlight
  entered_le := s.counted_le_outstanding.trans (Nat.le_add_left ..)

/-- No future is dropped between its two updates of the counter. -/
def Undisturbed (s : Sys Res E) : Label Res E → Prop
  | .dropFuture t => ∀ future ∈ s.futures[t]?, future.counted = false
  | _ => True

instance (s : Sys Res E) : ∀ l : Label Res E, Decidable (s.Undisturbed l)
  | .dropFuture t =>
      inferInstanceAs (Decidable (∀ future ∈ s.futures[t]?, CallFuture.counted future = false))
  | .withRequestMetrics _ | .clone _ | .dropService _ | .pollReady _ _ | .call _ | .poll _ _ =>
      .isTrue trivial

variable {s s' : Sys Res E} {i t : ℕ} {lim lim' : ServiceLimit}

theorem services_of_service {svc : EffectService} (h : s.service i = some svc) :
    s.services[i]? = some (some svc) := Option.join_eq_some_iff.mp h

/-- Replacing a service moves its permit in the tally, and nothing else. -/
theorem countP_setService {svc : EffectService} (h : s.service i = some svc)
    (svc' : EffectService) :
    (s.setService i svc').services.countP reserved + svc.readyPermit.toNat
      = s.services.countP reserved + svc'.readyPermit.toNat :=
  Gauge.countP_set reserved (services_of_service h) (some svc')

/-- Replacing a future moves its permit in the tally. -/
theorem held_setFuture {future : CallFuture Res E} (h : s.futures[t]? = some future)
    (future' : CallFuture Res E) :
    s.services.countP reserved + (s.futures.set t future').countP CallFuture.holdsPermit
        + future.holdsPermit.toNat
      = s.tally.held + future'.holdsPermit.toNat := by
  have hcount := Gauge.countP_set CallFuture.holdsPermit h future'
  rw [Nat.add_assoc, hcount, ← Nat.add_assoc]
  rfl

theorem acquire_eq_some (h : lim.acquire = some lim') :
    lim'.sem + 1 = lim.sem ∧ lim'.inFlight = lim.inFlight := by
  unfold ServiceLimit.acquire at h
  split_ifs at h with hpos
  cases h
  exact ⟨Nat.sub_add_cancel hpos, rfl⟩

/-! Each operation is a move. -/

theorem setService_move {svc svc' : EffectService} (h : s.service i = some svc)
    (hpermit : svc'.readyPermit = svc.readyPermit) :
    Gauge.Move u64Max True s.tally (s.setService i svc').tally := by
  have hcount := countP_setService h svc'
  rw [hpermit] at hcount
  exact .stay trivial rfl (congrArg (· + s.outstanding) (Nat.add_right_cancel hcount)) rfl rfl

theorem clone_move (s : Sys Res E) (svc : EffectService) :
    Gauge.Move u64Max True s.tally
      { s with services := s.services ++ [some svc.clone] : Sys Res E }.tally := by
  have hcount : (s.services ++ [some svc.clone]).countP reserved = s.services.countP reserved := by
    rw [List.countP_append]
    rfl
  exact .stay trivial rfl (congrArg (· + s.outstanding) hcount) rfl rfl

theorem dropService_move {svc : EffectService} (h : s.service i = some svc) :
    Gauge.Move u64Max True s.tally
      { s with
        limit := if svc.readyPermit then s.limit.release else s.limit
        services := s.services.set i none : Sys Res E }.tally := by
  have hcount := Gauge.countP_set reserved (services_of_service h) none
  cases hpermit : svc.readyPermit with
  | false =>
      simp only [reserved, hpermit, Bool.toNat_false] at hcount
      exact .stay trivial rfl (congrArg (· + s.outstanding) hcount) rfl rfl
  | true =>
      simp only [reserved, hpermit, Bool.toNat_false, Bool.toNat_true] at hcount
      have hheld : (s.services.set i none).countP reserved + s.outstanding + 1
          = s.services.countP reserved + s.outstanding := by omega
      exact .release trivial rfl hheld rfl rfl

theorem pollReady_move {svc svc' : EffectService} {answer : Acquire} {poll : Poll}
    (h : s.service i = some svc)
    (hpoll : svc.pollReadyLimited s.limit answer = some (poll, svc', lim')) :
    Gauge.Move u64Max True s.tally { s.setService i svc' with limit := lim' }.tally := by
  obtain ⟨hsame, rfl⟩ | ⟨hwas, hnow, hacquire⟩ := EffectService.pollReadyLimited_cases hpoll
  · exact setService_move h hsame
  · obtain ⟨hsem, hinFlight⟩ := acquire_eq_some hacquire
    have hcount := countP_setService h svc'
    simp only [hwas, hnow, Bool.toNat_false, Bool.toNat_true] at hcount
    have hheld : (s.setService i svc').services.countP reserved + s.outstanding
        = s.services.countP reserved + s.outstanding + 1 := by omega
    exact .acquire trivial hsem hheld rfl hinFlight

/-- The permit goes from the service to the future. -/
theorem call_move {svc svc' : EffectService} {future : CallFuture Res E}
    (h : s.service i = some svc) (hcall : svc.call = some (svc', future)) :
    Gauge.Move u64Max True s.tally
      { s.setService i svc' with futures := s.futures ++ [future] }.tally := by
  unfold EffectService.call at hcall
  split_ifs at hcall with hready
  cases hcall
  have hcount := countP_setService h { svc with readyPermit := false }
  simp only [hready, Bool.toNat_false, Bool.toNat_true] at hcount
  refine .stay trivial rfl ?_ ?_ rfl
  · simp only [tally, outstanding, setService, List.countP_append] at hcount ⊢
    simp only [List.countP_singleton, CallFuture.holdsPermit, if_true]
    omega
  · simp [tally, counted, setService, CallFuture.counted]

theorem poll_move {future future' : CallFuture Res E} {result : Except E Res}
    (h : s.futures[t]? = some future) (hpoll : future.poll s.limit result = some (future', lim')) :
    Gauge.Move u64Max True s.tally
      { s with limit := lim', futures := s.futures.set t future' : Sys Res E }.tally := by
  have hheld := held_setFuture h future'
  have hcounts := Gauge.countP_set CallFuture.counted h future'
  obtain ⟨hpermit, hwas, hnow, rfl⟩ | ⟨hwas, hnow, rfl⟩ | ⟨hwas, hnow, rfl⟩ :=
    CallFuture.poll_cases hpoll
  · rw [hpermit, CallFuture.holdsPermit_of_counted hnow] at hheld
    rw [hwas, hnow] at hcounts
    exact .enter trivial rfl (Nat.add_right_cancel hheld) hcounts rfl
  · have hpermit := CallFuture.holdsPermit_of_counted hwas
    rw [hpermit, CallFuture.holdsPermit_of_counted hnow] at hheld
    rw [hwas, hnow] at hcounts
    exact .stay trivial rfl (Nat.add_right_cancel hheld) (Nat.add_right_cancel hcounts) rfl
  · rw [CallFuture.holdsPermit_of_counted hwas, hnow] at hheld
    rw [hwas, CallFuture.counted_of_not_holdsPermit hnow] at hcounts
    exact .leave trivial rfl hheld hcounts rfl

/-- A drop is a move that loses count exactly if the future was counted. -/
theorem dropFuture_move {future future' : CallFuture Res E} (h : s.futures[t]? = some future)
    (hdrop : future.drop s.limit = some (future', lim')) :
    Gauge.Move u64Max (future.counted = false) s.tally
      { s with limit := lim', futures := s.futures.set t future' : Sys Res E }.tally := by
  obtain ⟨hpermit, rfl, rfl⟩ := CallFuture.drop_cases hdrop
  have hheld := held_setFuture h .dropped
  have hcounts := Gauge.countP_set CallFuture.counted h .dropped
  rw [hpermit] at hheld
  cases hwas : future.counted with
  | false =>
      rw [hwas] at hcounts
      exact .release rfl rfl hheld hcounts rfl
  | true =>
      rw [hwas] at hcounts
      exact .lose (fun hok => by cases hok) rfl hheld hcounts rfl

/-- **A step is a move of the tally**, and it is the drop of a future that was counted when it is
    not `Undisturbed`. -/
theorem step_move {l : Label Res E} (h : s.step l = some s') :
    Gauge.Move u64Max (s.Undisturbed l) s.tally s'.tally := by
  cases l with
  | withRequestMetrics i =>
      obtain ⟨svc, hsvc, hs'⟩ := Option.bind_eq_some_iff.mp h
      cases hs'
      exact setService_move hsvc rfl
  | clone i =>
      obtain ⟨svc, hsvc, hs'⟩ := Option.bind_eq_some_iff.mp h
      cases hs'
      exact clone_move s svc
  | dropService i =>
      obtain ⟨svc, hsvc, hs'⟩ := Option.bind_eq_some_iff.mp h
      cases hs'
      exact dropService_move hsvc
  | pollReady i answer =>
      obtain ⟨svc, hsvc, h⟩ := Option.bind_eq_some_iff.mp h
      obtain ⟨⟨poll, svc', limit'⟩, hpoll, hs'⟩ := Option.bind_eq_some_iff.mp h
      cases hs'
      exact pollReady_move hsvc hpoll
  | call i =>
      obtain ⟨svc, hsvc, h⟩ := Option.bind_eq_some_iff.mp h
      obtain ⟨⟨svc', future⟩, hcall, hs'⟩ := Option.bind_eq_some_iff.mp h
      cases hs'
      exact call_move hsvc hcall
  | poll t result =>
      obtain ⟨future, hfuture, h⟩ := Option.bind_eq_some_iff.mp h
      obtain ⟨⟨future', limit'⟩, hpoll, hs'⟩ := Option.bind_eq_some_iff.mp h
      cases hs'
      exact poll_move hfuture hpoll
  | dropFuture t =>
      obtain ⟨future, hfuture, h⟩ := Option.bind_eq_some_iff.mp h
      obtain ⟨⟨future', limit'⟩, hdrop, hs'⟩ := Option.bind_eq_some_iff.mp h
      cases hs'
      have hundisturbed : s.Undisturbed (.dropFuture t) ↔ future.counted = false := by
        simp only [Undisturbed, hfuture, Option.mem_some_iff, forall_eq']
      rw [hundisturbed]
      exact dropFuture_move hfuture hdrop

/-! ## Runs -/

variable {maxInFlight : ℕ} {s₀ : Sys Res E} {ls : List (Label Res E)}

/-- A new service has all its permits, of which there are fewer than the counter can count. -/
theorem withMaxInFlight_spec (h : withMaxInFlight maxInFlight = some s₀) :
    maxInFlight < u64Max ∧ s₀.tally.Within maxInFlight ∧ s₀.tally.Exact := by
  obtain ⟨limit, hlimit, rfl⟩ := Option.map_eq_some_iff.mp h
  unfold ServiceLimit.new at hlimit
  split_ifs at hlimit with hn
  cases hlimit
  have hmax : maxPermits < u64Max := by decide
  exact ⟨hn.2.trans_lt hmax, ⟨rfl, le_rfl⟩, rfl⟩

theorem run_within (hnew : withMaxInFlight maxInFlight = some s₀) (hrun : run step s₀ ls = some s) :
    s.tally.Within maxInFlight := by
  obtain ⟨hn, hwithin, -⟩ := withMaxInFlight_spec hnew
  exact run_invariant (I := fun s : Sys Res E => s.tally.Within maxInFlight)
    (fun _ _ _ hs hstep => (step_move hstep).within hn hs) hwithin hrun

theorem run_exact_iff (hnew : withMaxInFlight maxInFlight = some s₀)
    (hrun : run step s₀ ls = some s) : s.tally.Exact ↔ Along step Undisturbed s₀ ls := by
  obtain ⟨hn, hwithin, hexact⟩ := withMaxInFlight_spec hnew
  have hrule := run_iff_along (I := fun s : Sys Res E => s.tally.Within maxInFlight)
    (J := fun s : Sys Res E => s.tally.Exact)
    (fun _ _ _ hs _ hstep => (step_move hstep).within hn hs)
    (fun _ _ _ hs _ hstep => (step_move hstep).exact_iff hn hs) hwithin (along_true ..) hrun
  exact hrule.trans (and_iff_right hexact)

/-- **The limit holds in every run, and the count is right in the undisturbed ones.** Never do more
    than `maxInFlight` handlers run. The counter is the number of calls that are past their
    increment and have not ended, and in particular 0 when no call is outstanding, exactly when no
    future was dropped between its two updates of the counter. -/
theorem limited_and_counted (hnew : withMaxInFlight maxInFlight = some s₀)
    (hrun : run step s₀ ls = some s) :
    s.handlers ≤ maxInFlight
      ∧ ((s.limit.inFlight = s.counted ∧ (s.outstanding = 0 → s.limit.inFlight = 0))
          ↔ Along step Undisturbed s₀ ls) := by
  refine ⟨s.handlers_le_counted.trans (run_within hnew hrun).entered_le_permits, ?_⟩
  rw [← run_exact_iff hnew hrun]
  refine and_iff_left_of_imp fun hexact hnone => hexact.trans ?_
  exact Nat.eq_zero_of_le_zero (hnone ▸ s.counted_le_outstanding)

/-- A call on the service and one on a clone, with two permits; the second handler fails and is
    recorded. -/
def twoCalls : List (Label ℕ ℕ) :=
  [.withRequestMetrics 0, .clone 0, .pollReady 0 .atOnce, .pollReady 1 .awaited, .call 0, .call 1,
    .poll 0 (.ok 0), .poll 1 (.ok 0), .poll 0 (.ok 7), .poll 1 (.error 5), .poll 1 (.ok 0),
    .poll 1 (.ok 0), .poll 0 (.ok 0)]

/-- A call with the only permit, whose future is dropped while the handler runs. -/
def abandonedCall : List (Label ℕ ℕ) :=
  [.pollReady 0 .atOnce, .call 0, .poll 0 (.ok 0), .dropFuture 0]

theorem limited_and_counted_twoCalls :
    ∃ s₀ s : Sys ℕ ℕ, withMaxInFlight 2 = some s₀ ∧ run step s₀ twoCalls = some s
      ∧ s.limit.inFlight = s.counted := by
  have hnew : (withMaxInFlight 2 : Option (Sys ℕ ℕ))
      = some ⟨⟨2, 0⟩, [some ⟨false, false, false⟩], []⟩ := rfl
  have hends : ∃ s : Sys ℕ ℕ, run step ⟨⟨2, 0⟩, [some ⟨false, false, false⟩], []⟩ twoCalls = some s
      ∧ s.outstanding = 0 := exists_run outstanding (by decide)
  obtain ⟨s, hrun, -⟩ := hends
  exact ⟨_, s, hnew, hrun, ((limited_and_counted hnew hrun).2.mpr (by decide)).1⟩

/-- The future is gone, and the counter is still 1. -/
theorem dropped_still_counted :
    ∃ s₀ s : Sys ℕ ℕ, withMaxInFlight 1 = some s₀ ∧ run step s₀ abandonedCall = some s
      ∧ s.outstanding = 0 ∧ s.limit.inFlight = 1 := by
  have hends : ∃ s : Sys ℕ ℕ,
      run step ⟨⟨1, 0⟩, [some ⟨false, false, false⟩], []⟩ abandonedCall = some s
        ∧ (s.outstanding, s.limit.inFlight) = (0, 1) :=
    exists_run (fun s : Sys ℕ ℕ => (s.outstanding, s.limit.inFlight)) (by decide)
  obtain ⟨s, hrun, hend⟩ := hends
  exact ⟨_, s, rfl, hrun, congrArg Prod.fst hend, congrArg Prod.snd hend⟩

end Sys

end IdEffect.Tower
