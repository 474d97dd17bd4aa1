import Mathlib.Algebra.Ring.Nat
import Mathlib.Order.Nat
import IdEffect.Lib.Calls

set_option autoImplicit false

/-! # The circuit breaker

A breaker is three cells, for its state, the number of failures and the time of the last opening,
and a call goes through them one access at a time, with the inner effect in between. Any number of
calls run interleaved. The clock is read in the step of the access it belongs to.

An opening is to keep the breaker shut for `reset_after`. The step that opens it writes one cell,
the time is written in the next step, and calls that were let through before may write `Closed` at
any time; so the breaker may be opened again to callers too early. What is proved is that these are
the only ways: while nobody writes `Closed` or `HalfOpen` before the cooldown is over (`Waits`), the
breaker stays shut (`stays_shut`). The invariant is that a breaker whose state is not `Open` has its
cooldown behind it. -/

namespace IdEffect.Resilience

open Calls Transition

variable {A E : Type}

inductive CircuitState where
  | closed
  | opened
  | halfOpen
  deriving DecidableEq, Repr

/-- The parameters of a breaker. -/
structure Breaker where
  failureThreshold : ℕ
  resetAfter : ℕ

/-- The cells of a breaker, and what an observer keeps of its runs: the time, when the cooldown of
    the last opening is over, the calls that were let through and have not started their effect,
    and, since a call has set the state to `HalfOpen`, this call, until it sets the state again,
    with the calls that have started their effects. -/
structure Cells where
  state : CircuitState
  failures : ℕ
  openedAt : Option ℕ
  now : ℕ
  coolUntil : ℕ
  admitted : List ℕ
  probing : Option ℕ
  since : List ℕ

namespace Cells

/-- `make`. -/
def make : Cells := ⟨.closed, 0, none, 0, 0, [], none, []⟩

/-- The call `t` has set the state after its effect, which ends its probe. -/
def settle (cells : Cells) (t : ℕ) : Option ℕ :=
  if cells.probing = some t then none else cells.probing

end Cells

/-- What an observer keeps of a call: when the cooldown was over that it found as it read the state,
    whether there was a probe in progress, and when its effect was started. -/
structure Seen where
  coolUntil : ℕ
  meanwhile : Bool
  started : Option ℕ
  deriving DecidableEq, Repr

/-- Where a call is; the effect has ended with a value or an error. -/
inductive Phase (A E : Type) where
  | reading
  | checking (seen : Seen)
  | halving (seen : Seen)
  | admitted (seen : Seen)
  | running (seen : Seen)
  | succeeded (seen : Seen) (a : A)
  | closing (seen : Seen) (a : A)
  | failed (seen : Seen) (e : E)
  | opening (seen : Seen) (e : E)
  | stamping (seen : Seen) (e : E)
  | rereading (seen : Seen) (e : E)
  deriving DecidableEq, Repr

/-- `Or<CircuitBreakerError, E>`. -/
inductive CallError (E : Type) where
  | left
  | right (e : E)
  deriving DecidableEq, Repr

/-- The time of a step, and how the inner effect ends if this is the step in which it does. -/
structure Event (A E : Type) where
  time : ℕ
  outcome : Except E A

abbrev Outcome (A E : Type) : Type := Seen × Except (CallError E) A

namespace Breaker

variable (breaker : Breaker)

/-- One step of a call, at a time that is not before `now`. -/
def access (t : ℕ) (phase : Phase A E) (event : Event A E) (cells : Cells) :
    (Phase A E ⊕ Outcome A E) × Cells :=
  match phase with
  | .reading =>
      let seen : Seen := ⟨cells.coolUntil, cells.probing.isSome, none⟩
      match cells.state with
      | .opened => (.inl (.checking seen), cells)
      | .closed | .halfOpen =>
          (.inl (.admitted seen), { cells with admitted := t :: cells.admitted })
  | .checking seen =>
      match cells.openedAt with
      | none => (.inr (seen, .error .left), cells)
      | some stamp =>
          if breaker.resetAfter ≤ event.time - stamp then (.inl (.halving seen), cells)
          else (.inr (seen, .error .left), cells)
  | .halving seen =>
      (.inl (.admitted seen),
        { cells with
          state := .halfOpen, admitted := t :: cells.admitted, probing := some t, since := [] })
  | .admitted seen =>
      (.inl (.running { seen with started := some event.time }),
        { cells with
          admitted := cells.admitted.filter (· ≠ t)
          since := if cells.probing.isSome then t :: cells.since else cells.since })
  | .running seen =>
      match event.outcome with
      | .ok a => (.inl (.succeeded seen a), cells)
      | .error e => (.inl (.failed seen e), cells)
  | .succeeded seen a => (.inl (.closing seen a), { cells with failures := 0 })
  | .closing seen a =>
      (.inr (seen, .ok a), { cells with state := .closed, probing := cells.settle t })
  | .failed seen e =>
      let count := (cells.failures + 1) % 2 ^ 32
      (.inl (if breaker.failureThreshold ≤ count then .opening seen e else .rereading seen e),
        { cells with failures := count })
  | .opening seen e =>
      (.inl (.stamping seen e),
        { cells with state := .opened, coolUntil := event.time + breaker.resetAfter })
  | .stamping seen e =>
      (.inr (seen, .error (.right e)),
        { cells with openedAt := some event.time, probing := cells.settle t })
  | .rereading seen e =>
      if cells.state = .halfOpen then (.inl (.opening seen e), cells)
      else (.inr (seen, .error (.right e)), cells)

/-- The clock does not go back. -/
def machine : Machine Cells Unit (Phase A E) (Outcome A E) (Event A E) where
  start _ _ := .reading
  step t phase event cells :=
    if cells.now ≤ event.time then
      let out := breaker.access t phase event cells
      some (out.1, { out.2 with now := event.time })
    else none

/-! ## Cooling down -/

/-- What an observer has of a call that has read the state. -/
def seen : Status Unit (Phase A E) (Outcome A E) → Option Seen
  | .idle | .running _ .reading => none
  | .running _ (.checking seen) | .running _ (.halving seen) | .running _ (.admitted seen)
  | .running _ (.running seen) | .running _ (.succeeded seen _) | .running _ (.closing seen _)
  | .running _ (.failed seen _) | .running _ (.opening seen _) | .running _ (.stamping seen _)
  | .running _ (.rereading seen _) => some seen
  | .done _ (seen, _) => some seen

/-- A call starts its effect when the cooldown is over that it found, and a call that is done
    without having started it was rejected. -/
structure StaysShut (s : Sys Cells Unit (Phase A E) (Outcome A E)) : Prop where
  started : ∀ t found time, seen (s.calls t) = some found → found.started = some time →
    found.coolUntil ≤ time
  rejected : ∀ t q found r, s.calls t = .done q (found, r) → found.started = none →
    r = .error .left

/-- The next access sets the state to `Closed` or `HalfOpen`. -/
def lets : Phase A E → Bool
  | .closing _ _ | .halving _ => true
  | _ => false

/-- Nobody sets the state to `Closed` or `HalfOpen` before the cooldown is over. -/
def Waits (cells : Cells) (_ : ℕ) (phase : Phase A E) (event : Event A E) : Prop :=
  lets phase = true → cells.coolUntil ≤ event.time

instance (cells : Cells) (t : ℕ) (phase : Phase A E) (event : Event A E) :
    Decidable (Waits cells t phase event) :=
  inferInstanceAs (Decidable (_ → _))

/-- A breaker that is not open has its cooldown behind it. -/
structure Cooled (breaker : Breaker) (cells : Cells) : Prop where
  behind : cells.state ≠ .opened → cells.coolUntil ≤ cells.now
  bound : cells.coolUntil ≤ cells.now + breaker.resetAfter

/-- The effect was started, after the cooldown. -/
def Started (found : Seen) : Prop := ∃ time, found.started = some time ∧ found.coolUntil ≤ time

/-- What a call knows of the cooldown that it found. -/
def Found (_ : ℕ) (status : Status Unit (Phase A E) (Outcome A E)) (cells : Cells) : Prop :=
  match status with
  | .idle | .running _ .reading => True
  | .running _ (.checking found) | .running _ (.halving found) =>
      found.started = none ∧ found.coolUntil ≤ cells.coolUntil
  | .running _ (.admitted found) => found.started = none ∧ found.coolUntil ≤ cells.now
  | .running _ (.running found) | .running _ (.succeeded found _)
  | .running _ (.closing found _) | .running _ (.failed found _)
  | .running _ (.opening found _) | .running _ (.stamping found _)
  | .running _ (.rereading found _) => Started found
  | .done _ (found, r) => Started found ∨ found.started = none ∧ r = .error .left

variable {breaker} {cells cells' : Cells} {t : ℕ}

theorem Found.mono {status : Status Unit (Phase A E) (Outcome A E)} (h : Found t status cells)
    (hnow : cells.now ≤ cells'.now) (hcool : cells.coolUntil ≤ cells'.coolUntil) :
    Found t status cells' := by
  match status, h with
  | .idle, _ | .running _ .reading, _ => trivial
  | .running _ (.checking _), h | .running _ (.halving _), h => exact ⟨h.1, h.2.trans hcool⟩
  | .running _ (.admitted _), h => exact ⟨h.1, h.2.trans hnow⟩
  | .running _ (.running _), h | .running _ (.succeeded _ _), h | .running _ (.closing _ _), h
  | .running _ (.failed _ _), h | .running _ (.opening _ _), h | .running _ (.stamping _ _), h
  | .running _ (.rereading _ _), h => exact h
  | .done _ (_, _), h => exact h

theorem Found.started {status : Status Unit (Phase A E) (Outcome A E)} {found : Seen} {time : ℕ}
    (h : Found t status cells) (hseen : seen status = some found)
    (htime : found.started = some time) : found.coolUntil ≤ time := by
  have hran : ∀ {found' : Seen}, Started found' → some found' = some found →
      found.coolUntil ≤ time := by
    rintro found' ⟨time', htime', hle⟩ heq
    obtain rfl := Option.some.inj heq
    rw [htime, Option.some.injEq] at htime'
    exact htime' ▸ hle
  have hnot : ∀ {found' : Seen}, found'.started = none → some found' = some found →
      found.coolUntil ≤ time := by
    rintro found' hnone heq
    obtain rfl := Option.some.inj heq
    rw [hnone] at htime
    cases htime
  match status, h, hseen with
  | .running _ (.checking _), h, hseen | .running _ (.halving _), h, hseen
  | .running _ (.admitted _), h, hseen => exact hnot h.1 hseen
  | .running _ (.running _), h, hseen | .running _ (.succeeded _ _), h, hseen
  | .running _ (.closing _ _), h, hseen | .running _ (.failed _ _), h, hseen
  | .running _ (.opening _ _), h, hseen | .running _ (.stamping _ _), h, hseen
  | .running _ (.rereading _ _), h, hseen => exact hran h hseen
  | .done _ (_, _), .inl h, hseen => exact hran h hseen
  | .done _ (_, _), .inr h, hseen => exact hnot h.1 hseen

/-- What one step of a call does. -/
inductive Access (breaker : Breaker) (t : ℕ) (event : Event A E) (cells : Cells) :
    Phase A E → Phase A E ⊕ Outcome A E → Cells → Prop where
  | foundOpen (hstate : cells.state = .opened) :
      Access breaker t event cells .reading
        (.inl (.checking ⟨cells.coolUntil, cells.probing.isSome, none⟩)) cells
  | letThrough (hstate : cells.state ≠ .opened) :
      Access breaker t event cells .reading
        (.inl (.admitted ⟨cells.coolUntil, cells.probing.isSome, none⟩))
        { cells with admitted := t :: cells.admitted }
  | rejected {found : Seen} (hcooling : ∀ stamp, cells.openedAt = some stamp →
        event.time - stamp < breaker.resetAfter) :
      Access breaker t event cells (.checking found) (.inr (found, .error .left)) cells
  | cooled {found : Seen} {stamp : ℕ} (hstamp : cells.openedAt = some stamp)
      (hcooled : breaker.resetAfter ≤ event.time - stamp) :
      Access breaker t event cells (.checking found) (.inl (.halving found)) cells
  | halved {found : Seen} :
      Access breaker t event cells (.halving found) (.inl (.admitted found))
        { cells with
          state := .halfOpen, admitted := t :: cells.admitted, probing := some t, since := [] }
  | started {found : Seen} :
      Access breaker t event cells (.admitted found)
        (.inl (.running { found with started := some event.time }))
        { cells with
          admitted := cells.admitted.filter (· ≠ t)
          since := if cells.probing.isSome then t :: cells.since else cells.since }
  | succeeded {found : Seen} {a : A} (houtcome : event.outcome = .ok a) :
      Access breaker t event cells (.running found) (.inl (.succeeded found a)) cells
  | failed {found : Seen} {e : E} (houtcome : event.outcome = .error e) :
      Access breaker t event cells (.running found) (.inl (.failed found e)) cells
  | reset {found : Seen} {a : A} :
      Access breaker t event cells (.succeeded found a) (.inl (.closing found a))
        { cells with failures := 0 }
  | closed {found : Seen} {a : A} :
      Access breaker t event cells (.closing found a) (.inr (found, .ok a))
        { cells with state := .closed, probing := cells.settle t }
  | reached {found : Seen} {e : E}
      (hcount : breaker.failureThreshold ≤ (cells.failures + 1) % 2 ^ 32) :
      Access breaker t event cells (.failed found e) (.inl (.opening found e))
        { cells with failures := (cells.failures + 1) % 2 ^ 32 }
  | below {found : Seen} {e : E}
      (hcount : (cells.failures + 1) % 2 ^ 32 < breaker.failureThreshold) :
      Access breaker t event cells (.failed found e) (.inl (.rereading found e))
        { cells with failures := (cells.failures + 1) % 2 ^ 32 }
  | opened {found : Seen} {e : E} :
      Access breaker t event cells (.opening found e) (.inl (.stamping found e))
        { cells with state := .opened, coolUntil := event.time + breaker.resetAfter }
  | stamped {found : Seen} {e : E} :
      Access breaker t event cells (.stamping found e) (.inr (found, .error (.right e)))
        { cells with openedAt := some event.time, probing := cells.settle t }
  | reopens {found : Seen} {e : E} (hstate : cells.state = .halfOpen) :
      Access breaker t event cells (.rereading found e) (.inl (.opening found e)) cells
  | reported {found : Seen} {e : E} (hstate : cells.state ≠ .halfOpen) :
      Access breaker t event cells (.rereading found e) (.inr (found, .error (.right e))) cells

theorem Access.of_access (breaker : Breaker) (t : ℕ) (phase : Phase A E) (event : Event A E)
    (cells : Cells) : Access breaker t event cells phase (breaker.access t phase event cells).1
      (breaker.access t phase event cells).2 := by
  cases phase with
  | reading =>
      rw [Breaker.access]
      split
      · next hstate => exact .foundOpen hstate
      · next hstate => exact .letThrough (by rw [hstate]; exact CircuitState.noConfusion)
      · next hstate => exact .letThrough (by rw [hstate]; exact CircuitState.noConfusion)
  | checking found =>
      rw [Breaker.access]
      split
      · next hnone =>
          refine .rejected fun stamp hstamp => ?_
          rw [hnone] at hstamp
          cases hstamp
      · next stamp hstamp =>
          split_ifs with hcooled
          · exact .cooled hstamp hcooled
          · refine .rejected fun stamp' hstamp' => ?_
            obtain rfl := Option.some.inj (hstamp.symm.trans hstamp')
            exact not_le.mp hcooled
  | halving found => exact .halved
  | admitted found => exact .started
  | running found =>
      rw [Breaker.access]
      split
      · next a houtcome => exact .succeeded houtcome
      · next e houtcome => exact .failed houtcome
  | succeeded found a => exact .reset
  | closing found a => exact .closed
  | failed found e =>
      simp only [Breaker.access]
      split_ifs with hcount
      · exact .reached hcount
      · exact .below (not_le.mp hcount)
  | opening found e => exact .opened
  | stamping found e => exact .stamped
  | rereading found e =>
      rw [Breaker.access]
      split_ifs with hstate
      · exact .reopens hstate
      · exact .reported hstate

variable {phase : Phase A E} {event : Event A E} {x : Phase A E ⊕ Outcome A E}

/-- A step takes the access at its time. -/
theorem step_cases (h : breaker.machine.step t phase event cells = some (x, cells')) :
    cells.now ≤ event.time
      ∧ ∃ cells'', Access breaker t event cells phase x cells''
        ∧ cells' = { cells'' with now := event.time } := by
  simp only [machine] at h
  split_ifs at h with hnow
  obtain ⟨rfl, rfl⟩ := Prod.mk.inj (Option.some.inj h)
  exact ⟨hnow, _, .of_access .., rfl⟩

/-- What an access does to the state and the cooldown. -/
theorem Access.state (h : Access breaker t event cells phase x cells') :
    (cells'.state = cells.state ∧ cells'.coolUntil = cells.coolUntil)
      ∨ (lets phase = true ∧ cells'.coolUntil = cells.coolUntil)
      ∨ (cells'.state = .opened ∧ cells'.coolUntil = event.time + breaker.resetAfter) := by
  cases h with
  | halved | closed => exact .inr (.inl ⟨rfl, rfl⟩)
  | opened => exact .inr (.inr ⟨rfl, rfl⟩)
  | foundOpen _ | letThrough _ | rejected _ | cooled _ _ | started | succeeded _ | failed _ | reset
  | reached _ | below _ | stamped | reopens _ | reported _ => exact .inl ⟨rfl, rfl⟩

/-- After a step the cooldown is over in the states that let calls through, and it has not been
    moved to an earlier time. -/
theorem Cooled.access (h : Cooled breaker cells)
    (haccess : Access breaker t event cells phase x cells') (hnow : cells.now ≤ event.time)
    (hwaits : Waits cells t phase event) :
    Cooled breaker { cells' with now := event.time } ∧ cells.coolUntil ≤ cells'.coolUntil := by
  have hbound : cells.coolUntil ≤ event.time + breaker.resetAfter :=
    h.bound.trans (Nat.add_le_add_right hnow _)
  rcases haccess.state with ⟨hstate, hcool⟩ | ⟨hlets, hcool⟩ | ⟨hstate, hcool⟩
  · refine ⟨⟨fun hne => ?_, ?_⟩, hcool.ge⟩
    · rw [hcool]
      exact (h.behind (hstate ▸ hne)).trans hnow
    · rw [hcool]
      exact hbound
  · refine ⟨⟨fun _ => ?_, ?_⟩, hcool.ge⟩
    · rw [hcool]
      exact hwaits hlets
    · rw [hcool]
      exact hbound
  · refine ⟨⟨fun hne => absurd hstate hne, ?_⟩, ?_⟩
    · rw [hcool]
    · rw [hcool]
      exact hbound

/-- What the call knows after its own step. -/
theorem Found.access (h : Found t (.running () phase) cells)
    (haccess : Access breaker t event cells phase x cells') (hI : Cooled breaker cells)
    (hnow : cells.now ≤ event.time) (hwaits : Waits cells t phase event) :
    Found t (.next () x) { cells' with now := event.time } := by
  cases haccess with
  | foundOpen _ => exact ⟨rfl, le_rfl⟩
  -- a state that lets the call through has its cooldown behind it
  | letThrough hstate => exact ⟨rfl, (hI.behind hstate).trans hnow⟩
  | rejected _ => exact .inr ⟨h.1, rfl⟩
  | cooled _ _ => exact h
  | halved => exact ⟨h.1, h.2.trans (hwaits rfl)⟩
  | started => exact ⟨event.time, rfl, h.2.trans hnow⟩
  | closed | stamped | reported _ => exact .inl h
  | succeeded _ | failed _ | reset | reached _ | below _ | opened | reopens _ => exact h

theorem keepsOn_waits :
    (breaker.machine (A := A) (E := E)).KeepsOn Waits (Cooled breaker) Found := by
  refine ⟨fun _ _ _ _ => trivial, fun t q phase event x cells cells' hI hfound hwaits hstep => ?_⟩
  obtain ⟨hnow, cells'', haccess, rfl⟩ := step_cases hstep
  obtain ⟨hI', hcool⟩ := hI.access haccess hnow hwaits
  exact ⟨hI', Found.access hfound haccess hI hnow hwaits, fun u status _ hu => hu.mono hnow hcool⟩

/-- **An open breaker stays shut** for its cooldown, in every run in which nobody sets the state to
    `Closed` or `HalfOpen` before the cooldown is over. -/
theorem stays_shut (breaker : Breaker) (ls : List (Label Unit (Event A E)))
    (s : Sys Cells Unit (Phase A E) (Outcome A E))
    (hrun : run breaker.machine.sysStep (Sys.init .make) ls = some s)
    (hwaits : Along breaker.machine.sysStep (Machine.guardOf Waits) (Sys.init .make) ls) :
    StaysShut s := by
  have hinit : Machine.Knows (Cooled breaker) Found
      (Sys.init .make : Sys Cells Unit (Phase A E) (Outcome A E)) :=
    ⟨⟨fun _ => le_rfl, Nat.zero_le _⟩, fun _ => trivial⟩
  have hs := keepsOn_waits.run hinit hwaits hrun
  refine ⟨fun t found time => (hs.calls t).started, fun t q found r hdone hnone => ?_⟩
  · have hc := hs.calls t
    rw [hdone] at hc
    rcases hc with ⟨time, htime, -⟩ | ⟨-, hr⟩
    · rw [hnone] at htime
      cases htime
    · exact hr

/-- Opens at the first failure, for ten units of time. -/
def tenUnits : Breaker := ⟨1, 10⟩

/-- A call that has started before the second one fails and opens the breaker succeeds after it, and
    the third is let through. -/
def lateSuccess : List (Label Unit (Event Unit Unit)) :=
  [.call 0 (), .step 0 ⟨0, .ok ()⟩, .step 0 ⟨0, .ok ()⟩,
    .call 1 (), .step 1 ⟨0, .ok ()⟩, .step 1 ⟨0, .ok ()⟩, .step 1 ⟨1, .error ()⟩,
    .step 1 ⟨1, .ok ()⟩, .step 1 ⟨1, .ok ()⟩, .step 1 ⟨1, .ok ()⟩,
    .step 0 ⟨2, .ok ()⟩, .step 0 ⟨2, .ok ()⟩, .step 0 ⟨2, .ok ()⟩,
    .call 2 (), .step 2 ⟨3, .ok ()⟩, .step 2 ⟨3, .ok ()⟩]

/-- The cooldown is over at time 11, and the effect is started at time 3. -/
theorem started_while_open :
    ∃ s, run tenUnits.machine.sysStep (Sys.init .make) lateSuccess = some s
      ∧ seen (s.calls 2) = some ⟨11, false, some 3⟩ ∧ ¬ StaysShut s := by
  have hlast : (run tenUnits.machine.sysStep (Sys.init .make) lateSuccess).map
      (fun s => seen (s.calls 2)) = some (some ⟨11, false, some 3⟩) := by decide +kernel
  obtain ⟨s, hrun, hseen⟩ := exists_run _ hlast
  refine ⟨s, hrun, hseen, fun h => ?_⟩
  exact absurd (h.started 2 _ 3 hseen rfl) (by decide)

/-- A call that comes during the cooldown is rejected, one that comes after it is let through. -/
def coolsDown : List (Label Unit (Event Unit Unit)) :=
  [.call 0 (), .step 0 ⟨0, .ok ()⟩, .step 0 ⟨0, .ok ()⟩, .step 0 ⟨1, .error ()⟩,
    .step 0 ⟨1, .ok ()⟩, .step 0 ⟨1, .ok ()⟩, .step 0 ⟨1, .ok ()⟩,
    .call 1 (), .step 1 ⟨5, .ok ()⟩, .step 1 ⟨5, .ok ()⟩,
    .call 2 (), .step 2 ⟨11, .ok ()⟩, .step 2 ⟨11, .ok ()⟩, .step 2 ⟨11, .ok ()⟩,
    .step 2 ⟨12, .ok ()⟩]

theorem stays_shut_coolsDown :
    ∃ s, run tenUnits.machine.sysStep (Sys.init .make) coolsDown = some s
      ∧ seen (s.calls 2) = some ⟨11, false, some 12⟩ ∧ StaysShut s := by
  have hlast : (run tenUnits.machine.sysStep (Sys.init .make) coolsDown).map
      (fun s => seen (s.calls 2)) = some (some ⟨11, false, some 12⟩) := by decide +kernel
  obtain ⟨s, hrun, hseen⟩ := exists_run _ hlast
  exact ⟨s, hrun, hseen, stays_shut tenUnits coolsDown s hrun (by decide +kernel)⟩

end Breaker

end IdEffect.Resilience
