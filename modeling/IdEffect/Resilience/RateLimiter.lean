import Mathlib.Algebra.Order.Archimedean.Basic
import Mathlib.Algebra.Order.Ring.Rat
import IdEffect.Lib.Budget
import IdEffect.Lib.Calls

set_option autoImplicit false

/-! # The rate limiter

A token bucket is two cells, for the tokens and for the time of the last refill, and an acquire
goes through them one access at a time: it reads the clock and the last stamp, adds what has
accrued, writes the stamp, and takes a token if there is one. Numbers are exact.

The tokens stay between 0 and the capacity in every interleaving (`InBucket`). The number of
acquires that succeed is bounded by what is due, the content of a bucket that fills all the time
and not by refills. A refill may lift the tokens above that, in two ways: it credits time that was
credited before, or it credits the time that an acquire let pass between its own refill and its
take, when a full bucket could gain nothing. In a run whose refills do neither (`Pays`) the tokens
are never more than what is due, and the bound is that of `Budget`. After a refill that does, the
run can go on to an interval with more successes than that (`exceeds_of_not_pays`). -/

namespace IdEffect.Resilience

open Calls Machine Transition

/-- The parameters of a limiter. -/
structure RateLimiter where
  rate : ℚ
  capacity : ℚ
  rate_nonneg : 0 ≤ rate
  capacity_nonneg : 0 ≤ capacity

/-- The cells of a limiter, and what an observer keeps of its runs: the time, what is due at that
    time, and when acquires have succeeded. -/
structure Bucket where
  tokens : ℚ
  lastRefill : ℚ
  now : ℚ
  due : ℚ
  admits : List ℚ

/-- Where an acquire is: it has read the clock, and then the last stamp. -/
inductive Acquiring where
  | start
  | timed (now : ℚ)
  | crediting (now last : ℚ)
  | stamping (now : ℚ)
  | taking
  deriving DecidableEq

inductive RateLimitError where
  | rateLimitError
  deriving DecidableEq, Repr

namespace RateLimiter

variable (limiter : RateLimiter)

/-- `make`, at a time. -/
def make (time : ℚ) : Bucket := ⟨limiter.capacity, time, time, limiter.capacity, []⟩

/-- What is due at a later time: it grows at the rate, up to the capacity. -/
def dueAt (bucket : Bucket) (time : ℚ) : ℚ :=
  min limiter.capacity (bucket.due + limiter.rate * (time - bucket.now))

/-- Time passes. The cells do not change. -/
def wait (bucket : Bucket) (time : ℚ) : Bucket :=
  { bucket with now := time, due := limiter.dueAt bucket time }

/-- One step of an acquire, at a time that is not before `now`. The first four are those of
    `refill`; `duration_since` does not go below zero. -/
def access (acquiring : Acquiring) (time : ℚ) (bucket : Bucket) :
    (Acquiring ⊕ Except RateLimitError Unit) × Bucket :=
  match acquiring with
  | .start => (.inl (.timed time), bucket)
  | .timed now =>
      let elapsed := max (now - bucket.lastRefill) 0
      (.inl (if 0 < elapsed then .crediting now bucket.lastRefill else .taking), bucket)
  | .crediting now last =>
      let elapsed := max (now - last) 0
      (.inl (.stamping now),
        { bucket with tokens := min (bucket.tokens + elapsed * limiter.rate) limiter.capacity })
  | .stamping now => (.inl .taking, { bucket with lastRefill := now })
  | .taking =>
      if 1 ≤ bucket.tokens then
        (.inr (.ok ()),
          { bucket with
            tokens := bucket.tokens - 1
            due := bucket.due - 1
            admits := time :: bucket.admits })
      else (.inr (.error .rateLimitError), bucket)

/-- The clock does not go back. -/
def machine : Machine Bucket Unit Acquiring (Except RateLimitError Unit) ℚ where
  start _ _ := .start
  step _ acquiring time bucket :=
    if bucket.now ≤ time then some (limiter.access acquiring time (limiter.wait bucket time))
    else none

/-! ## The tokens -/

/-- The tokens are between 0 and the capacity. -/
structure InBucket (limiter : RateLimiter) (bucket : Bucket) : Prop where
  nonneg : 0 ≤ bucket.tokens
  le_capacity : bucket.tokens ≤ limiter.capacity

/-- Nothing needs to be known of the acquires. -/
def Any (_ : ℕ) (_ : Status Unit Acquiring (Except RateLimitError Unit)) (_ : Bucket) : Prop := True

variable {limiter} {bucket bucket' : Bucket} {t : ℕ}

/-- A step takes the access at its time. -/
theorem step_cases {acquiring : Acquiring} {time : ℚ} {x : Acquiring ⊕ Except RateLimitError Unit}
    (h : limiter.machine.step t acquiring time bucket = some (x, bucket')) :
    bucket.now ≤ time ∧ x = (limiter.access acquiring time (limiter.wait bucket time)).1
      ∧ bucket' = (limiter.access acquiring time (limiter.wait bucket time)).2 := by
  simp only [machine] at h
  split_ifs at h with hnow
  have hpair := Prod.mk.inj (Option.some.inj h)
  exact ⟨hnow, hpair.1.symm, hpair.2.symm⟩

theorem keeps_inBucket : limiter.machine.Keeps limiter.InBucket Any := by
  refine ⟨fun _ _ _ _ => trivial, fun t q acquiring time x bucket bucket' hI _ hstep => ?_⟩
  obtain ⟨hnow, -, rfl⟩ := step_cases hstep
  refine ⟨?_, trivial, fun _ _ _ _ => trivial⟩
  cases acquiring with
  | crediting now last =>
      have hgain : 0 ≤ max (now - last) 0 * limiter.rate :=
        mul_nonneg (le_max_right ..) limiter.rate_nonneg
      refine ⟨?_, min_le_right ..⟩
      exact le_min (add_nonneg hI.nonneg hgain) limiter.capacity_nonneg
  | taking =>
      simp only [access]
      split_ifs with htoken
      · exact ⟨sub_nonneg.mpr htoken, (sub_le_self _ zero_le_one).trans hI.le_capacity⟩
      · exact ⟨hI.nonneg, hI.le_capacity⟩
  | start | timed now | stamping now => exact ⟨hI.nonneg, hI.le_capacity⟩

/-! ## What is due -/

/-- A refill makes no more of the tokens than is due. -/
def Pays (limiter : RateLimiter) (bucket : Bucket) (_ : ℕ) (acquiring : Acquiring) (time : ℚ) :
    Prop :=
  match acquiring with
  | .crediting now last =>
      limiter.dueAt bucket time = limiter.capacity
        ∨ bucket.tokens + max (now - last) 0 * limiter.rate ≤ limiter.dueAt bucket time
  | _ => True

instance (limiter : RateLimiter) (bucket : Bucket) (t : ℕ) (acquiring : Acquiring) (time : ℚ) :
    Decidable (limiter.Pays bucket t acquiring time) :=
  match acquiring with
  | .crediting _ _ => inferInstanceAs (Decidable (_ ∨ _))
  | .start | .timed _ | .stamping _ | .taking => inferInstanceAs (Decidable True)

/-- The tokens are due, and the successes so far are paid for from what is due. -/
structure Paid (limiter : RateLimiter) (bucket : Bucket) : Prop where
  inBucket : limiter.InBucket bucket
  tokens_le : bucket.tokens ≤ bucket.due
  budget : Budget limiter.rate limiter.capacity bucket.now bucket.due bucket.admits

theorem paid_make (limiter : RateLimiter) (time : ℚ) : limiter.Paid (limiter.make time) :=
  ⟨⟨limiter.capacity_nonneg, le_rfl⟩, le_rfl,
    .start limiter.rate_nonneg limiter.capacity_nonneg le_rfl⟩

theorem Paid.wait (h : limiter.Paid bucket) {time : ℚ} (htime : bucket.now ≤ time) :
    limiter.Paid (limiter.wait bucket time) := by
  have hgain : 0 ≤ limiter.rate * (time - bucket.now) :=
    mul_nonneg limiter.rate_nonneg (sub_nonneg.mpr htime)
  have htokens : bucket.tokens ≤ limiter.dueAt bucket time :=
    le_min h.inBucket.le_capacity (h.tokens_le.trans (le_add_of_nonneg_right hgain))
  exact ⟨⟨h.inBucket.nonneg, h.inBucket.le_capacity⟩, htokens,
    h.budget.wait limiter.rate_nonneg htime (h.inBucket.nonneg.trans htokens) (min_le_left ..)
      (min_le_right ..)⟩

/-- A refill does not touch what is due. -/
theorem Paid.refill (h : limiter.Paid bucket) {tokens : ℚ}
    (hin : limiter.InBucket { bucket with tokens := tokens }) (hdue : tokens ≤ bucket.due) :
    limiter.Paid { bucket with tokens := tokens } :=
  ⟨hin, hdue, h.budget⟩

/-- A token that is taken was due. -/
theorem Paid.take (h : limiter.Paid bucket) (htoken : 1 ≤ bucket.tokens) :
    limiter.Paid { bucket with
      tokens := bucket.tokens - 1
      due := bucket.due - 1
      admits := bucket.now :: bucket.admits } := by
  have hin : limiter.InBucket { bucket with tokens := bucket.tokens - 1 } :=
    ⟨sub_nonneg.mpr htoken, (sub_le_self _ zero_le_one).trans h.inBucket.le_capacity⟩
  have hdue : bucket.tokens - 1 ≤ bucket.due - 1 := sub_le_sub_right h.tokens_le 1
  exact ⟨⟨hin.nonneg, hin.le_capacity⟩, hdue, h.budget.admission limiter.rate_nonneg
    (hin.nonneg.trans hdue) (sub_add_cancel ..).le⟩

theorem keepsOn_paid : limiter.machine.KeepsOn limiter.Pays limiter.Paid Any := by
  refine ⟨fun _ _ _ _ => trivial,
    fun t q acquiring time x bucket bucket' hpaid _ hpays hstep => ?_⟩
  have hin := (keeps_inBucket.2 t q acquiring time x bucket bucket' hpaid.inBucket trivial hstep).1
  refine ⟨?_, trivial, fun _ _ _ _ => trivial⟩
  obtain ⟨hnow, -, rfl⟩ := step_cases hstep
  have hwait := hpaid.wait hnow
  cases acquiring with
  | crediting now last =>
      refine hwait.refill hin ?_
      rcases hpays with hfull | hle
      -- the bucket should be full, and the tokens are at most that
      · exact (min_le_right ..).trans hfull.ge
      · exact (min_le_left ..).trans hle
  | taking =>
      simp only [access] at hin ⊢
      split_ifs with htoken
      · exact hwait.take htoken
      · exact hwait
  | start | timed now | stamping now => exact ⟨hin, hwait.tokens_le, hwait.budget⟩

/-- **The rate limiter.** In every run the tokens are between 0 and the capacity, and in every run
    whose refills make no more of the tokens than is due, no interval has more successes than the
    capacity and what accrues in it. -/
theorem admissions_bounded (limiter : RateLimiter) (time : ℚ) (ls : List (Label Unit ℚ))
    (s : Sys Bucket Unit Acquiring (Except RateLimitError Unit))
    (hrun : run limiter.machine.sysStep (Sys.init (limiter.make time)) ls = some s) :
    (0 ≤ s.store.tokens ∧ s.store.tokens ≤ limiter.capacity)
      ∧ (Along limiter.machine.sysStep (Machine.guardOf limiter.Pays)
          (Sys.init (limiter.make time)) ls →
        ∀ a b, a ≤ b → (admissionsIn a b s.store.admits : ℚ)
          ≤ limiter.capacity + limiter.rate * (b - a)) := by
  have hstart := limiter.paid_make time
  have hs := keeps_inBucket.run (s := Sys.init (limiter.make time))
    ⟨hstart.inBucket, fun _ => trivial⟩ hrun
  refine ⟨⟨hs.store.nonneg, hs.store.le_capacity⟩, fun hpays => ?_⟩
  have hpaid := keepsOn_paid.run (s := Sys.init (limiter.make time)) ⟨hstart, fun _ => trivial⟩
    hpays hrun
  exact hpaid.store.budget.window

/-- One token, and one more in every unit of time. -/
def onePerUnit : RateLimiter := ⟨1, 1, zero_le_one, zero_le_one⟩

/-- The first acquire takes the token at time 0. Two acquires at time 1 both read the stamp 0. -/
def twiceCredited : List (Label Unit ℚ) :=
  [.call 0 (), .step 0 0, .step 0 0, .step 0 0,
    .call 1 (), .step 1 1, .step 1 1, .call 2 (), .step 2 1, .step 2 1,
    .step 1 1, .step 1 1, .step 1 1, .step 2 1, .step 2 1, .step 2 1]

/-- Both succeed, at the same time. -/
theorem two_admitted_at_once :
    ∃ s, run onePerUnit.machine.sysStep (Sys.init (onePerUnit.make 0)) twiceCredited = some s
      ∧ s.store.admits = [1, 1, 0]
      ∧ ¬ (∀ a b, a ≤ b → (admissionsIn a b s.store.admits : ℚ)
          ≤ onePerUnit.capacity + onePerUnit.rate * (b - a)) := by
  have hlast : (run onePerUnit.machine.sysStep (Sys.init (onePerUnit.make 0)) twiceCredited).map
      (fun s => s.store.admits) = some [1, 1, 0] := by decide +kernel
  obtain ⟨s, hrun, hadmits⟩ := exists_run _ hlast
  refine ⟨s, hrun, hadmits, fun h => ?_⟩
  have hone := h 1 1 le_rfl
  rw [hadmits] at hone
  exact absurd hone (by decide +kernel)

/-- Two acquires one after the other, while the clock goes on. The first refill is cut off at the
    capacity, and the bucket is due to be full when the second one comes. -/
def inTurn : List (Label Unit ℚ) :=
  [.call 0 (), .step 0 1, .step 0 2, .step 0 3, .step 0 4, .step 0 5,
    .call 1 (), .step 1 6, .step 1 7, .step 1 8, .step 1 9, .step 1 10]

theorem admissions_bounded_inTurn :
    ∃ s, run onePerUnit.machine.sysStep (Sys.init (onePerUnit.make 0)) inTurn = some s
      ∧ s.store.admits = [10, 5]
      ∧ ∀ a b, a ≤ b → (admissionsIn a b s.store.admits : ℚ)
          ≤ onePerUnit.capacity + onePerUnit.rate * (b - a) := by
  have hlast : (run onePerUnit.machine.sysStep (Sys.init (onePerUnit.make 0)) inTurn).map
      (fun s => s.store.admits) = some [10, 5] := by decide +kernel
  obtain ⟨s, hrun, hadmits⟩ := exists_run _ hlast
  exact ⟨s, hrun, hadmits,
    (admissions_bounded onePerUnit 0 inTurn s hrun).2 (by decide +kernel)⟩

/-! ## What a refill that does not pay leads to

Tokens that are not due can be taken, one acquire after the other, until there is less than nothing
due. Hence the condition asks no more than it must. -/

/-- Some interval has more successes than the capacity and what accrues in it. -/
def Exceeded (limiter : RateLimiter) (bucket : Bucket) : Prop :=
  ∃ a b, a ≤ b ∧ limiter.capacity + limiter.rate * (b - a) < admissionsIn a b bucket.admits

/-- No stamp is later than the time, and what is due is used up. -/
structure Traced (limiter : RateLimiter) (bucket : Bucket) : Prop where
  inBucket : limiter.InBucket bucket
  stamped : bucket.lastRefill ≤ bucket.now
  tight : Tight limiter.rate limiter.capacity bucket.now bucket.due bucket.admits

/-- Nor is the time that an acquire has read. -/
def ReadClock (_ : ℕ) (status : Status Unit Acquiring (Except RateLimitError Unit))
    (bucket : Bucket) : Prop :=
  match status with
  | .running _ (.timed now) => now ≤ bucket.now
  | .running _ (.crediting now _) => now ≤ bucket.now
  | .running _ (.stamping now) => now ≤ bucket.now
  | _ => True

theorem ReadClock.mono {status : Status Unit Acquiring (Except RateLimitError Unit)}
    (h : ReadClock t status bucket) (hnow : bucket.now ≤ bucket'.now) :
    ReadClock t status bucket' := by
  match status, h with
  | .idle, _ | .running _ .start, _ | .running _ .taking, _ | .done _ _, _ => trivial
  | .running _ (.timed _), h | .running _ (.crediting _ _), h | .running _ (.stamping _), h =>
      exact le_trans h hnow

theorem keeps_traced : limiter.machine.Keeps limiter.Traced ReadClock := by
  refine ⟨fun _ _ _ _ => trivial, fun t q acquiring time x bucket bucket' hI hread hstep => ?_⟩
  have hin := (keeps_inBucket.2 t q acquiring time x bucket bucket' hI.inBucket trivial hstep).1
  obtain ⟨hnow, rfl, rfl⟩ := step_cases hstep
  have hstamped : bucket.lastRefill ≤ time := hI.stamped.trans hnow
  have htight : Tight limiter.rate limiter.capacity time (limiter.dueAt bucket time)
      bucket.admits := hI.tight.wait hnow
  have hothers : ∀ bucket'' : Bucket, bucket''.now = time → ∀ u status, u ≠ t →
      ReadClock u status bucket → ReadClock u status bucket'' :=
    fun bucket'' htime u status _ hu => hu.mono (htime ▸ hnow)
  cases acquiring with
  | start => exact ⟨⟨hin, hstamped, htight⟩, le_rfl, hothers _ rfl⟩
  | timed now =>
      refine ⟨⟨hin, hstamped, htight⟩, ?_, hothers _ rfl⟩
      simp only [access]
      split_ifs
      · exact le_trans hread hnow
      · trivial
  | crediting now last => exact ⟨⟨hin, hstamped, htight⟩, le_trans hread hnow, hothers _ rfl⟩
  | stamping now => exact ⟨⟨hin, le_trans hread hnow, htight⟩, trivial, hothers _ rfl⟩
  | taking =>
      simp only [access] at hin ⊢
      split_ifs with htoken
      · rw [if_pos htoken] at hin
        exact ⟨⟨hin, hstamped, htight.admission⟩, trivial, hothers _ rfl⟩
      · rw [if_neg htoken] at hin
        exact ⟨⟨hin, hstamped, htight⟩, trivial, hothers _ rfl⟩

/-- What is known of every run. -/
theorem traced_run {time : ℚ} {ls : List (Label Unit ℚ)}
    {s : Sys Bucket Unit Acquiring (Except RateLimitError Unit)}
    (hrun : run limiter.machine.sysStep (Sys.init (limiter.make time)) ls = some s) :
    limiter.Traced s.store :=
  (keeps_traced.run (s := Sys.init (limiter.make time))
    ⟨⟨(limiter.paid_make time).inBucket, le_rfl, .start⟩, fun _ => trivial⟩ hrun).store

/-- The tokens after a refill at a time. -/
def refilled (limiter : RateLimiter) (bucket : Bucket) (time : ℚ) : ℚ :=
  min (bucket.tokens + (time - bucket.lastRefill) * limiter.rate) limiter.capacity

/-- A bucket after an acquire that found a token at a time. -/
def acquired (limiter : RateLimiter) (bucket : Bucket) (time : ℚ) : Bucket :=
  ⟨limiter.refilled bucket time - 1, time, time, limiter.dueAt bucket time - 1,
    time :: bucket.admits⟩

/-- No time passes before a step at the present. -/
theorem step_now (bucket : Bucket) {acquiring : Acquiring} {time : ℚ} (hnow : bucket.now = time)
    (hdue : bucket.due ≤ limiter.capacity) :
    limiter.machine.step t acquiring time bucket
      = some (limiter.access acquiring time bucket) := by
  have hwait : limiter.wait bucket time = bucket := by
    subst hnow
    simp only [wait, dueAt, sub_self, mul_zero, add_zero, min_eq_right hdue]
  simp only [machine, hwait, hnow, le_refl, if_true]

/-- An acquire that is alone, and finds a token once it has refilled the bucket. -/
theorem alone_acquired (h : limiter.Traced bucket) {time : ℚ} (hnow : bucket.now ≤ time)
    (htoken : 1 ≤ limiter.refilled bucket time) :
    limiter.machine.Alone t time .start bucket (.ok ()) (limiter.acquired bucket time) := by
  have hdue : limiter.dueAt bucket time ≤ limiter.capacity := min_le_left ..
  have hread : limiter.machine.step t .start time bucket
      = some (.inl (.timed time), limiter.wait bucket time) := if_pos hnow
  have hwaited : ∀ acquiring, limiter.machine.step t acquiring time (limiter.wait bucket time)
      = some (limiter.access acquiring time (limiter.wait bucket time)) :=
    fun _ => step_now _ rfl hdue
  have htake : limiter.machine.Alone t time .taking
      ⟨limiter.refilled bucket time, time, time, limiter.dueAt bucket time, bucket.admits⟩
      (.ok ()) (limiter.acquired bucket time) :=
    .done ((step_now _ rfl hdue).trans (congrArg some (if_pos htoken)))
  rcases (h.stamped.trans hnow).lt_or_eq with hlater | rfl
  · have hpositive : 0 < time - bucket.lastRefill := sub_pos.mpr hlater
    have hcompare : limiter.machine.step t (.timed time) time (limiter.wait bucket time)
        = some (.inl (.crediting time bucket.lastRefill), limiter.wait bucket time) := by
      rw [hwaited]
      simp only [access, wait, max_eq_left hpositive.le, if_pos hpositive]
    have hcredit : limiter.machine.step t (.crediting time bucket.lastRefill) time
        (limiter.wait bucket time) = some (.inl (.stamping time),
          { limiter.wait bucket time with tokens := limiter.refilled bucket time }) := by
      rw [hwaited]
      simp only [access, wait, refilled, max_eq_left hpositive.le]
    exact .next hread (.next hcompare (.next hcredit (.next (step_now _ rfl hdue) htake)))
  -- there is nothing to credit
  · have hsame : limiter.refilled bucket bucket.lastRefill = bucket.tokens := by
      rw [refilled, sub_self, zero_mul, add_zero, min_eq_left h.inBucket.le_capacity]
    have hcompare : limiter.machine.step t (.timed bucket.lastRefill) bucket.lastRefill
        (limiter.wait bucket bucket.lastRefill)
          = some (.inl .taking, limiter.wait bucket bucket.lastRefill) := by
      rw [hwaited]
      simp only [access, wait, sub_self, max_self, lt_irrefl, if_false]
    rw [hsame] at htake
    exact .next hread (.next hcompare htake)

/-- After an acquire that waits for the token it lacks there still is more than is due. What is due
    has gone down by a token, or to less than nothing. -/
theorem acquired_excess (h : limiter.Traced bucket) (hcapacity : 1 ≤ limiter.capacity)
    (hrate : 0 < limiter.rate) (hexcess : bucket.due < bucket.tokens) :
    ∃ time, bucket.now ≤ time ∧ 1 ≤ limiter.refilled bucket time
      ∧ (limiter.acquired bucket time).due < (limiter.acquired bucket time).tokens
      ∧ ((limiter.acquired bucket time).due ≤ bucket.due - 1
        ∨ (limiter.acquired bucket time).due < 0) := by
  let lack := max (1 - bucket.tokens) 0
  let time := bucket.now + lack / limiter.rate
  have hlack : 0 ≤ lack := le_max_right ..
  have hlacks : 1 - bucket.tokens ≤ lack := le_max_left ..
  have hcases : lack = 1 - bucket.tokens ∨ lack = 0 := max_choice ..
  have hnow : bucket.now ≤ time := le_add_of_nonneg_right (div_nonneg hlack hrate.le)
  have haccrued : limiter.rate * (time - bucket.now) = lack := by
    rw [add_sub_cancel_left, mul_div_cancel₀ _ hrate.ne']
  have hcredited : lack ≤ (time - bucket.lastRefill) * limiter.rate := by
    have hlonger : time - bucket.now ≤ time - bucket.lastRefill := sub_le_sub_left h.stamped time
    calc lack = (time - bucket.now) * limiter.rate := by rw [← haccrued, mul_comm]
      _ ≤ _ := mul_le_mul_of_nonneg_right hlonger hrate.le
  have hdue : limiter.dueAt bucket time ≤ bucket.due + lack := by
    rw [dueAt, haccrued]
    exact min_le_right ..
  have hroom : bucket.due + lack < limiter.capacity := by
    have hle := h.inBucket.le_capacity
    rcases hcases with heq | heq <;> linarith
  refine ⟨time, hnow, le_min (by linarith) hcapacity, ?_, ?_⟩
  · have hmore : limiter.dueAt bucket time < limiter.refilled bucket time :=
      lt_min (by linarith) (by linarith)
    exact sub_lt_sub_right hmore 1
  · show limiter.dueAt bucket time - 1 ≤ _ ∨ limiter.dueAt bucket time - 1 < 0
    rcases hcases with heq | heq
    · exact .inr (by linarith)
    · exact .inl (by linarith)

/-- **Tokens that are not due are too many.** From where they are, a run can go on to an interval
    that has too many successes. -/
theorem exceeds_of_excess (hcapacity : 1 ≤ limiter.capacity) (hrate : 0 < limiter.rate) {time : ℚ}
    {ls : List (Label Unit ℚ)} {s : Sys Bucket Unit Acquiring (Except RateLimitError Unit)}
    (hrun : run limiter.machine.sysStep (Sys.init (limiter.make time)) ls = some s)
    (hexcess : s.store.due < s.store.tokens) :
    ∃ ls' s', run limiter.machine.sysStep s ls' = some s' ∧ limiter.Exceeded s'.store := by
  obtain ⟨n, hn⟩ := exists_nat_gt s.store.due
  -- what is due goes down by at least one with every acquire
  induction n generalizing s ls with
  | zero =>
      obtain ⟨a, ha, hmany⟩ := (traced_run hrun).tight.exceeded (by simpa using hn)
      exact ⟨[], s, rfl, a, s.store.now, ha, hmany⟩
  | succ n ih =>
      have htraced := traced_run hrun
      obtain ⟨time', hnow, htoken, hexcess', hless⟩ :=
        acquired_excess htraced hcapacity hrate hexcess
      obtain ⟨t, hidle⟩ := exists_idle hrun
      obtain ⟨ls', hls'⟩ := Alone.run_call (q := ()) hidle (alone_acquired htraced hnow htoken)
      have hfewer : (limiter.acquired s.store time').due < n := by
        rcases hless with hless | hless
        · push_cast at hn
          linarith
        · exact hless.trans_le n.cast_nonneg
      obtain ⟨ls'', s'', hrun'', hmany⟩ := ih ((run_append hrun).trans hls') hexcess' hfewer
      exact ⟨ls' ++ ls'', s'', (run_append hls').trans hrun'', hmany⟩

/-- **The condition asks no more than it must.** After a step that does not pay, a run can go on to
    an interval that has too many successes. -/
theorem exceeds_of_not_pays (hcapacity : 1 ≤ limiter.capacity) (hrate : 0 < limiter.rate) {time : ℚ}
    {ls : List (Label Unit ℚ)} {s s' : Sys Bucket Unit Acquiring (Except RateLimitError Unit)}
    {a : Label Unit ℚ}
    (hrun : run limiter.machine.sysStep (Sys.init (limiter.make time)) ls = some s)
    (hstep : limiter.machine.sysStep s a = some s')
    (hpays : ¬ Machine.guardOf limiter.Pays s a) :
    ∃ ls' s'', run limiter.machine.sysStep s' ls' = some s'' ∧ limiter.Exceeded s''.store := by
  have hrun' : run limiter.machine.sysStep (Sys.init (limiter.make time)) (ls ++ [a])
      = some s' := by
    rw [run_append hrun, run_cons, hstep]
    rfl
  refine exceeds_of_excess hcapacity hrate hrun' ?_
  cases a with
  | call t q => exact absurd trivial hpays
  | step t e =>
      obtain ⟨q, acquiring, x, bucket, hcall, hx, rfl⟩ := sysStep_step hstep
      obtain ⟨-, -, rfl⟩ := step_cases hx
      have hunpaid : ¬ limiter.Pays s.store t acquiring e := by
        intro hpaid
        refine hpays fun q' acquiring' hcall' => ?_
        obtain ⟨-, rfl⟩ := Status.running.inj (hcall.symm.trans hcall')
        exact hpaid
      match acquiring with
      | .crediting now last =>
          obtain ⟨hcut, hmore⟩ := not_or.mp hunpaid
          exact lt_min (not_le.mp hmore) (lt_of_le_of_ne (min_le_left ..) hcut)
      | .start | .timed _ | .stamping _ | .taking => exact absurd trivial hunpaid

end RateLimiter

end IdEffect.Resilience
