import IdEffect.Lib.Saturating
import IdEffect.Scheduling.Schedule

set_option autoImplicit false

/-! # Exponential backoff: `Schedule::exponential`

Here the arm of `Exponential` is written with the words of the source: a step of 32 bits, a power
and a product of 128 bits, a cap of 64 bits. All three saturate, and what they come to is the
product of numbers, cut down once (`exponential_exact`): the casts lose nothing, and neither the
step nor the power can stop early in a way that shows. -/

namespace IdEffect.Scheduling

/-! ## Durations in words -/

/-- `core::time::Duration` -/
structure CoreDuration where
  secs : BitVec 64
  nanos : BitVec 32
  nanos_lt : nanos.toNat < 1000000000

namespace CoreDuration

/-- The duration it stands for. -/
def toNanos (d : CoreDuration) : Duration := d.secs.toNat * 1000000000 + d.nanos.toNat

/-- `Duration::as_nanos`: `self.secs as u128 * NANOS_PER_SEC as u128 + self.nanos as u128` -/
def asNanos (d : CoreDuration) : BitVec 128 :=
  d.secs.setWidth 128 * 1000000000#128 + d.nanos.setWidth 128

/-- `Duration::from_nanos` -/
def fromNanos (n : BitVec 64) : CoreDuration where
  secs := n / 1000000000#64
  nanos := (n % 1000000000#64).setWidth 32
  nanos_lt := by
    rw [BitVec.toNat_setWidth, BitVec.toNat_umod]
    exact (Nat.mod_le _ _).trans_lt (Nat.mod_lt _ (by decide))

def zero : CoreDuration := ⟨0, 0, by decide⟩

/-- `Duration::MAX` -/
def max : CoreDuration := ⟨BitVec.allOnes 64, 999999999, by decide⟩

/-- `order::duration()`: first the seconds, then the nanoseconds. -/
def cmp (a b : CoreDuration) : Ordering :=
  (compare a.secs.toNat b.secs.toNat).then (compare a.nanos.toNat b.nanos.toNat)

theorem toNat_asNanos (d : CoreDuration) : d.asNanos.toNat = d.toNanos := by
  have hsecs := d.secs.isLt
  have hnanos := d.nanos_lt
  have hmul : (d.secs.setWidth 128 * 1000000000#128).toNat = d.secs.toNat * 1000000000 := by
    rw [BitVec.toNat_mul_of_lt, BitVec.toNat_setWidth_of_le (by decide)]
    · rfl
    · rw [BitVec.toNat_setWidth_of_le (by decide)]
      exact (Nat.mul_lt_mul_of_pos_right hsecs (by decide)).trans (by decide)
  have hwidth : (d.nanos.setWidth 128).toNat = d.nanos.toNat :=
    BitVec.toNat_setWidth_of_le (by decide)
  rw [asNanos, BitVec.toNat_add_of_lt, hmul, hwidth, toNanos]
  rw [hmul, hwidth]
  omega

theorem toNanos_fromNanos (n : BitVec 64) : (fromNanos n).toNanos = n.toNat := by
  have hlt : n.toNat % 1000000000 < 2 ^ 32 := (Nat.mod_lt _ (by decide)).trans (by decide)
  have hsecs : (fromNanos n).secs.toNat = n.toNat / 1000000000 := rfl
  have hnanos : (fromNanos n).nanos.toNat = n.toNat % 1000000000 := Nat.mod_eq_of_lt hlt
  rw [toNanos, hsecs, hnanos]
  exact Nat.div_add_mod' _ _

theorem toNanos_max : max.toNanos = durationMax := by
  have hsecs : max.secs.toNat = u64Max := BitVec.toNat_allOnes
  have hnanos : max.nanos.toNat = 999999999 := rfl
  rw [toNanos, hsecs, hnanos]
  rfl

theorem toNanos_le_max (d : CoreDuration) : d.toNanos ≤ durationMax := by
  have hsecs : d.secs.toNat ≤ u64Max := Nat.le_pred_of_lt d.secs.isLt
  have hnanos : d.nanos.toNat ≤ 999999999 := Nat.le_pred_of_lt d.nanos_lt
  exact Nat.add_le_add (Nat.mul_le_mul_right _ hsecs) hnanos

/-- The lexicographic order is that of the numbers. -/
theorem cmp_eq_compare (a b : CoreDuration) : a.cmp b = compare a.toNanos b.toNanos := by
  have ha := a.nanos_lt
  have hb := b.nanos_lt
  simp only [cmp, toNanos, Nat.compare_eq_ite_lt]
  split_ifs <;> first | rfl | omega

end CoreDuration

/-- `order::clamp` -/
def clamp {A : Type} (ord : A → A → Ordering) (value minimum maximum : A) : A :=
  if ord value minimum = .lt then minimum
  else if ord value maximum = .gt then maximum
  else value

theorem clamp_duration (d : CoreDuration) :
    clamp CoreDuration.cmp d CoreDuration.zero CoreDuration.max = d := by
  unfold clamp
  rw [CoreDuration.cmp_eq_compare, CoreDuration.cmp_eq_compare, if_neg, if_neg]
  · rw [Nat.compare_eq_gt, CoreDuration.toNanos_max]
    exact Nat.not_lt.2 d.toNanos_le_max
  · rw [Nat.compare_eq_lt]
    exact Nat.not_lt_zero _

/-- `n.min(u64::MAX as u128) as u64` -/
def cappedU64 (n : BitVec 128) : BitVec 64 :=
  let u64Max := (BitVec.allOnes 64).setWidth 128
  (if n ≤ u64Max then n else u64Max).setWidth 64

/-- The cast loses nothing. -/
theorem toNat_cappedU64 (n : BitVec 128) : (cappedU64 n).toNat = min n.toNat u64Max := by
  have hcap : ((BitVec.allOnes 64).setWidth 128).toNat = u64Max := rfl
  have hlt : u64Max < 2 ^ 64 := by decide
  unfold cappedU64
  rw [BitVec.toNat_setWidth]
  split
  · next hle =>
      rw [BitVec.le_def, hcap] at hle
      rw [Nat.min_eq_left hle, Nat.mod_eq_of_lt (hle.trans_lt hlt)]
  · next hgt =>
      rw [BitVec.le_def, hcap] at hgt
      rw [hcap, Nat.min_eq_right (Nat.le_of_not_le hgt), Nat.mod_eq_of_lt hlt]

/-! ## The arm of `Exponential` -/

/-- `Schedule::Exponential` -/
structure Backoff where
  base : CoreDuration
  step : BitVec 32

namespace Backoff

/-- `Schedule::exponential` -/
def exponential (base : CoreDuration) : Backoff := ⟨base, 0⟩

/-- The arm of `Exponential` in `Schedule::next`. -/
def next (s : Backoff) : CoreDuration × Backoff :=
  let mult := Saturating.pow 2#128 s.step.toNat
  let nanos := Saturating.mul s.base.asNanos mult
  let step := Saturating.add s.step 1
  let candidate := CoreDuration.fromNanos (cappedU64 nanos)
  (clamp CoreDuration.cmp candidate CoreDuration.zero CoreDuration.max, ⟨s.base, step⟩)

/-- The delay of the step number `k` of a run. -/
def delay : Backoff → ℕ → CoreDuration
  | s, 0 => s.next.1
  | s, k + 1 => s.next.2.delay k

/-- The schedule in numbers. -/
def toSchedule (s : Backoff) : Schedule := .exponential s.base.toNanos s.step.toNat

end Backoff

/-- The clamp does nothing. -/
theorem exponentialDelay_eq_min (base : Duration) (step : ℕ) :
    Schedule.exponentialDelay base step =
      min (min (base * min (2 ^ step) u128Max) u128Max) u64Max := by
  have hmax : u64Max ≤ durationMax := by decide
  simp only [Schedule.exponentialDelay, Nat.max_zero]
  exact Nat.min_eq_left ((Nat.min_le_right _ _).trans hmax)

/-- The powers and the product saturate in 128 bits, which does not show in 64 bits. -/
theorem exponentialDelay_eq (base : Duration) (step : ℕ) :
    Schedule.exponentialDelay base step = min (base * 2 ^ step) u64Max := by
  have hcut : min (base * min (2 ^ step) u128Max) u128Max = min (base * 2 ^ step) u128Max := by
    rw [Nat.mul_comm, Saturating.min_min_mul, Nat.mul_comm]
  have hwidth : u64Max ≤ u128Max := by decide
  rw [exponentialDelay_eq_min, hcut, Nat.min_assoc, Nat.min_eq_right hwidth]

/-- Once the step saturates, a delay that is not zero has reached the cap. -/
theorem min_pow_step (base k : ℕ) :
    min (base * 2 ^ min k u32Max) u64Max = min (base * 2 ^ k) u64Max := by
  rcases Nat.le_total k u32Max with hle | hle
  · rw [Nat.min_eq_left hle]
  · rw [Nat.min_eq_right hle]
    rcases Nat.eq_zero_or_pos base with rfl | hpos
    · rw [Nat.zero_mul, Nat.zero_mul]
    · have hexp : 64 ≤ u32Max := by decide
      have hcap : u64Max ≤ 2 ^ 64 := by decide
      have hpow : u64Max ≤ 2 ^ u32Max := hcap.trans (Nat.pow_le_pow_right Nat.two_pos hexp)
      have hbase : 2 ^ u32Max ≤ base * 2 ^ u32Max := Nat.le_mul_of_pos_left _ hpos
      have hk : base * 2 ^ u32Max ≤ base * 2 ^ k :=
        Nat.mul_le_mul_left base (Nat.pow_le_pow_right (by decide) hle)
      have hstop : min (base * 2 ^ u32Max) u64Max = u64Max := Nat.min_eq_right (hpow.trans hbase)
      exact hstop.trans (Nat.min_eq_right (hpow.trans (hbase.trans hk))).symm

namespace Backoff

theorem toNanos_next (s : Backoff) :
    s.next.1.toNanos = Schedule.exponentialDelay s.base.toNanos s.step.toNat := by
  have hnanos : (Saturating.mul s.base.asNanos (Saturating.pow 2#128 s.step.toNat)).toNat =
      min (s.base.toNanos * min (2 ^ s.step.toNat) u128Max) u128Max := by
    rw [Saturating.toNat_mul, Saturating.toNat_pow, CoreDuration.toNat_asNanos]
    rfl
  rw [next, clamp_duration, CoreDuration.toNanos_fromNanos, toNat_cappedU64, hnanos,
    exponentialDelay_eq_min]

theorem toNat_step_next (s : Backoff) : s.next.2.step.toNat = min (s.step.toNat + 1) u32Max :=
  Saturating.toNat_add s.step 1

/-- **A step in words is a step in numbers.** -/
theorem next_toSchedule (s : Backoff) (input : ScheduleInput) :
    s.toSchedule.next input = (some s.next.1.toNanos, s.next.2.toSchedule) := by
  rw [toSchedule, Schedule.next, toNanos_next, toSchedule, toNat_step_next]
  rfl

theorem trace_toSchedule (s : Backoff) (inputs : List ScheduleInput) :
    s.toSchedule.trace inputs =
      (List.range inputs.length).map fun k => some (s.delay k).toNanos := by
  induction inputs generalizing s with
  | nil => rfl
  | cons input inputs ih =>
      rw [Schedule.trace, next_toSchedule, ih, List.length_cons, List.range_succ_eq_map,
        List.map_cons, List.map_map]
      rfl

theorem toNanos_delay (s : Backoff) (k : ℕ) :
    (s.delay k).toNanos = min (s.base.toNanos * 2 ^ min (s.step.toNat + k) u32Max) u64Max := by
  induction k generalizing s with
  | zero =>
      have hstep := s.step.isLt
      have hmin : min (s.step.toNat + 0) u32Max = s.step.toNat := by
        unfold u32Max
        omega
      rw [delay, toNanos_next, exponentialDelay_eq, hmin]
  | succ k ih =>
      have hmin : min (min (s.step.toNat + 1) u32Max + k) u32Max =
          min (s.step.toNat + (k + 1)) u32Max := by omega
      rw [delay, ih, toNat_step_next, hmin]
      rfl

end Backoff

/-- **Exponential backoff is exact up to saturation.** The delay number `k` is `base * 2 ^ k`
    nanoseconds, or the greatest number of 64 bits if that is less; so the delays never decrease. -/
theorem exponential_exact (base : CoreDuration) :
    (∀ k, ((Backoff.exponential base).delay k).toNanos = min (base.toNanos * 2 ^ k) u64Max) ∧
      (∀ j k, j ≤ k → ((Backoff.exponential base).delay j).toNanos ≤
        ((Backoff.exponential base).delay k).toNanos) ∧
      ∀ inputs, (Schedule.exponential base.toNanos 0).trace inputs =
        (List.range inputs.length).map fun k => some (min (base.toNanos * 2 ^ k) u64Max) := by
  have hexact : ∀ k, ((Backoff.exponential base).delay k).toNanos =
      min (base.toNanos * 2 ^ k) u64Max := by
    intro k
    have hrun := Backoff.toNanos_delay (Backoff.exponential base) k
    have hzero : (Backoff.exponential base).step.toNat + k = k := Nat.zero_add k
    rwa [hzero, min_pow_step] at hrun
  refine ⟨hexact, fun j k hjk => ?_, fun inputs => ?_⟩
  · rw [hexact, hexact]
    have hpow : 2 ^ j ≤ 2 ^ k := Nat.pow_le_pow_right (by decide) hjk
    exact min_le_min_right _ (Nat.mul_le_mul_left _ hpow)
  · simp only [← hexact]
    exact Backoff.trace_toSchedule (Backoff.exponential base) inputs

end IdEffect.Scheduling
