import Mathlib.Algebra.Order.Ring.Defs
import Mathlib.Data.Nat.Cast.Order.Ring
import Mathlib.Tactic.Linarith
import Mathlib.Tactic.Ring

set_option autoImplicit false

/-! # Admissions paid from a level

A level never exceeds `capacity`, rises with time at most at `rate`, and falls by at least one for
every admission. Then no interval has more admissions than the capacity and what accrues in it
(`Budget.window`). The invariant bounds the admissions since any earlier time together with the
level that is left. A level that rises as far as it may and falls by no more than one is `Tight`:
when it is below zero, some interval has more. -/

variable {K : Type}

/-! ## Intervals -/

section Intervals

variable [LinearOrder K] {now s t : K} {admits : List K}

/-- The number of admissions in an interval. -/
def admissionsIn (s t : K) (admits : List K) : ℕ := (admits.filter fun u => s ≤ u ∧ u ≤ t).length

theorem admissionsIn_cons (s t u : K) (admits : List K) :
    admissionsIn s t (u :: admits)
      = admissionsIn s t admits + if s ≤ u ∧ u ≤ t then 1 else 0 := by
  rw [admissionsIn, List.filter_cons]
  by_cases h : s ≤ u ∧ u ≤ t
  · rw [if_pos (decide_eq_true h), if_pos h]
    rfl
  · rw [if_neg (by rw [decide_eq_false h]; exact Bool.false_ne_true), if_neg h]
    rfl

theorem admissionsIn_of_le (hpast : ∀ u ∈ admits, u ≤ now) (ht : now ≤ t) (s : K) :
    admissionsIn s t admits = admissionsIn s now admits := by
  refine congrArg List.length (List.filter_congr fun u hu => ?_)
  have hu' := hpast u hu
  rw [decide_eq_decide]
  exact and_congr_right fun _ => ⟨fun _ => hu', fun _ => hu'.trans ht⟩

theorem admissionsIn_of_lt (hpast : ∀ u ∈ admits, u ≤ now) (hs : now < s) (t : K) :
    admissionsIn s t admits = 0 := by
  refine List.length_eq_zero_iff.mpr (List.filter_eq_nil_iff.mpr fun u hu => ?_)
  rw [decide_eq_true_eq]
  exact fun h => absurd ((hpast u hu).trans_lt hs) (not_lt.mpr h.1)

end Intervals

/-! ## Budgets -/

variable [CommRing K] [LinearOrder K] [IsStrictOrderedRing K]

/-- A level at time `now`, after the admissions at the times `admits`. -/
structure Budget (rate capacity now level : K) (admits : List K) : Prop where
  past : ∀ u ∈ admits, u ≤ now
  nonneg : 0 ≤ level
  le_capacity : level ≤ capacity
  since : ∀ s ≤ now, (admissionsIn s now admits : K) + level ≤ capacity + rate * (now - s)
  window : ∀ s t, s ≤ t → (admissionsIn s t admits : K) ≤ capacity + rate * (t - s)

namespace Budget

variable {rate capacity now now' level level' : K} {admits : List K}

/-- No admission yet. -/
theorem start (hrate : 0 ≤ rate) (hnonneg : 0 ≤ level) (hle : level ≤ capacity) :
    Budget rate capacity now level [] := by
  have haccrued : ∀ s t : K, s ≤ t → 0 ≤ rate * (t - s) :=
    fun s t hst => mul_nonneg hrate (sub_nonneg.mpr hst)
  refine ⟨fun u hu => absurd hu List.not_mem_nil, hnonneg, hle, fun s hs => ?_, fun s t hst => ?_⟩
  · rw [admissionsIn, List.filter_nil, List.length_nil, Nat.cast_zero, zero_add]
    exact hle.trans (le_add_of_nonneg_right (haccrued s now hs))
  · rw [admissionsIn, List.filter_nil, List.length_nil, Nat.cast_zero]
    exact add_nonneg (hnonneg.trans hle) (haccrued s t hst)

/-- Time passes. -/
theorem wait (h : Budget rate capacity now level admits) (hrate : 0 ≤ rate) (hnow : now ≤ now')
    (hnonneg : 0 ≤ level') (hle : level' ≤ capacity)
    (hrise : level' ≤ level + rate * (now' - now)) : Budget rate capacity now' level' admits := by
  refine ⟨fun u hu => (h.past u hu).trans hnow, hnonneg, hle, fun s hs => ?_, h.window⟩
  rcases le_or_gt s now with hsn | hsn
  · have hsince := h.since s hsn
    rw [admissionsIn_of_le h.past hnow]
    have hsplit : rate * (now' - s) = rate * (now - s) + rate * (now' - now) := by ring
    linarith
  -- nothing has been admitted since a time that has just passed
  · rw [admissionsIn_of_lt h.past hsn, Nat.cast_zero, zero_add]
    exact hle.trans (le_add_of_nonneg_right (mul_nonneg hrate (sub_nonneg.mpr hs)))

/-- An admission. -/
theorem admission (h : Budget rate capacity now level admits) (hrate : 0 ≤ rate)
    (hnonneg : 0 ≤ level') (hpaid : level' + 1 ≤ level) :
    Budget rate capacity now level' (now :: admits) := by
  have hpast : ∀ u ∈ now :: admits, u ≤ now := by
    intro u hu
    rcases List.mem_cons.mp hu with rfl | hu
    · exact le_rfl
    · exact h.past u hu
  have hcount : ∀ s ≤ now, (admissionsIn s now (now :: admits) : K)
      = admissionsIn s now admits + 1 := by
    intro s hs
    rw [admissionsIn_cons, if_pos ⟨hs, le_rfl⟩, Nat.cast_succ]
  have hsince : ∀ s ≤ now, (admissionsIn s now (now :: admits) : K) + level'
      ≤ capacity + rate * (now - s) := by
    intro s hs
    rw [hcount s hs]
    linarith [h.since s hs]
  refine ⟨hpast, hnonneg, by linarith [h.le_capacity], hsince, fun s t hst => ?_⟩
  rcases le_or_gt now t with ht | ht
  · rw [admissionsIn_of_le hpast ht]
    rcases le_or_gt s now with hs | hs
    · have hgrow : rate * (now - s) ≤ rate * (t - s) :=
        mul_le_mul_of_nonneg_left (sub_le_sub_right ht s) hrate
      linarith [hsince s hs]
    · rw [admissionsIn_of_lt hpast hs, Nat.cast_zero]
      exact add_nonneg (h.nonneg.trans h.le_capacity) (mul_nonneg hrate (sub_nonneg.mpr hst))
  -- an interval that is over does not see the admission
  · rw [admissionsIn_cons, if_neg fun hmem => absurd ht (not_lt.mpr hmem.2)]
    exact h.window s t hst

end Budget

/-! ## Levels that are used up -/

/-- The level is as high as the admissions allow: with those of some interval that ends now it makes
    up all that the interval may have. -/
structure Tight (rate capacity now level : K) (admits : List K) : Prop where
  past : ∀ u ∈ admits, u ≤ now
  le_capacity : level ≤ capacity
  attained : ∃ s ≤ now, (admissionsIn s now admits : K) + level = capacity + rate * (now - s)

namespace Tight

variable {rate capacity now now' level : K} {admits : List K}

omit [IsStrictOrderedRing K] in
theorem start : Tight rate capacity now capacity [] :=
  ⟨fun u hu => absurd hu List.not_mem_nil, le_rfl, now, le_rfl, by simp [admissionsIn]⟩

/-- Time passes, and the level rises as far as it may. -/
theorem wait (h : Tight rate capacity now level admits) (hnow : now ≤ now') :
    Tight rate capacity now' (min capacity (level + rate * (now' - now))) admits := by
  refine ⟨fun u hu => (h.past u hu).trans hnow, min_le_left .., ?_⟩
  rcases le_or_gt (level + rate * (now' - now)) capacity with hle | hlt
  · obtain ⟨s, hs, heq⟩ := h.attained
    refine ⟨s, hs.trans hnow, ?_⟩
    have hsplit : rate * (now' - s) = rate * (now - s) + rate * (now' - now) := by ring
    rw [min_eq_right hle, admissionsIn_of_le h.past hnow]
    linarith
  -- the level is cut off, which takes time, and nothing has been admitted since
  · have hlater : now < now' := by
      refine lt_of_le_of_ne hnow fun heq => ?_
      rw [heq, sub_self, mul_zero, add_zero] at hlt
      exact absurd h.le_capacity (not_le.mpr hlt)
    refine ⟨now', le_rfl, ?_⟩
    rw [min_eq_left hlt.le, admissionsIn_of_lt h.past hlater, sub_self, mul_zero, Nat.cast_zero,
      zero_add, add_zero]

/-- An admission, whether or not the level allows it. -/
theorem admission (h : Tight rate capacity now level admits) :
    Tight rate capacity now (level - 1) (now :: admits) := by
  obtain ⟨s, hs, heq⟩ := h.attained
  refine ⟨List.forall_mem_cons.mpr ⟨le_rfl, h.past⟩,
    (sub_le_self _ zero_le_one).trans h.le_capacity, s, hs, ?_⟩
  rw [admissionsIn_cons, if_pos ⟨hs, le_rfl⟩, Nat.cast_succ]
  linarith

/-- **A level below zero means an interval with too many admissions.** -/
theorem exceeded (h : Tight rate capacity now level admits) (hlevel : level < 0) :
    ∃ s ≤ now, capacity + rate * (now - s) < admissionsIn s now admits := by
  obtain ⟨s, hs, heq⟩ := h.attained
  exact ⟨s, hs, by linarith⟩

end Tight
