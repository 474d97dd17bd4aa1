import Mathlib.Data.List.Basic

set_option autoImplicit false

/-! # Permits, and a gauge beside them

Work is let in by permits, of which there is a fixed number, and a gauge that stops at `top` is
raised when a piece of work begins and lowered when it ends. The gauge is not the permits: it is
right only as long as whoever raised it lowers it again. A `Tally` is what can be counted in such a
system, and a `Move` what a step can do to it. -/

namespace Gauge

/-- The permits that are free and those that are held, how many of the holders have raised the
    gauge, and the gauge. -/
structure Tally where
  free : ℕ
  held : ℕ
  entered : ℕ
  gauge : ℕ
  entered_le : entered ≤ held

/-- What a step does to the tally. All but the last are `ok`: there a holder is gone that had raised
    the gauge, and the gauge was not lowered. -/
inductive Move (top : ℕ) (ok : Prop) (t t' : Tally) : Prop where
  | stay (hok : ok) (free : t'.free = t.free) (held : t'.held = t.held)
      (entered : t'.entered = t.entered) (gauge : t'.gauge = t.gauge)
  | acquire (hok : ok) (free : t'.free + 1 = t.free) (held : t'.held = t.held + 1)
      (entered : t'.entered = t.entered) (gauge : t'.gauge = t.gauge)
  | release (hok : ok) (free : t'.free = t.free + 1) (held : t'.held + 1 = t.held)
      (entered : t'.entered = t.entered) (gauge : t'.gauge = t.gauge)
  | enter (hok : ok) (free : t'.free = t.free) (held : t'.held = t.held)
      (entered : t'.entered = t.entered + 1) (gauge : t'.gauge = min (t.gauge + 1) top)
  | leave (hok : ok) (free : t'.free = t.free + 1) (held : t'.held + 1 = t.held)
      (entered : t'.entered + 1 = t.entered) (gauge : t'.gauge = t.gauge - 1)
  | lose (hok : ¬ ok) (free : t'.free = t.free + 1) (held : t'.held + 1 = t.held)
      (entered : t'.entered + 1 = t.entered) (gauge : t'.gauge = t.gauge)

/-- There are `n` permits in all, and the gauge shows at least those that have raised it. -/
structure Tally.Within (n : ℕ) (t : Tally) : Prop where
  permits : t.free + t.held = n
  entered_le_gauge : t.entered ≤ t.gauge

def Tally.Exact (t : Tally) : Prop := t.gauge = t.entered

instance (t : Tally) : Decidable t.Exact := inferInstanceAs (Decidable (_ = _))

variable {n top : ℕ} {ok : Prop} {t t' : Tally}

theorem Tally.Within.entered_le_permits (h : t.Within n) : t.entered ≤ n :=
  calc t.entered ≤ t.held := t.entered_le
    _ ≤ t.free + t.held := Nat.le_add_left ..
    _ = n := h.permits

/-- Permits are neither made nor lost, in any step. -/
theorem Move.permits (hmove : Move top ok t t') : t'.free + t'.held = t.free + t.held := by
  cases hmove with
  | stay _ free held => omega
  | acquire _ free held => omega
  | release _ free held => omega
  | enter _ free held => omega
  | leave _ free held => omega
  | lose _ free held => omega

theorem Move.within (hmove : Move top ok t t') (hn : n < top) (h : t.Within n) : t'.Within n := by
  have hpermits : t'.free + t'.held = n := hmove.permits.trans h.permits
  refine ⟨hpermits, ?_⟩
  have hle := h.entered_le_gauge
  have hroom : t'.entered < top := by
    have := t'.entered_le
    omega
  cases hmove with
  | stay _ _ _ entered gauge => omega
  | acquire _ _ _ entered gauge => omega
  | release _ _ _ entered gauge => omega
  | enter _ _ _ entered gauge => omega
  | leave _ _ _ entered gauge => omega
  | lose _ _ _ entered gauge => omega

/-- **The gauge is right after a step exactly when it was right before and the step was `ok`.** A
    gauge that is too high stays too high: it would have to be raised beyond `top` to lose the
    surplus, and there are fewer permits than that. -/
theorem Move.exact_iff (hmove : Move top ok t t') (hn : n < top) (h : t.Within n) :
    t'.Exact ↔ t.Exact ∧ ok := by
  have hpermits : t'.free + t'.held = n := hmove.permits.trans h.permits
  have hle := h.entered_le_gauge
  have hroom : t'.entered < top := by
    have := t'.entered_le
    omega
  unfold Tally.Exact
  cases hmove with
  | stay hok _ _ entered gauge => rw [entered, gauge, and_iff_left hok]
  | acquire hok _ _ entered gauge => rw [entered, gauge, and_iff_left hok]
  | release hok _ _ entered gauge => rw [entered, gauge, and_iff_left hok]
  | enter hok _ _ entered gauge =>
      rw [and_iff_left hok]
      omega
  | leave hok _ _ entered gauge =>
      rw [and_iff_left hok]
      omega
  | lose hok _ _ entered gauge =>
      refine iff_of_false (fun heq => ?_) fun h => hok h.2
      omega

/-! ## Counting the holders -/

variable {A : Type}

/-- One entry of a list is replaced: what counts the entries with `p` goes by the old and the new
    one. -/
theorem countP_set (p : A → Bool) {xs : List A} {i : ℕ} {x : A} (h : xs[i]? = some x) (y : A) :
    (xs.set i y).countP p + (p x).toNat = xs.countP p + (p y).toNat := by
  induction xs generalizing i with
  | nil => cases h
  | cons z xs ih =>
      cases i with
      | zero =>
          obtain rfl := Option.some.inj h
          rw [List.set_cons_zero, List.countP_cons, List.countP_cons]
          cases p z <;> cases p y <;> simp
      | succ i =>
          have hrest := ih h
          rw [List.set_cons_succ, List.countP_cons, List.countP_cons]
          omega

/-- Among entries that are all different, one changes its answer: what counts the entries goes by
    the old answer and the new one. -/
theorem countP_update {p q : A → Bool} {x : A} {xs : List A} (hx : x ∈ xs) (hnodup : xs.Nodup)
    (hrest : ∀ y, y ≠ x → q y = p y) : xs.countP q + (p x).toNat = xs.countP p + (q x).toNat := by
  induction xs with
  | nil => cases hx
  | cons y ys ih =>
      obtain ⟨hnot, hnodup⟩ := List.nodup_cons.1 hnodup
      rw [List.countP_cons, List.countP_cons]
      rcases List.mem_cons.1 hx with rfl | hys
      · have hsame : ys.countP q = ys.countP p :=
          List.countP_congr fun z hz => by rw [hrest z fun heq => hnot (heq ▸ hz)]
        rw [hsame]
        cases p x <;> cases q x <;> simp
      · have hne : y ≠ x := fun heq => hnot (heq ▸ hys)
        have hind := ih hys hnodup
        rw [hrest y hne]
        omega

end Gauge
