import Mathlib.Data.Nat.Basic

set_option autoImplicit false

/-! # Waiting for a signal

A signal is a counter of the times it fired. Somebody who waits for a condition checks it,
registers, which means to remember the counter, and sleeps until the counter has moved. `Covered` is
what keeps such a waiter from sleeping through its condition: once the condition is due, either the
counter has moved since the registration or somebody is about to fire. Its lemmas say how that
survives each kind of step; the only step that can break it is firing while a waiter has checked but
not registered. -/

namespace Signal

/-- A waiter that is not waiting, has checked its condition in vain but not registered yet, or
    sleeps since the counter stood at `seen`. -/
inductive Waiter where
  | away
  | unregistered
  | registered (seen : ℕ)

/-- The waiter will not sleep through `due`, given that `pending` promises another signal. -/
def Covered (epoch : ℕ) (due pending : Prop) : Waiter → Prop
  | .away => True
  | .unregistered => due → pending
  | .registered seen => seen ≤ epoch ∧ (seen = epoch → due → pending)

variable {epoch : ℕ} {due due' pending pending' : Prop} {w : Waiter}

/-- A step that does not fire and does not break the promise. -/
theorem Covered.mono (h : Covered epoch due pending w)
    (himp : (due → pending) → due' → pending') : Covered epoch due' pending' w := by
  cases w with
  | away => trivial
  | unregistered => exact himp h
  | registered seen => exact ⟨h.1, fun he => himp (h.2 he)⟩

/-- Firing reaches everybody who is registered; only those who are not need another promise. -/
theorem Covered.fire (h : Covered epoch due pending w)
    (hw : w = .unregistered → due' → pending') : Covered (epoch + 1) due' pending' w := by
  cases w with
  | away => trivial
  | unregistered => exact hw rfl
  | registered seen =>
      have hle : seen ≤ epoch := h.1
      exact ⟨by omega, fun he => by omega⟩

theorem Covered.register (h : Covered epoch due pending .unregistered) :
    Covered epoch due pending (.registered epoch) :=
  ⟨Nat.le_refl _, fun _ => h⟩

theorem Covered.pending_of_asleep (h : Covered epoch due pending (.registered epoch)) (hd : due) :
    pending :=
  h.2 rfl hd

end Signal
