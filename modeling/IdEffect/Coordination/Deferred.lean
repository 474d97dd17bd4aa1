import Mathlib.Data.Nat.Notation

set_option autoImplicit false

/-! # One-shot cells: `coordination/deferred.rs`

A `Deferred` is a watch channel whose value is `None` until the first completion. Every completion
is one atomic `send_if_modified` that stores its exit only into an empty slot and tells whether it
did. `Cause` and `Exit` are those of `failure/cause.rs` and `failure/exit.rs`. -/

namespace IdEffect

inductive Cause (E : Type) where
  | fail (error : E)
  | die (message : String)
  | interrupt (fiberId : ℕ)
  | both (left right : Cause E)
  | andThen (left right : Cause E)
  deriving DecidableEq, Repr

inductive Exit (A E : Type) where
  | success (value : A)
  | failure (cause : Cause E)
  deriving DecidableEq, Repr

/-- The value of the watch channel. -/
structure Deferred (A E : Type) where
  slot : Option (Exit A E)

namespace Deferred

variable {A E : Type}

def make : Deferred A E := ⟨none⟩

/-- What `wait` answers; `none` while it has to suspend. The waiting call holds the deferred, sender
    included, so its channel is never closed. -/
def wait (d : Deferred A E) : Option (Except (Cause E) A) :=
  d.slot.map fun exit => match exit with
    | .success a => .ok a
    | .failure c => .error c

/-- The body of every completion: the first one wins. -/
def complete (d : Deferred A E) (exit : Exit A E) : Bool × Deferred A E :=
  match d.slot with
  | none => (true, ⟨some exit⟩)
  | some _ => (false, d)

def succeed (d : Deferred A E) (value : A) : Bool × Deferred A E := d.complete (.success value)

def fail (d : Deferred A E) (error : E) : Bool × Deferred A E := d.complete (.failure (.fail error))

/-- The fiber id is drawn from the process-wide counter if the interrupt comes first. -/
def interrupt (d : Deferred A E) (fiberId : ℕ) : Bool × Deferred A E :=
  d.complete (.failure (.interrupt fiberId))

/-! ## The first completion wins -/

theorem complete_fst {d : Deferred A E} {exit : Exit A E} :
    (d.complete exit).1 = true ↔ d.slot = none := by
  unfold complete
  split <;> simp_all

/-- After a completion the slot is taken, by this completion or by an earlier one. -/
theorem complete_slot (d : Deferred A E) (exit : Exit A E) :
    (d.complete exit).2.slot = some (d.slot.getD exit) := by
  unfold complete
  split
  · next h => rw [h]; rfl
  · next e h => rw [h]; rfl

theorem wait_eq_ok {d : Deferred A E} {a : A} :
    d.wait = some (.ok a) ↔ d.slot = some (.success a) := by
  unfold wait
  rcases d.slot with _ | _ | c <;> simp

end Deferred

end IdEffect
