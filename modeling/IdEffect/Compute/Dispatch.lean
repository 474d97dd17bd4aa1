import Mathlib.Algebra.Ring.Nat
import Mathlib.Algebra.BigOperators.Group.List.Basic

set_option autoImplicit false

/-! # Serial or parallel

`parallel_if_profitable` runs one of two closures, depending on the length of the work and on the
state of the machine; whether it takes the parallel one is left open here. A parallel iterator is
collected in its own order, but a sum over it is taken in any order. -/

namespace IdEffect.Compute

def parallelIfProfitable {T : Type} (profitable : ℕ → Bool) (len : ℕ) (serial parallel : T) : T :=
  if profitable len then parallel else serial

/-- Where both closures give the same, so does the choice between them. -/
theorem parallelIfProfitable_self {T : Type} (profitable : ℕ → Bool) (len : ℕ) (x : T) :
    parallelIfProfitable profitable len x x = x :=
  ite_self x

/-- The order in which the items of a parallel iterator arrive. -/
structure Arrival where
  order : List ℕ → List ℕ
  perm : ∀ l, (order l).Perm l

/-- `.sum()` on a parallel iterator over `l`. -/
def Arrival.sum (a : Arrival) (l : List ℕ) : ℕ :=
  (a.order l).sum

theorem Arrival.sum_eq (a : Arrival) (l : List ℕ) : a.sum l = l.sum :=
  (a.perm l).sum_eq

end IdEffect.Compute
