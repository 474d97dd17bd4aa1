import Mathlib.Algebra.Order.Ring.Nat
import Mathlib.Order.MinMax

set_option autoImplicit false

/-! # Unsigned arithmetic that saturates

The operations on the words of a width are those of the numbers, cut down to the greatest word
(`toNat_add`, `toNat_mul`, `toNat_pow`). That a factor was cut down before does not show in a
product that is cut down itself (`min_min_mul`), so that products and powers may be taken one after
the other. -/

namespace Saturating

/-- A factor may be cut down first. -/
theorem min_min_mul (x a m : ℕ) : min (min x m * a) m = min (x * a) m := by
  rcases Nat.le_total x m with hle | hle
  · rw [Nat.min_eq_left hle]
  · rw [Nat.min_eq_right hle]
    rcases Nat.eq_zero_or_pos a with rfl | hpos
    · rw [Nat.mul_zero, Nat.mul_zero]
    · have hm : m ≤ m * a := Nat.le_mul_of_pos_right m hpos
      have hx : m * a ≤ x * a := Nat.mul_le_mul_right a hle
      rw [Nat.min_eq_right hm, Nat.min_eq_right (hm.trans hx)]

variable {w : ℕ}

/-- The greatest word if the number does not fit. -/
def ofNat (w n : ℕ) : BitVec w := if n < 2 ^ w then BitVec.ofNat w n else BitVec.allOnes w

theorem toNat_ofNat (n : ℕ) : (ofNat w n).toNat = min n (2 ^ w - 1) := by
  unfold ofNat
  split
  · next hlt =>
      rw [BitVec.toNat_ofNat, Nat.mod_eq_of_lt hlt]
      omega
  · next hge =>
      rw [BitVec.toNat_allOnes]
      omega

def add (a b : BitVec w) : BitVec w := ofNat w (a.toNat + b.toNat)

def mul (a b : BitVec w) : BitVec w := ofNat w (a.toNat * b.toNat)

def pow (a : BitVec w) : ℕ → BitVec w
  | 0 => ofNat w 1
  | n + 1 => mul (pow a n) a

theorem toNat_add (a b : BitVec w) : (add a b).toNat = min (a.toNat + b.toNat) (2 ^ w - 1) :=
  toNat_ofNat _

theorem toNat_mul (a b : BitVec w) : (mul a b).toNat = min (a.toNat * b.toNat) (2 ^ w - 1) :=
  toNat_ofNat _

theorem toNat_pow (a : BitVec w) (n : ℕ) : (pow a n).toNat = min (a.toNat ^ n) (2 ^ w - 1) := by
  induction n with
  | zero => rw [pow, toNat_ofNat, Nat.pow_zero]
  | succ n ih => rw [pow, toNat_mul, ih, min_min_mul, Nat.pow_succ]

end Saturating
