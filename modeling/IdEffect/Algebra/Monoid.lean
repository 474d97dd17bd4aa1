import Mathlib.Algebra.BigOperators.Group.List.Basic
import Mathlib.Algebra.Group.Basic
import Mathlib.Data.Nat.Bits
import Mathlib.Tactic.Ring

set_option autoImplicit false

/-! # Semigroups and monoids: `algebra/semigroup.rs` and `algebra/monoid.rs`

A lawful instance of the two traits is a `Semigroup` or a `Monoid`, whose product is `combine` and
whose unit is `empty`. Nothing here is commutative, but all the values that `power` multiplies are
powers of one element (`powerLoop_eq`), and these commute. -/

namespace IdEffect.Algebra

variable {A : Type}

/-! ## Of a semigroup -/

section Semigroup

variable [Semigroup A]

def combine (a b : A) : A := a * b

/-- The `reduce` of the iterator. -/
def combineAll : List A → Option A
  | [] => none
  | first :: iter => some (iter.foldl combine first)

def combineAllOr (first : A) (iter : List A) : A := iter.foldl combine first

/-- The `for _ in 1..n`. -/
def repeatFrom (value : A) : ℕ → A → A
  | 0, result => result
  | times + 1, result => repeatFrom value times (combine result value)

/-- The `repeat` of `semigroup.rs`. -/
def repeatSome (value : A) (n : ℕ) : Option A :=
  if n = 0 then none else some (repeatFrom value (n - 1) value)

/-- `Option` adds the identity that a semigroup may lack. -/
def combineOption : Option A → Option A → Option A
  | some a, some b => some (combine a b)
  | some a, none => some a
  | none, some b => some b
  | none, none => none

@[simp]
theorem combineOption_none (a : Option A) : combineOption a none = a := by
  cases a <;> rfl

@[simp]
theorem none_combineOption (a : Option A) : combineOption none a = a := by
  cases a <;> rfl

@[simp]
theorem combineOption_some (a b : A) : combineOption (some a) (some b) = some (a * b) := by
  rfl

theorem combineOption_assoc (a b c : Option A) :
    combineOption (combineOption a b) c = combineOption a (combineOption b c) := by
  cases a <;> cases b <;> cases c <;> simp [mul_assoc]

/-- The instance of `Option`. -/
@[reducible]
def optionMonoid : Monoid (Option A) where
  mul := combineOption
  one := none
  mul_assoc := combineOption_assoc
  one_mul := none_combineOption
  mul_one := combineOption_none

end Semigroup

/-! ## Of a monoid -/

section Monoid

variable [Monoid A]

def concat (iter : List A) : A := iter.foldl combine 1

/-- The `repeat` of `monoid.rs`. -/
def repeatTimes (value : A) (n : ℕ) : A :=
  if n = 0 then 1 else repeatFrom value (n - 1) value

/-- The `while` of `power`. -/
def powerLoop (base : A) (exp : ℕ) (result : A) (first : Bool) : A :=
  if _h : exp > 0 then
    let result' :=
      if exp &&& 1 = 1 then (if first then base else combine result base) else result
    let first' := if exp &&& 1 = 1 then false else first
    let exp' := exp >>> 1
    powerLoop (if exp' > 0 then combine base base else base) exp' result' first'
  else result
termination_by exp
decreasing_by
  simp only [Nat.shiftRight_one]
  omega

def power (base : A) (exp : ℕ) : A :=
  if exp = 0 then 1 else powerLoop base exp 1 true

/-! ## What they compute -/

theorem foldl_combine (iter : List A) (a : A) : iter.foldl combine a = a * iter.prod := by
  induction iter generalizing a with
  | nil => simp
  | cons x iter ih =>
      rw [List.foldl_cons, ih, List.prod_cons]
      exact mul_assoc a x iter.prod

theorem concat_eq_prod (iter : List A) : concat iter = iter.prod := by
  rw [concat, foldl_combine, one_mul]

/-- A list may be cut anywhere. -/
theorem concat_append (xs ys : List A) : concat (xs ++ ys) = combine (concat xs) (concat ys) := by
  simp only [concat_eq_prod, List.prod_append, combine]

theorem concat_replicate (a : A) (n : ℕ) : concat (List.replicate n a) = a ^ n := by
  rw [concat_eq_prod, List.prod_replicate]

theorem combineAllOr_eq (first : A) (iter : List A) :
    combineAllOr first iter = combine first (concat iter) := by
  rw [combineAllOr, foldl_combine, concat_eq_prod, combine]

theorem repeatFrom_pow (a : A) (times k : ℕ) : repeatFrom a times (a ^ k) = a ^ (k + times) := by
  induction times generalizing k with
  | zero => simp [repeatFrom]
  | succ times ih =>
      rw [repeatFrom, combine, ← pow_succ, ih]
      congr 1
      omega

theorem repeatTimes_eq (a : A) (n : ℕ) : repeatTimes a n = a ^ n := by
  rw [repeatTimes]
  split
  · next h => rw [h, pow_zero]
  · next h =>
    have hrun := repeatFrom_pow a (n - 1) 1
    rw [pow_one] at hrun
    rw [hrun]
    congr 1
    omega

/-- The invariant of the loop. The base is a power of `a` and so is the result, which is still
    unused as long as `first` holds. What is left of the exponent says how far the result has to
    go. -/
theorem powerLoop_eq (a : A) (b exp r : ℕ) (first : Bool) (h : first = true → r = 0) :
    powerLoop (a ^ b) exp (a ^ r) first = a ^ (r + b * exp) := by
  induction exp using Nat.strong_induction_on generalizing b r first with
  | _ exp ih =>
    rw [powerLoop]
    split
    · next hexp =>
      have hlt : exp >>> 1 < exp := by rw [Nat.shiftRight_one]; omega
      have hbase : (if exp >>> 1 > 0 then combine (a ^ b) (a ^ b) else a ^ b)
          = a ^ (if exp >>> 1 > 0 then b + b else b) := by
        split
        · exact (pow_add a b b).symm
        · rfl
      have hresult : (if exp &&& 1 = 1 then
            (if first = true then a ^ b else combine (a ^ r) (a ^ b)) else a ^ r)
          = a ^ (if exp &&& 1 = 1 then r + b else r) := by
        split
        · split
          · next hfirst => rw [h hfirst, zero_add]
          · exact (pow_add a r b).symm
        · rfl
      dsimp only
      rw [hbase, hresult, ih _ hlt]
      · congr 1
        rw [Nat.and_one_is_mod, Nat.shiftRight_one]
        -- the exponent is twice the next one, and the bit that was read
        have hsplit : exp = 2 * (exp / 2) + exp % 2 := (Nat.div_add_mod exp 2).symm
        rcases Nat.mod_two_eq_zero_or_one exp with hbit | hbit
        · have hhalf : exp / 2 > 0 := by omega
          rw [if_neg (by omega), if_pos hhalf]
          conv_rhs => rw [hsplit, hbit]
          ring
        · rw [if_pos hbit]
          conv_rhs => rw [hsplit, hbit]
          split
          · ring
          · next hhalf =>
            have hzero : exp / 2 = 0 := by omega
            rw [hzero]
            ring
      · intro hfirst
        split at hfirst
        · cases hfirst
        · next hbit => rw [if_neg hbit, h hfirst]
    · next hexp =>
      have hzero : exp = 0 := by omega
      rw [hzero, mul_zero, add_zero]

theorem power_eq (a : A) (n : ℕ) : power a n = a ^ n := by
  rw [power]
  split
  · next h => rw [h, pow_zero]
  · have hrun := powerLoop_eq a 1 n 0 true fun _ => rfl
    rwa [pow_one, pow_zero, zero_add, one_mul] at hrun

/-- Squaring repeatedly is repeating, in any monoid. -/
theorem power_eq_repeat (a : A) (n : ℕ) :
    power a n = repeatTimes a n ∧ repeatTimes a n = concat (List.replicate n a) := by
  rw [power_eq, repeatTimes_eq, concat_replicate]
  exact ⟨rfl, rfl⟩

/-- The two files repeat alike, but for the value of no repetition. -/
theorem repeatSome_eq (a : A) (n : ℕ) :
    repeatSome a n = if n = 0 then none else some (repeatTimes a n) := by
  rw [repeatSome, repeatTimes]
  split
  · rfl
  · rfl

end Monoid

theorem foldl_combineOption (rest : List A) [Semigroup A] (a : A) :
    (rest.map some).foldl combineOption (some a) = some (rest.foldl combine a) := by
  induction rest generalizing a with
  | nil => simp
  | cons x rest ih => simpa [combine] using ih (a * x)

/-- `combine_all` is `concat` in the monoid of `Option`. -/
theorem combineAll_eq_concat [Semigroup A] (iter : List A) :
    combineAll iter = @concat (Option A) optionMonoid (iter.map some) := by
  cases iter with
  | nil => rfl
  | cons first rest => exact (foldl_combineOption rest first).symm

end IdEffect.Algebra
