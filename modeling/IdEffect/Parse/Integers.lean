import IdEffect.Parse.Combinators
import IdEffect.Parse.JsonLeaves

set_option autoImplicit false

/-! # Integers: `str::parse::<i64>` and `signed_int`

`signed_int` takes a sign and the digits after it and leaves both to `str::parse`, so that the
smallest `i64`, whose magnitude is one more than that of the largest, is read like any other. -/

namespace IdEffect.Parse

/-- `str::trim` -/
def trim (s : List Char) : List Char := ((trimStart s).reverse.dropWhile isWhitespace).reverse

/-! ## `str::parse::<i64>` -/

inductive IntErrorKind where
  | empty
  | invalidDigit
  | posOverflow
  | negOverflow
deriving DecidableEq, Repr

/-- The text of a `ParseIntError`. -/
def IntErrorKind.display : IntErrorKind → String
  | .empty => "cannot parse integer from empty string"
  | .invalidDigit => "invalid digit found in string"
  | .posOverflow => "number too large to fit in target type"
  | .negOverflow => "number too small to fit in target type"

/-- The range of an `i64`. -/
def InI64 (z : ℤ) : Prop := -9223372036854775808 ≤ z ∧ z ≤ 9223372036854775807

instance (z : ℤ) : Decidable (InI64 z) := inferInstanceAs (Decidable (_ ∧ _))

/-- The digits after the sign; `n` is the magnitude of the number read so far. -/
def i64Digits (neg : Bool) (n : ℕ) : List Char → Except IntErrorKind Int64
  | [] => .ok (Int64.ofInt (signed neg n))
  | c :: digits =>
      if c.isDigit then
        if InI64 (signed neg (10 * n + (c.toNat - '0'.toNat))) then
          i64Digits neg (10 * n + (c.toNat - '0'.toNat)) digits
        else .error (if neg then .negOverflow else .posOverflow)
      else .error .invalidDigit

/-- `str::parse::<i64>` -/
def i64FromStr : List Char → Except IntErrorKind Int64
  | [] => .error .empty
  | c :: digits =>
      if c = '+' ∨ c = '-' then
        if digits = [] then .error .invalidDigit else i64Digits (c == '-') 0 digits
      else i64Digits false 0 (c :: digits)

theorem signed_inI64_of_le {neg : Bool} {m n : ℕ} (hmn : m ≤ n) (h : InI64 (signed neg n)) :
    InI64 (signed neg m) := by
  cases neg <;> simp only [InI64, signed] at * <;> grind

theorem le_foldl_decimal (digits : List Char) (n : ℕ) :
    n ≤ digits.foldl (fun n c => 10 * n + (c.toNat - '0'.toNat)) n := by
  induction digits generalizing n with
  | nil => exact le_rfl
  | cons c digits ih =>
      calc n ≤ 10 * n + (c.toNat - '0'.toNat) := by omega
        _ ≤ _ := ih _

/-- The loop stops at the first step out of the range, and no later step would lead back. -/
theorem i64Digits_eq {neg : Bool} {digits : List Char} (hd : ∀ c ∈ digits, c.isDigit = true)
    (n : ℕ) (hn : InI64 (signed neg n)) :
    i64Digits neg n digits =
      if InI64 (signed neg (digits.foldl (fun n c => 10 * n + (c.toNat - '0'.toNat)) n)) then
        .ok (Int64.ofInt
          (signed neg (digits.foldl (fun n c => 10 * n + (c.toNat - '0'.toNat)) n)))
      else .error (if neg then .negOverflow else .posOverflow) := by
  induction digits generalizing n with
  | nil => rw [i64Digits, List.foldl_nil, if_pos hn]
  | cons c digits ih =>
      rw [List.forall_mem_cons] at hd
      rw [i64Digits, if_pos hd.1, List.foldl_cons]
      by_cases hnext : InI64 (signed neg (10 * n + (c.toNat - '0'.toNat)))
      · rw [if_pos hnext, ih hd.2 _ hnext]
      · have hlast : ¬ InI64 (signed neg (digits.foldl
            (fun n c => 10 * n + (c.toNat - '0'.toNat)) (10 * n + (c.toNat - '0'.toNat)))) :=
          fun h => hnext (signed_inI64_of_le (le_foldl_decimal digits _) h)
        rw [if_neg hnext, if_neg hlast]

theorem i64Digits_zero {neg : Bool} {digits : List Char} (hd : ∀ c ∈ digits, c.isDigit = true) :
    i64Digits neg 0 digits =
      match parseI64 neg digits with
      | some value => .ok value
      | none => .error (if neg then .negOverflow else .posOverflow) := by
  have hzero : InI64 (signed neg 0) := by cases neg <;> decide
  rw [i64Digits_eq hd 0 hzero, ← decimal]
  by_cases hrange : InI64 (signed neg (decimal digits))
  · have hparse : parseI64 neg digits = some (Int64.ofInt (signed neg (decimal digits))) :=
      if_pos hrange
    rw [if_pos hrange, hparse]
  · have hparse : parseI64 neg digits = none := if_neg hrange
    rw [if_neg hrange, hparse]

theorem not_sign_of_isDigit {c : Char} (h : c.isDigit = true) : ¬ (c = '+' ∨ c = '-') := by
  rintro (rfl | rfl) <;> exact absurd h (by decide)

/-- Digits without a sign. -/
theorem i64FromStr_digits {digits : List Char} (hd : Digits digits) :
    i64FromStr digits = i64Digits false 0 digits := by
  obtain ⟨c, cs, rfl⟩ := List.exists_cons_of_ne_nil hd.1
  rw [i64FromStr, if_neg (not_sign_of_isDigit (hd.2 c (List.mem_cons_self ..)))]

theorem i64FromStr_sign {c : Char} (hc : c = '+' ∨ c = '-') {digits : List Char}
    (hne : digits ≠ []) : i64FromStr (c :: digits) = i64Digits (c == '-') 0 digits := by
  rw [i64FromStr, if_pos hc, if_neg hne]

/-! ## `signed_int` -/

/-- The sign, if there is one, and what follows it. -/
def splitSign : List Char → List Char × List Char
  | [] => ([], [])
  | c :: rest => if c = '-' ∨ c = '+' then ([c], rest) else ([], c :: rest)

def signedInt : Parser (List Char) Int64 ParseFailure := fun input =>
  let (sign, body) := splitSign input
  let digits := body.takeWhile Char.isDigit
  if digits = [] then some (.error ⟨"expected integer"⟩)
  else
    match i64FromStr (sign ++ digits) with
    | .error err => some (.error ⟨"invalid integer: " ++ err.display⟩)
    | .ok value => some (.ok (value, body.dropWhile Char.isDigit))

/-- `i64::to_string` -/
def i64ToString (value : Int64) : List Char :=
  minus (decide (value.toInt < 0)) ++ Nat.toDigits 10 value.toInt.natAbs

/-- A sign, digits and no further digit. -/
theorem signedInt_append {sign digits rest : List Char}
    (hsign : sign = [] ∨ sign = ['-'] ∨ sign = ['+'])
    (hd : Digits digits) (hr : NoDigit rest) :
    signedInt (sign ++ digits ++ rest) =
      match i64FromStr (sign ++ digits) with
      | .error err => some (.error ⟨"invalid integer: " ++ err.display⟩)
      | .ok value => some (.ok (value, rest)) := by
  have hsplit : splitSign (sign ++ digits ++ rest) = (sign, digits ++ rest) := by
    rcases hsign with rfl | rfl | rfl
    · obtain ⟨c, cs, rfl⟩ := List.exists_cons_of_ne_nil hd.1
      have hc := not_sign_of_isDigit (hd.2 c (List.mem_cons_self ..))
      rw [List.nil_append, List.cons_append, splitSign, if_neg fun h => hc h.symm]
    · rfl
    · rfl
  obtain ⟨htake, hdrop⟩ := span_digits hd.2 hr
  rw [signedInt, hsplit]
  simp only [htake, hdrop, if_neg hd.1]

theorem decimal_toDigits (n : ℕ) : decimal (Nat.toDigits 10 n) = n := by
  have h := Nat.ofDigitChars_ten_toDigits (n := n)
  rwa [Nat.ofDigitChars_eq_foldl] at h

theorem digits_toDigits (n : ℕ) : Digits (Nat.toDigits 10 n) :=
  ⟨Nat.toDigits_ne_nil, fun _ hc => Nat.isDigit_of_mem_toDigits (by decide) (by decide) hc⟩

theorem signed_natAbs (z : ℤ) : signed (decide (z < 0)) z.natAbs = z := by
  unfold signed
  split
  · next hneg =>
      have hlt : z < 0 := of_decide_eq_true hneg
      omega
  · next hpos =>
      have hge : ¬ z < 0 := of_decide_eq_false (Bool.eq_false_iff.2 hpos)
      omega

theorem parseI64_natAbs (value : Int64) :
    parseI64 (decide (value.toInt < 0)) (Nat.toDigits 10 value.toInt.natAbs) = some value := by
  rw [parseI64_eq_some, decimal_toDigits, signed_natAbs]

/-- Every `i64` is read back from its text. -/
theorem i64FromStr_i64ToString (value : Int64) : i64FromStr (i64ToString value) = .ok value := by
  have hd := digits_toDigits value.toInt.natAbs
  have hparse := parseI64_natAbs value
  unfold i64ToString minus
  split
  · next hneg =>
      rw [hneg] at hparse
      rw [List.singleton_append, i64FromStr_sign (Or.inr rfl) hd.1]
      show i64Digits true 0 _ = _
      rw [i64Digits_zero hd.2, hparse]
  · next hneg =>
      rw [Bool.not_eq_true] at hneg
      rw [hneg] at hparse
      rw [List.nil_append, i64FromStr_digits hd, i64Digits_zero hd.2, hparse]

theorem signedInt_i64ToString (value : Int64) {rest : List Char} (hr : NoDigit rest) :
    signedInt (i64ToString value ++ rest) = some (.ok (value, rest)) := by
  have hsign : minus (decide (value.toInt < 0)) = [] ∨ minus (decide (value.toInt < 0)) = ['-'] ∨
      minus (decide (value.toInt < 0)) = ['+'] := by
    unfold minus
    split <;> simp
  have h := signedInt_append hsign (digits_toDigits value.toInt.natAbs) hr
  rw [← i64ToString, i64FromStr_i64ToString] at h
  exact h

end IdEffect.Parse
