import IdEffect.Parse.Integers
import IdEffect.Scheduling.Schedule

set_option autoImplicit false

/-! # Durations in text: `duration::decode` of `scheduling/duration.rs`

The text is a number, of milliseconds if it stands alone and else with a unit. All that is asked of
the number before it is made a `Duration` is that it is not below zero, and `from_secs_f64` panics
on what is not a number or too large (`decode_returns_iff`).

An `f64` is a `Float`. `isAlphabetic` and `toLowercase` are the functions of std on characters and
texts, which go by the tables of Unicode. -/

namespace IdEffect.Scheduling

open Parse

/-! ## `str::parse::<f64>` -/

/-- The number `m · 10 ^ e`, rounded. -/
def ofDecimal (m : ℕ) (e : ℤ) : Float :=
  if 0 ≤ e then Float.ofScientific m false e.toNat else Float.ofScientific m true (-e).toNat

/-- What may follow the digits. -/
def exponent : List Char → Option ℤ
  | [] => some 0
  | c :: rest =>
      if c = 'e' ∨ c = 'E' then
        let (sign, digits) := splitSign rest
        if digits = [] ∨ digits.all Char.isDigit = false then none
        else some (signed (sign == ['-']) (decimal digits))
      else none

/-- Digits before and behind a point, either of which may be missing, and an exponent. -/
def decimalNumber (body : List Char) : Option Float :=
  let whole := body.takeWhile Char.isDigit
  let (fraction, rest) :=
    match body.dropWhile Char.isDigit with
    | '.' :: rest => (rest.takeWhile Char.isDigit, rest.dropWhile Char.isDigit)
    | rest => ([], rest)
  if whole = [] ∧ fraction = [] then none
  else (exponent rest).map fun e => ofDecimal (decimal (whole ++ fraction)) (e - fraction.length)

def infinity : Float := 1.0 / 0.0

def notANumber : Float := 0.0 / 0.0

/-- The spellings `inf`, `infinity` and `nan`, in letters of any case. -/
def specialNumber (body : List Char) : Option Float :=
  let text := String.ofList (body.map Char.toLower)
  if text = "inf" ∨ text = "infinity" then some infinity
  else if text = "nan" then some notANumber
  else none

/-- `str::parse::<f64>` -/
def f64FromStr (s : List Char) : Option Float :=
  let (sign, body) := splitSign s
  ((decimalNumber body).or (specialNumber body)).map fun x => if sign = ['-'] then -x else x

/-! ## `Duration::from_secs_f64` -/

/-- The nanoseconds of `m · 2 ^ e` seconds, to the nearest and in doubt to an even number. -/
def nanosOf (m : ℕ) (e : ℤ) : ℕ :=
  if 0 ≤ e then m * 2 ^ e.toNat * 1000000000
  else
    let unit := 2 ^ (-e).toNat
    let floor := m * 1000000000 / unit
    let rest := m * 1000000000 % unit
    if 2 * rest < unit ∨ 2 * rest = unit ∧ floor % 2 = 0 then floor else floor + 1

/-- The seconds fit into the 64 bits that a `Duration` has for them. -/
def Fits (secs : Float) : Prop := ¬ secs < 0.0 ∧ secs < 18446744073709551616.0

instance (secs : Float) : Decidable (Fits secs) := inferInstanceAs (Decidable (_ ∧ _))

/-- `none` is a panic. -/
def fromSecsF64 (secs : Float) : Option Duration :=
  if Fits secs then
    some (match secs.toModel.unpack with
      | .finite _ m e _ => nanosOf m e
      | _ => 0)
  else none

/-! ## `duration::decode` -/

structure DurationParseError where
  input : List Char
deriving DecidableEq

/-- The argument of `from_secs_f64` for a number and a unit. -/
def inSeconds (n : Float) (unit : String) : Option Float :=
  if unit ∈ ["ns", "nanos", "nanosecond", "nanoseconds"] then some (n / 1000000000.0)
  else if unit ∈ ["us", "\u00b5s", "micros", "microsecond", "microseconds"] then
    some (n / 1000000.0)
  else if unit ∈ ["ms", "millis", "millisecond", "milliseconds"] then some (n / 1000.0)
  else if unit ∈ ["s", "sec", "secs", "second", "seconds"] then some n
  else if unit ∈ ["m", "min", "mins", "minute", "minutes"] then some (n * 60.0)
  else if unit ∈ ["h", "hr", "hrs", "hour", "hours"] then some (n * 3600.0)
  else if unit ∈ ["d", "day", "days"] then some (n * 86400.0)
  else if unit ∈ ["w", "week", "weeks"] then some (n * 604800.0)
  else none

section

variable (isAlphabetic : Char → Bool) (toLowercase : List Char → List Char)

/-- `none` is a panic. -/
def decode (input : List Char) : Option (Except DurationParseError Duration) :=
  let s := trim input
  if s = [] then some (.error ⟨input⟩)
  else
    match f64FromStr s with
    | some n =>
        if n < 0.0 then some (.error ⟨input⟩)
        else (fromSecsF64 (n / 1000.0)).map .ok
    | none =>
        match s.findIdx? isAlphabetic with
        | none => some (.error ⟨input⟩)
        | some splitPos =>
            if splitPos = 0 then some (.error ⟨input⟩)
            else
              match f64FromStr (trim (s.take splitPos)) with
              | none => some (.error ⟨input⟩)
              | some n =>
                  if n < 0.0 then some (.error ⟨input⟩)
                  else
                    match inSeconds n (String.ofList (toLowercase (trim (s.drop splitPos)))) with
                    | none => some (.error ⟨input⟩)
                    | some secs => (fromSecsF64 secs).map .ok

/-! ## When it returns -/

/-- A text for a number that is not below zero, with what it amounts to in seconds. -/
inductive Amount (s : List Char) : Float → Prop
  | millis {n : Float} (hn : f64FromStr s = some n) (hneg : ¬ n < 0.0) : Amount s (n / 1000.0)
  | unit {n secs : Float} {splitPos : ℕ} (hs : f64FromStr s = none)
      (hpos : s.findIdx? isAlphabetic = some splitPos) (hzero : splitPos ≠ 0)
      (hn : f64FromStr (trim (s.take splitPos)) = some n) (hneg : ¬ n < 0.0)
      (hsecs : inSeconds n (String.ofList (toLowercase (trim (s.drop splitPos)))) = some secs) :
      Amount s secs

section

variable {isAlphabetic} {toLowercase} {s : List Char} {n secs : Float}

theorem amount_of_number (hs : f64FromStr s = some n) :
    Amount isAlphabetic toLowercase s secs ↔ ¬ n < 0.0 ∧ secs = n / 1000.0 := by
  constructor
  · rintro (⟨hn, hneg⟩ | ⟨hnone, -, -, -, -, -⟩)
    · rw [hs, Option.some_inj] at hn
      subst hn
      exact ⟨hneg, rfl⟩
    · rw [hs] at hnone
      cases hnone
  · rintro ⟨hneg, rfl⟩
    exact .millis hs hneg

theorem amount_of_split {splitPos : ℕ} (hs : f64FromStr s = none)
    (hpos : s.findIdx? isAlphabetic = some splitPos)
    (hn : f64FromStr (trim (s.take splitPos)) = some n) :
    Amount isAlphabetic toLowercase s secs ↔ splitPos ≠ 0 ∧ ¬ n < 0.0 ∧
      inSeconds n (String.ofList (toLowercase (trim (s.drop splitPos)))) = some secs := by
  constructor
  · rintro (⟨hnum, -⟩ | ⟨-, hpos', hzero, hn', hneg, hsecs⟩)
    · rw [hs] at hnum
      cases hnum
    · rw [hpos, Option.some_inj] at hpos'
      subst hpos'
      rw [hn, Option.some_inj] at hn'
      subst hn'
      exact ⟨hzero, hneg, hsecs⟩
  · rintro ⟨hzero, hneg, hsecs⟩
    exact .unit hs hpos hzero hn hneg hsecs

/-- Without a number in front there is no amount. -/
theorem not_amount (hs : f64FromStr s = none) (hno : ∀ splitPos,
    s.findIdx? isAlphabetic = some splitPos → f64FromStr (trim (s.take splitPos)) = none) :
    ¬ Amount isAlphabetic toLowercase s secs := by
  rintro (⟨hnum, -⟩ | ⟨-, hpos, -, hn, -, -⟩)
  · rw [hs] at hnum
    cases hnum
  · rw [hno _ hpos] at hn
    cases hn

end

theorem f64FromStr_nil : f64FromStr [] = none := by decide

theorem fromSecsF64_isSome {secs : Float} : (fromSecsF64 secs).isSome ↔ Fits secs := by
  unfold fromSecsF64
  split_ifs with h
  · exact iff_of_true rfl h
  · exact iff_of_false Bool.false_ne_true h

/-- **What `decode` panics on.** It returns, a duration or an error, exactly if the text is for no
    number that is not below zero, or for one whose seconds fit into a duration. -/
theorem decode_returns_iff (input : List Char) :
    (decode isAlphabetic toLowercase input).isSome ↔
      ∀ secs, Amount isAlphabetic toLowercase (trim input) secs → Fits secs := by
  unfold decode
  generalize trim input = s
  dsimp only
  split
  · next hempty =>
      subst hempty
      exact iff_of_true rfl fun secs h =>
        absurd h (not_amount f64FromStr_nil fun splitPos hpos => by simp at hpos)
  · split
    · next n hs =>
        simp only [amount_of_number hs]
        split_ifs with hneg
        · exact iff_of_true rfl fun secs h => absurd hneg h.1
        · rw [Option.isSome_map, fromSecsF64_isSome]
          exact ⟨fun h secs hsecs => hsecs.2 ▸ h, fun h => h _ ⟨hneg, rfl⟩⟩
    · next hs =>
        split
        · next hpos =>
            refine iff_of_true rfl fun secs h => absurd h (not_amount hs fun splitPos hpos' => ?_)
            rw [hpos] at hpos'
            cases hpos'
        · next splitPos hpos =>
            have hsame : ∀ {pos : ℕ}, s.findIdx? isAlphabetic = some pos → pos = splitPos := by
              intro pos hpos'
              rw [hpos, Option.some_inj] at hpos'
              exact hpos'.symm
            split
            · next hzero =>
                -- nothing stands in front of the first letter
                refine iff_of_true rfl fun secs h => absurd h (not_amount hs fun pos hpos' => ?_)
                rw [hsame hpos', hzero, List.take_zero]
                exact f64FromStr_nil
            · next hzero =>
                split
                · next hnum =>
                    refine iff_of_true rfl fun secs h =>
                      absurd h (not_amount hs fun pos hpos' => ?_)
                    rw [hsame hpos', hnum]
                · next n hn =>
                    simp only [amount_of_split hs hpos hn]
                    split_ifs with hneg
                    · exact iff_of_true rfl fun secs h => absurd hneg h.2.1
                    · split
                      · next hunit => simp [hunit]
                      · next secs hunit => simp [hunit, fromSecsF64_isSome, hzero, hneg]

end

theorem decode_inf :
    ¬ ∀ input, (decode Char.isAlpha (List.map Char.toLower) input).isSome := by
  intro h
  have hpanic : decode Char.isAlpha (List.map Char.toLower) ['i', 'n', 'f'] = none := by decide
  have hinf := h ['i', 'n', 'f']
  rw [hpanic] at hinf
  cases hinf

/-- A number too large for a duration, with a unit. -/
example : decode Char.isAlpha (List.map Char.toLower) (List.replicate 20 '9' ++ ['s']) = none := by
  decide

end IdEffect.Scheduling
