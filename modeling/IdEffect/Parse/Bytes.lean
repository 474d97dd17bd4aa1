import IdEffect.Parse.Codec

set_option autoImplicit false

/-! # Bytes: `byte.rs`

The parser of integers on bytes reads a magnitude as an `i64` and applies the sign to it afterwards.
The magnitude of the smallest `i64` is out of range, so that this one number is refused where
`signed_int` reads it (`byteInt_agrees_iff`). -/

namespace IdEffect.Parse

/-- `u8::is_ascii_digit` -/
def isAsciiDigit (b : UInt8) : Bool := '0'.toUInt8 ≤ b && b ≤ '9'.toUInt8

/-- The sign, and the bytes from `start` on. -/
def byteSign (input : List UInt8) : Int64 × List UInt8 :=
  if input.head? = some '-'.toUInt8 then (-1, input.drop 1)
  else if input.head? = some '+'.toUInt8 then (1, input.drop 1)
  else (1, input)

/-- ASCII text, in which every byte is a character. -/
def asciiText (bytes : List UInt8) : List Char := bytes.map Char.ofUInt8

/-- The digits are ASCII, so that `from_utf8` takes them. -/
def byteInt : Parser (List UInt8) Int64 ParseFailure := fun input =>
  let (sign, body) := byteSign input
  let digits := body.takeWhile isAsciiDigit
  if digits = [] then some (.error ⟨"expected integer"⟩)
  else
    match i64FromStr (asciiText digits) with
    | .error err => some (.error ⟨"invalid integer: " ++ err.display⟩)
    | .ok value => some (.ok (sign * value, body.dropWhile isAsciiDigit))

/-! ## The other parsers on bytes -/

def byte (expected : UInt8) : Parser (List UInt8) UInt8 ParseFailure
  | [] => some (.error ⟨"expected byte " ++ toString expected ++ ", found end of input"⟩)
  | found :: rest =>
      if found = expected then some (.ok (expected, rest))
      else some (.error
        ⟨"expected byte " ++ toString expected ++ ", found " ++ toString found⟩)

/-- `lossy` is how the text of the bytes is shown, by `from_utf8_lossy` and `{:?}`. -/
def byteTag (lossy : List UInt8 → String) (literal : List UInt8) :
    Parser (List UInt8) (List UInt8) ParseFailure := fun input =>
  if literal.isPrefixOf input then some (.ok (literal, input.drop literal.length))
  else some (.error ⟨"expected byte tag " ++ lossy literal⟩)

/-- `u8::is_ascii_whitespace` -/
def isAsciiWhitespaceByte (b : UInt8) : Bool :=
  b == 32 || b == 9 || b == 10 || b == 12 || b == 13

def byteWs : Parser (List UInt8) Unit ParseFailure := fun input =>
  some (.ok ((), input.dropWhile isAsciiWhitespaceByte))

/-! ## Bytes and characters -/

theorem toNat_ofUInt8 (b : UInt8) : (Char.ofUInt8 b).toNat = b.toNat := by
  unfold Char.ofUInt8
  simp

theorem isDigit_ofUInt8 (b : UInt8) : (Char.ofUInt8 b).isDigit = isAsciiDigit b := by
  rw [Bool.eq_iff_iff, Char.isDigit_iff_toNat, toNat_ofUInt8]
  simp only [isAsciiDigit, Bool.and_eq_true, decide_eq_true_eq, UInt8.le_iff_toNat_le]
  exact Iff.rfl

theorem ofUInt8_toUInt8 (b : UInt8) : (Char.ofUInt8 b).toUInt8 = b := by
  rw [← UInt8.toNat_inj, Char.toUInt8, UInt32.toNat_toUInt8]
  show (Char.ofUInt8 b).toNat % 2 ^ 8 = b.toNat
  rw [toNat_ofUInt8, Nat.mod_eq_of_lt b.toNat_lt]

theorem takeWhile_asciiText (bytes : List UInt8) :
    (asciiText bytes).takeWhile Char.isDigit = asciiText (bytes.takeWhile isAsciiDigit) := by
  rw [asciiText, List.takeWhile_map, asciiText]
  exact congrArg _ (congrArg (List.takeWhile · bytes) (funext isDigit_ofUInt8))

theorem dropWhile_asciiText (bytes : List UInt8) :
    (asciiText bytes).dropWhile Char.isDigit = asciiText (bytes.dropWhile isAsciiDigit) := by
  rw [asciiText, List.dropWhile_map, asciiText]
  exact congrArg _ (congrArg (List.dropWhile · bytes) (funext isDigit_ofUInt8))

theorem digits_asciiText {bytes : List UInt8} (hne : bytes.takeWhile isAsciiDigit ≠ []) :
    Digits (asciiText (bytes.takeWhile isAsciiDigit)) := by
  rw [← takeWhile_asciiText]
  refine ⟨?_, fun c hc => List.mem_takeWhile_imp hc⟩
  rw [takeWhile_asciiText]
  simpa [asciiText] using hne

/-- The sign that both parsers take off. -/
theorem byteSign_cases (input : List UInt8) :
    (∃ body, input = '-'.toUInt8 :: body ∧ byteSign input = (-1, body) ∧
        splitSign (asciiText input) = (['-'], asciiText body)) ∨
      input.head? ≠ some '-'.toUInt8 ∧ ∃ sign body, (sign = [] ∨ sign = ['+']) ∧
        byteSign input = (1, body) ∧ splitSign (asciiText input) = (sign, asciiText body) := by
  cases input with
  | nil => exact Or.inr ⟨by simp, [], [], Or.inl rfl, rfl, rfl⟩
  | cons b body =>
      by_cases hminus : b = '-'.toUInt8
      · subst hminus
        exact Or.inl ⟨body, rfl, rfl, rfl⟩
      · refine Or.inr ⟨by simpa using hminus, ?_⟩
        by_cases hplus : b = '+'.toUInt8
        · subst hplus
          exact ⟨['+'], body, Or.inr rfl, rfl, rfl⟩
        · refine ⟨[], b :: body, Or.inl rfl, by simp [byteSign, hminus, hplus], ?_⟩
          have hchar : ¬ (Char.ofUInt8 b = '-' ∨ Char.ofUInt8 b = '+') := by
            rintro (h | h)
            · exact hminus (by rw [← h, ofUInt8_toUInt8])
            · exact hplus (by rw [← h, ofUInt8_toUInt8])
          rw [asciiText, List.map_cons, splitSign, if_neg hchar]

/-! ## The two parsers -/

/-- Both fail, or both read the same number and leave the same rest. -/
def ReadAlike (input : List UInt8) : Prop :=
  (∃ value rest, byteInt input = some (.ok (value, rest)) ∧
      signedInt (asciiText input) = some (.ok (value, asciiText rest))) ∨
    ∃ e e', byteInt input = some (.error e) ∧ signedInt (asciiText input) = some (.error e')

/-- The input begins with the smallest `i64`, in any way to write it. -/
def BeginsWithSmallest (input : List UInt8) : Prop :=
  input.head? = some '-'.toUInt8 ∧
    decimal (asciiText ((input.drop 1).takeWhile isAsciiDigit)) = 9223372036854775808

/-- After the sign, it depends on what the digits are read as. -/
theorem readAlike_iff {input body : List UInt8} {sign : List Char} {factor : Int64}
    (hbyte : byteSign input = (factor, body))
    (hsplit : splitSign (asciiText input) = (sign, asciiText body)) : ReadAlike input ↔
      (body.takeWhile isAsciiDigit ≠ [] →
        i64FromStr (sign ++ asciiText (body.takeWhile isAsciiDigit)) =
            (i64FromStr (asciiText (body.takeWhile isAsciiDigit))).map (factor * ·) ∨
          ∃ e e', i64FromStr (asciiText (body.takeWhile isAsciiDigit)) = .error e ∧
            i64FromStr (sign ++ asciiText (body.takeWhile isAsciiDigit)) = .error e') := by
  unfold ReadAlike byteInt signedInt
  simp only [hbyte, hsplit, takeWhile_asciiText, dropWhile_asciiText]
  by_cases hne : body.takeWhile isAsciiDigit = []
  · simp [hne, asciiText]
  · rw [if_neg hne, if_neg (digits_asciiText hne).1]
    generalize i64FromStr (sign ++ asciiText (body.takeWhile isAsciiDigit)) = whole
    generalize i64FromStr (asciiText (body.takeWhile isAsciiDigit)) = magnitude
    cases whole <;> cases magnitude <;> simp [hne, Except.map, eq_comm]

theorem parseI64_false {digits : List Char} (h : decimal digits < 9223372036854775808) :
    ∃ value, parseI64 false digits = some value ∧ parseI64 true digits = some (-1 * value) := by
  have hvalue : (Int64.ofInt (decimal digits)).toInt = decimal digits :=
    Int64.toInt_ofInt_of_le (by omega) (by omega)
  refine ⟨Int64.ofInt (decimal digits), parseI64_eq_some.2 hvalue, parseI64_eq_some.2 ?_⟩
  rw [Int64.toInt_mul, hvalue]
  show (-1 * (decimal digits : ℤ)).bmod (2 ^ 64) = -(decimal digits : ℤ)
  rw [Int.bmod_eq_of_le] <;> omega

theorem parseI64_eq_none {neg : Bool} {digits : List Char}
    (h : ¬ InI64 (signed neg (decimal digits))) : parseI64 neg digits = none := if_neg h

/-- Behind a minus sign the magnitude alone is read only if it is an `i64` itself. -/
theorem minus_alike_iff {digits : List Char} (hd : Digits digits) :
    (i64FromStr ('-' :: digits) = (i64FromStr digits).map (-1 * ·) ∨
        ∃ e e', i64FromStr digits = .error e ∧ i64FromStr ('-' :: digits) = .error e') ↔
      decimal digits ≠ 9223372036854775808 := by
  rw [i64FromStr_digits hd, i64FromStr_sign (Or.inr rfl) hd.1]
  show (i64Digits true 0 digits = _ ∨ ∃ e e', _ ∧ i64Digits true 0 digits = _) ↔ _
  rw [i64Digits_zero hd.2, i64Digits_zero hd.2]
  rcases lt_trichotomy (decimal digits) 9223372036854775808 with hlt | heq | hgt
  · obtain ⟨value, hpos, hneg⟩ := parseI64_false hlt
    simp [hpos, hneg, Except.map, hlt.ne]
  · have hpos : parseI64 false digits = none := by
      apply parseI64_eq_none
      simp [InI64, signed, heq]
    have hneg : parseI64 true digits = some (Int64.ofInt (-9223372036854775808)) := by
      rw [parseI64_eq_some, heq]
      decide
    simp [hpos, hneg, heq, Except.map]
  · have hnone : ∀ neg, parseI64 neg digits = none := by
      intro neg
      apply parseI64_eq_none
      cases neg <;> simp only [InI64, signed] <;> grind
    simp [hnone, hgt.ne']

theorem plus_alike {sign digits : List Char} (hsign : sign = [] ∨ sign = ['+'])
    (hd : Digits digits) : i64FromStr (sign ++ digits) = i64FromStr digits := by
  rcases hsign with rfl | rfl
  · rfl
  · rw [i64FromStr_digits hd, List.singleton_append, i64FromStr_sign (Or.inl rfl) hd.1]
    rfl

theorem readAlike_iff_not_smallest (input : List UInt8) :
    ReadAlike input ↔ ¬ BeginsWithSmallest input := by
  rcases byteSign_cases input with
    ⟨body, rfl, hbyte, hsplit⟩ | ⟨hhead, sign, body, hsign, hbyte, hsplit⟩
  · rw [readAlike_iff hbyte hsplit]
    have hsmallest : BeginsWithSmallest ('-'.toUInt8 :: body) ↔
        decimal (asciiText (body.takeWhile isAsciiDigit)) = 9223372036854775808 := by
      simp [BeginsWithSmallest]
    rw [hsmallest]
    by_cases hne : body.takeWhile isAsciiDigit = []
    · simp [hne, asciiText, decimal]
    · refine Iff.trans ?_ (minus_alike_iff (digits_asciiText hne))
      exact ⟨fun h => h hne, fun h _ => h⟩
  · rw [readAlike_iff hbyte hsplit]
    refine iff_of_true (fun hne => Or.inl ?_) fun h => hhead h.1
    rw [plus_alike hsign (digits_asciiText hne)]
    generalize i64FromStr (asciiText (body.takeWhile isAsciiDigit)) = magnitude
    cases magnitude <;> simp [Except.map]

/-- **The parsers of integers.** On bytes and on the same text they agree except on what begins with
    the smallest `i64`, and every `i64` is read back from what its codec prints unless a digit
    follows. -/
theorem byteInt_agrees_iff (input : List UInt8) (value : Int64) (rest : List Char) :
    (ReadAlike input ↔ ¬ BeginsWithSmallest input) ∧
      (NoDigit rest →
        intCodec.parser (intCodec.print value ++ rest) = some (.ok (value, rest))) :=
  ⟨readAlike_iff_not_smallest input, signedInt_i64ToString value⟩

theorem byteInt_agrees_minus_one :
    ReadAlike ['-'.toUInt8, '1'.toUInt8, ';'.toUInt8] ∧
      intCodec.parser (intCodec.print (-9223372036854775808) ++ [';']) =
        some (.ok (-9223372036854775808, [';'])) := by
  have hrest : NoDigit [';'] := by
    intro c hc
    rw [← Option.some.inj hc]
    decide
  obtain ⟨halike, hcodec⟩ := byteInt_agrees_iff ['-'.toUInt8, '1'.toUInt8, ';'.toUInt8]
    (-9223372036854775808) [';']
  refine ⟨halike.2 ?_, hcodec hrest⟩
  rintro ⟨-, h⟩
  exact absurd h (by decide)

/-- The bytes of the smallest `i64`. -/
def smallestBytes : List UInt8 := (i64ToString (-9223372036854775808)).map Char.toUInt8

theorem smallest_not_alike :
    ¬ ∀ input : List UInt8, (∀ b ∈ input, b < 128) → ReadAlike input := by
  intro h
  have hall : smallestBytes.all (fun b => decide (b < 128)) = true := by decide
  have hascii : ∀ b ∈ smallestBytes, b < 128 := by
    intro b hb
    exact of_decide_eq_true (List.all_eq_true.1 hall b hb)
  refine (readAlike_iff_not_smallest smallestBytes).1 (h smallestBytes hascii) ⟨?_, ?_⟩
  · decide
  · decide

end IdEffect.Parse
