import IdEffect.Parse.Integers

set_option autoImplicit false

/-! # Numeric time zones: `timezone::from_str` of `scheduling/datetime.rs`

A text that names no zone is taken for a numeric offset: after the sign it is cut at the colons, and
the fields are read by `str::parse`. Hours may stand alone, and a minute or second field that is no
integer counts as zero.

`get` is the lookup of an IANA name and `accepts` says which numbers of seconds
`Offset::from_seconds` takes, both of the crate `jiff`. -/

namespace IdEffect.Scheduling

open Parse

/-! ## `from_str` -/

/-- A zone of the database, or a fixed offset from UTC in seconds. -/
inductive TimeZone (Zone : Type) where
  | named (zone : Zone)
  | fixed (seconds : ℤ)
deriving DecidableEq

/-- The result of a `checked_` operation on `i64`. -/
def checked (z : ℤ) : Option ℤ := if InI64 z then some z else none

/-- `i32::try_from` -/
def tryI32 (z : ℤ) : Option ℤ := if -2147483648 ≤ z ∧ z ≤ 2147483647 then some z else none

/-- `map_or(0, |x| x.parse().unwrap_or(0))` -/
def fieldOrZero : Option (List Char) → ℤ
  | none => 0
  | some x =>
      match i64FromStr x with
      | .ok value => value.toInt
      | .error _ => 0

/-- The seconds of the fields, if no step overflows. -/
def totalSeconds (sign h m sec : ℤ) : Option ℤ := do
  let hours ← checked (h * 3600)
  let minutes ← checked (m * 60)
  let sum ← checked (hours + minutes)
  let sum ← checked (sum + sec)
  let total ← checked (sign * sum)
  tryI32 total

section

variable {Zone : Type} (get : List Char → Option Zone) (accepts : ℤ → Bool)

/-- The part of `parse_fixed_offset_time_zone` after the sign. -/
def parseFields (sign : ℤ) (rest : List Char) : Option (TimeZone Zone) :=
  if trim rest = [] then none
  else
    match (trim rest).splitOn ':' with
    | [] => none
    | hour :: parts =>
        match i64FromStr hour with
        | .error _ => none
        | .ok h =>
            let m := fieldOrZero parts.head?
            let sec := fieldOrZero (parts.drop 1).head?
            if parts.drop 2 ≠ [] then none
            else (totalSeconds sign h.toInt m sec).bind fun seconds =>
              if accepts seconds then some (.fixed seconds) else none

def parseFixedOffsetTimeZone : List Char → Option (TimeZone Zone)
  | [] => none
  | c :: rest =>
      if c = '+' then parseFields accepts 1 rest
      else if c = '-' then parseFields accepts (-1) rest
      else none

/-- `timezone::from_str` -/
def fromStr (s : List Char) : Option (TimeZone Zone) :=
  if trim s = [] then none
  else
    match get (trim s) with
    | some zone => some (.named zone)
    | none => parseFixedOffsetTimeZone accepts (trim s)

end

/-! ## Offsets in words -/

def signChar (neg : Bool) : Char := if neg then '-' else '+'

/-- A number below a hundred in two digits. -/
def twoDigits (n : ℕ) : List Char := [Nat.digitChar (n / 10), Nat.digitChar (n % 10)]

/-- A sign and fields of two digits with colons between them. -/
def offsetText (neg : Bool) (fields : List ℕ) : List Char :=
  signChar neg :: [':'].intercalate (fields.map twoDigits)

/-- The offsets that the description of the parser names. -/
inductive Documented : List Char → ℤ → Prop
  | minutes {neg : Bool} {h m : ℕ} (hh : h ≤ 23) (hm : m ≤ 59) :
      Documented (offsetText neg [h, m]) (signed neg (h * 3600 + m * 60))
  | seconds {neg : Bool} {h m s : ℕ} (hh : h ≤ 23) (hm : m ≤ 59) (hs : s ≤ 59) :
      Documented (offsetText neg [h, m, s]) (signed neg (h * 3600 + m * 60 + s))
  | compact {neg : Bool} {h m : ℕ} (hh : h ≤ 23) (hm : m ≤ 59) :
      Documented (signChar neg :: (twoDigits h ++ twoDigits m)) (signed neg (h * 3600 + m * 60))

/-- The offsets with colons, or hours alone. -/
inductive ColonOffset : List Char → ℤ → Prop
  | hours {neg : Bool} {h : ℕ} (hh : h ≤ 23) :
      ColonOffset (offsetText neg [h]) (signed neg (h * 3600))
  | minutes {neg : Bool} {h m : ℕ} (hh : h ≤ 23) (hm : m ≤ 59) :
      ColonOffset (offsetText neg [h, m]) (signed neg (h * 3600 + m * 60))
  | seconds {neg : Bool} {h m s : ℕ} (hh : h ≤ 23) (hm : m ≤ 59) (hs : s ≤ 59) :
      ColonOffset (offsetText neg [h, m, s]) (signed neg (h * 3600 + m * 60 + s))

/-- A sign, and behind it up to three fields of which the first is an integer. -/
def Shaped (t : List Char) : Prop :=
  ∃ neg body hour parts value, t = signChar neg :: body ∧ trim body ≠ [] ∧
    (trim body).splitOn ':' = hour :: parts ∧ parts.length ≤ 2 ∧ i64FromStr hour = .ok value

/-- A field that is an integer, or that is not there and counts as zero. -/
def IntegerField (field : Option (List Char)) (z : ℤ) : Prop :=
  match field with
  | none => z = 0
  | some x => ∃ value, i64FromStr x = .ok value ∧ value.toInt = z

def signOf (neg : Bool) : ℤ := if neg then -1 else 1

/-- The fields behind the sign are integers, and this is what they make as hours, minutes and
    seconds. Hours and minutes written together, as four characters, are not meant here. -/
def Gives (t : List Char) (off : ℤ) : Prop :=
  ∃ neg body hour parts value m sec, t = signChar neg :: body ∧
    (trim body).splitOn ':' = hour :: parts ∧ (parts = [] → hour.length ≠ 4) ∧
    i64FromStr hour = .ok value ∧ IntegerField parts.head? m ∧
    IntegerField (parts.drop 1).head? sec ∧
    off = signOf neg * (value.toInt * 3600 + m * 60 + sec)

/-! ## Two digits -/

theorem digitChar_cases : ∀ d < 10, (Nat.digitChar d).isDigit = true ∧
    (Nat.digitChar d).toNat - '0'.toNat = d ∧ isWhitespace (Nat.digitChar d) = false ∧
    Nat.digitChar d ≠ ':' := by
  decide

section

variable {n : ℕ} (hn : n < 100)
include hn

theorem mem_twoDigits {c : Char} (hc : c ∈ twoDigits n) : ∃ d < 10, c = Nat.digitChar d := by
  have hc : c = Nat.digitChar (n / 10) ∨ c = Nat.digitChar (n % 10) := by
    simpa [twoDigits] using hc
  rcases hc with rfl | rfl
  · exact ⟨n / 10, by omega, rfl⟩
  · exact ⟨n % 10, by omega, rfl⟩

theorem digits_twoDigits : Digits (twoDigits n) := by
  refine ⟨List.cons_ne_nil _ _, fun c hc => ?_⟩
  obtain ⟨d, hd, rfl⟩ := mem_twoDigits hn hc
  exact (digitChar_cases d hd).1

theorem decimal_twoDigits : decimal (twoDigits n) = n := by
  have htens := (digitChar_cases (n / 10) (by omega)).2.1
  have hones := (digitChar_cases (n % 10) (by omega)).2.1
  simp only [decimal, twoDigits, List.foldl_cons, List.foldl_nil, htens, hones]
  omega

theorem i64FromStr_twoDigits : ∃ value, i64FromStr (twoDigits n) = .ok value ∧ value.toInt = n := by
  have hvalue : (Int64.ofInt n).toInt = n := Int64.toInt_ofInt_of_le (by omega) (by omega)
  have hparse : parseI64 false (twoDigits n) = some (Int64.ofInt n) := by
    rw [parseI64_eq_some, decimal_twoDigits hn, hvalue]
    rfl
  refine ⟨Int64.ofInt n, ?_, hvalue⟩
  rw [i64FromStr_digits (digits_twoDigits hn), i64Digits_zero (digits_twoDigits hn).2, hparse]

theorem fieldOrZero_twoDigits : fieldOrZero (some (twoDigits n)) = n := by
  obtain ⟨value, hread, hvalue⟩ := i64FromStr_twoDigits hn
  rw [fieldOrZero, hread, ← hvalue]

end

/-! ## Cutting a text into its fields -/

theorem trim_of_noWhitespace {t : List Char} (h : ∀ c ∈ t, isWhitespace c = false) :
    trim t = t := by
  have hkeep : ∀ l : List Char, (∀ c ∈ l, isWhitespace c = false) →
      l.dropWhile isWhitespace = l := by
    intro l hl
    cases l with
    | nil => rfl
    | cons c l => exact List.dropWhile_cons_of_neg (by simp [hl c (List.mem_cons_self ..)])
  rw [trim, trimStart, hkeep t h, hkeep t.reverse fun c hc => h c (List.mem_reverse.1 hc),
    List.reverse_reverse]

section

variable {fields : List ℕ} (hfields : ∀ n ∈ fields, n < 100)
include hfields

theorem noWhitespace_fields {c : Char} (hc : c ∈ [':'].intercalate (fields.map twoDigits)) :
    isWhitespace c = false := by
  induction fields with
  | nil => simp at hc
  | cons n rest ih =>
      rw [List.forall_mem_cons] at hfields
      have hdigit : c ∈ twoDigits n → isWhitespace c = false := by
        intro hmem
        obtain ⟨d, hd, rfl⟩ := mem_twoDigits hfields.1 hmem
        exact (digitChar_cases d hd).2.2.1
      by_cases hrest : rest = []
      · subst hrest
        exact hdigit (by simpa using hc)
      · rw [List.map_cons, List.intercalate_cons_of_ne_nil (by simpa using hrest), List.mem_append,
          List.mem_append] at hc
        rcases hc with (hc | hc) | hc
        · exact hdigit hc
        · rw [List.mem_singleton.1 hc]
          decide
        · exact ih hfields.2 hc

theorem trim_fields : trim ([':'].intercalate (fields.map twoDigits)) =
    [':'].intercalate (fields.map twoDigits) :=
  trim_of_noWhitespace fun _ hc => noWhitespace_fields hfields hc

theorem splitOn_fields (hne : fields ≠ []) :
    ([':'].intercalate (fields.map twoDigits)).splitOn ':' = fields.map twoDigits := by
  refine List.splitOn_intercalate ':' (fun text htext hcolon => ?_) (by simpa using hne)
  obtain ⟨n, hn, rfl⟩ := List.mem_map.1 htext
  obtain ⟨d, hd, heq⟩ := mem_twoDigits (hfields n hn) hcolon
  exact (digitChar_cases d hd).2.2.2 heq.symm

theorem fieldOrZero_head :
    fieldOrZero (fields.map twoDigits).head? = (fields.head?.getD 0 : ℕ) := by
  cases fields with
  | nil => rfl
  | cons n rest => exact fieldOrZero_twoDigits (hfields n (List.mem_cons_self ..))

end

/-! ## Offsets with colons -/

section

variable {Zone : Type} {get : List Char → Option Zone} {accepts : ℤ → Bool}

/-- Up to three fields of two digits. -/
theorem parseFields_fields (sign : ℤ) {h : ℕ} {rest : List ℕ} (hall : ∀ n ∈ h :: rest, n < 100)
    (hlen : rest.length ≤ 2) :
    @parseFields Zone accepts sign ([':'].intercalate ((h :: rest).map twoDigits)) =
      (totalSeconds sign h (rest.head?.getD 0 : ℕ) ((rest.drop 1).head?.getD 0 : ℕ)).bind
        fun seconds => if accepts seconds then some (.fixed seconds) else none := by
  obtain ⟨value, hread, hvalue⟩ := i64FromStr_twoDigits (hall h (List.mem_cons_self ..))
  have hrest : ∀ n ∈ rest, n < 100 := fun n hn => hall n (List.mem_cons_of_mem _ hn)
  have hne : [':'].intercalate ((h :: rest).map twoDigits) ≠ [] := by
    intro hnil
    have hsplit := splitOn_fields hall (List.cons_ne_nil _ _)
    rw [hnil] at hsplit
    simp [twoDigits] at hsplit
  have hdrop : (rest.map twoDigits).drop 2 = [] := by
    rw [List.drop_eq_nil_iff, List.length_map]
    exact hlen
  have hsec : fieldOrZero ((rest.map twoDigits).drop 1).head? =
      ((rest.drop 1).head?.getD 0 : ℕ) := by
    rw [← List.map_drop]
    exact fieldOrZero_head fun n hn => hrest n (List.mem_of_mem_drop hn)
  rw [parseFields, trim_fields hall, if_neg hne, splitOn_fields hall (List.cons_ne_nil _ _),
    List.map_cons]
  simp only [hread, hvalue, hsec, hdrop, fieldOrZero_head hrest, ne_eq, not_true, if_false]

theorem totalSeconds_eq {sign : ℤ} (hsign : sign = 1 ∨ sign = -1) {h m s : ℕ} (hh : h < 100)
    (hm : m < 100) (hs : s < 100) :
    totalSeconds sign h m s = some (sign * (h * 3600 + m * 60 + s)) := by
  have hchecked : ∀ z : ℤ, -2147483648 ≤ z ∧ z ≤ 2147483647 → checked z = some z := by
    intro z hz
    exact if_pos ⟨by omega, by omega⟩
  have hrange : -2147483648 ≤ sign * (h * 3600 + m * 60 + s) ∧
      sign * (h * 3600 + m * 60 + s) ≤ 2147483647 := by
    rcases hsign with rfl | rfl <;> omega
  rw [totalSeconds, hchecked (h * 3600) (by omega), hchecked (m * 60) (by omega)]
  simp only [Option.bind_eq_bind, Option.bind_some]
  rw [hchecked (h * 3600 + m * 60) (by omega), Option.bind_some,
    hchecked (h * 3600 + m * 60 + s) (by omega), Option.bind_some, hchecked _ hrange,
    Option.bind_some, tryI32, if_pos hrange]

theorem parseFixedOffset_signChar (neg : Bool) (body : List Char) :
    @parseFixedOffsetTimeZone Zone accepts (signChar neg :: body) =
      parseFields accepts (signOf neg) body := by
  cases neg <;> simp [parseFixedOffsetTimeZone, signChar, signOf]

theorem parseFixedOffset_offsetText (neg : Bool) {h : ℕ} {rest : List ℕ}
    (hall : ∀ n ∈ h :: rest, n < 100) (hlen : rest.length ≤ 2) {seconds : ℤ}
    (heq : seconds = signed neg (h * 3600 + rest.head?.getD 0 * 60 + (rest.drop 1).head?.getD 0))
    (haccepts : accepts seconds = true) :
    @parseFixedOffsetTimeZone Zone accepts (offsetText neg (h :: rest)) =
      some (.fixed seconds) := by
  have hhead : ∀ l : List ℕ, (∀ n ∈ l, n < 100) → l.head?.getD 0 < 100 := by
    intro l hl
    cases l with
    | nil => decide
    | cons n l => exact hl n (List.mem_cons_self ..)
  have hrest : ∀ n ∈ rest, n < 100 := fun n hn => hall n (List.mem_cons_of_mem _ hn)
  have hsign : signOf neg = 1 ∨ signOf neg = -1 := by
    cases neg <;> simp [signOf]
  have hseconds : seconds = signOf neg *
      (h * 3600 + (rest.head?.getD 0 : ℕ) * 60 + ((rest.drop 1).head?.getD 0 : ℕ)) := by
    rw [heq]
    cases neg <;> simp [signed, signOf]
  rw [offsetText, parseFixedOffset_signChar, parseFields_fields _ hall hlen,
    totalSeconds_eq hsign (hall h (List.mem_cons_self ..)) (hhead rest hrest)
      (hhead _ fun n hn => hrest n (List.mem_of_mem_drop hn)), ← hseconds, Option.bind_some,
    if_pos haccepts]

/-- What `jiff` takes: at least every offset of less than a day. -/
def TakesDay (accepts : ℤ → Bool) : Prop := ∀ z : ℤ, -86399 ≤ z → z ≤ 86399 → accepts z = true

theorem parse_colonOffset (haccepts : TakesDay accepts) {t : List Char} {off : ℤ}
    (h : ColonOffset t off) : @parseFixedOffsetTimeZone Zone accepts t =
      some (.fixed off) := by
  have hbound : ∀ (neg : Bool) (n : ℕ), n ≤ 86399 → accepts (signed neg n) = true := by
    intro neg n hn
    apply haccepts <;> cases neg <;> simp only [signed] <;> grind
  cases h with
  | @hours neg h hh =>
      refine parseFixedOffset_offsetText neg ?_ (by simp) (by simp) (hbound neg _ (by omega))
      simp only [List.forall_mem_cons]
      exact ⟨by omega, by simp⟩
  | @minutes neg h m hh hm =>
      refine parseFixedOffset_offsetText neg ?_ (by simp) (by simp) (hbound neg _ (by omega))
      simp only [List.forall_mem_cons]
      exact ⟨by omega, by omega, by simp⟩
  | @seconds neg h m s hh hm hs =>
      refine parseFixedOffset_offsetText neg ?_ (by simp) (by simp) (hbound neg _ (by omega))
      simp only [List.forall_mem_cons]
      exact ⟨by omega, by omega, by omega, by simp⟩

/-! ## What is rejected -/

theorem fieldOrZero_eq {field : Option (List Char)} {z : ℤ} (h : IntegerField field z) :
    fieldOrZero field = z := by
  cases field with
  | none => exact (show z = 0 from h).symm
  | some x =>
      obtain ⟨value, hread, hvalue⟩ := h
      rw [fieldOrZero, hread]
      exact hvalue

/-- Where no step overflows, the seconds are those of the three numbers. -/
theorem totalSeconds_eq_some {sign h m sec off : ℤ} (heq : totalSeconds sign h m sec = some off) :
    off = sign * (h * 3600 + m * 60 + sec) := by
  have hchecked : ∀ {z z' : ℤ}, checked z = some z' → z' = z := by
    intro z z' hz
    rw [checked] at hz
    split_ifs at hz
    exact (Option.some.inj hz).symm
  have htry : ∀ {z z' : ℤ}, tryI32 z = some z' → z' = z := by
    intro z z' hz
    rw [tryI32] at hz
    split_ifs at hz
    exact (Option.some.inj hz).symm
  simp only [totalSeconds, Option.bind_eq_bind, Option.bind_eq_some_iff] at heq
  obtain ⟨hours, hhours, minutes, hminutes, sum, hsum, sum', hsum', total, htotal, hoff⟩ := heq
  rw [htry hoff, hchecked htotal, hchecked hsum', hchecked hsum, hchecked hhours,
    hchecked hminutes]

/-- What is read of the text behind a sign. -/
theorem parseFields_eq_some {sign : ℤ} {rest : List Char} {z : TimeZone Zone}
    (h : parseFields accepts sign rest = some z) : trim rest ≠ [] ∧ ∃ hour parts value off,
      (trim rest).splitOn ':' = hour :: parts ∧ parts.length ≤ 2 ∧ i64FromStr hour = .ok value ∧
      off = sign * (value.toInt * 3600 + fieldOrZero parts.head? * 60 +
        fieldOrZero (parts.drop 1).head?) ∧ z = .fixed off ∧ accepts off = true := by
  unfold parseFields at h
  split at h
  · cases h
  · next hne =>
      split at h
      · cases h
      · next hour parts hsplit =>
          split at h
          · cases h
          · next value hread =>
              simp only at h
              split_ifs at h with hparts
              · obtain ⟨off, htotal, hoff⟩ := Option.bind_eq_some_iff.1 h
                split_ifs at hoff with haccepts
                rw [ne_eq, not_not, List.drop_eq_nil_iff] at hparts
                exact ⟨hne, hour, parts, value, off, hsplit, hparts, hread,
                  totalSeconds_eq_some htotal, (Option.some.inj hoff).symm, haccepts⟩

theorem signChar_injective {neg neg' : Bool} (h : signChar neg = signChar neg') : neg = neg' := by
  revert neg neg'
  decide

/-- What is read has the shape of an offset, is taken by `jiff`, and is the offset that the fields
    give. -/
theorem parseFixedOffset_eq_some {t : List Char} {z : TimeZone Zone}
    (h : parseFixedOffsetTimeZone accepts t = some z) :
    Shaped t ∧ ∃ off, z = .fixed off ∧ accepts off = true ∧ ∀ off', Gives t off' → off = off' := by
  obtain ⟨neg, body, rfl⟩ : ∃ neg body, t = signChar neg :: body := by
    unfold parseFixedOffsetTimeZone at h
    split at h
    · cases h
    · next c body =>
        split_ifs at h with hplus hminus
        · exact ⟨false, body, by rw [hplus]; rfl⟩
        · exact ⟨true, body, by rw [hminus]; rfl⟩
  rw [parseFixedOffset_signChar] at h
  obtain ⟨hne, hour, parts, value, off, hsplit, hlen, hread, hoff, hz, haccepts⟩ :=
    parseFields_eq_some h
  refine ⟨⟨neg, body, hour, parts, value, rfl, hne, hsplit, hlen, hread⟩, off, hz, haccepts, ?_⟩
  rintro off' ⟨neg', body', hour', parts', value', m, sec, htext, hsplit', -, hread', hm, hsec, rfl⟩
  -- the sign and the fields are those that were read
  obtain ⟨hneg, rfl⟩ := List.cons.inj htext
  obtain rfl := signChar_injective hneg
  obtain ⟨rfl, rfl⟩ := List.cons.inj (hsplit.symm.trans hsplit')
  obtain rfl := Except.ok.inj (hread.symm.trans hread')
  rw [hoff, fieldOrZero_eq hm, fieldOrZero_eq hsec]

theorem colonOffset_ne_nil {t : List Char} {off : ℤ} (h : ColonOffset t off) : t ≠ [] := by
  cases h <;> exact List.cons_ne_nil _ _

theorem fromStr_colonOffset (haccepts : TakesDay accepts) {s : List Char}
    (hget : get (trim s) = none) {off : ℤ} (h : ColonOffset (trim s) off) :
    fromStr get accepts s = some (.fixed off) := by
  rw [fromStr, if_neg (colonOffset_ne_nil h), hget]
  exact parse_colonOffset haccepts h

end

/-- **Numeric offsets.** A text that names no zone is read as an offset if it is a sign and hours,
    perhaps with minutes, perhaps with seconds, each of two digits. Whatever else is read has a sign
    and up to three fields behind it, the first of them an integer, and is an offset that `jiff`
    takes: the one that the fields give, where they are integers. -/
theorem fromStr_numeric {Zone : Type} (get : List Char → Option Zone) (accepts : ℤ → Bool)
    (haccepts : TakesDay accepts) (s : List Char) (hget : get (trim s) = none) :
    (∀ off, ColonOffset (trim s) off → fromStr get accepts s = some (.fixed off)) ∧
      (∀ z, fromStr get accepts s = some z → Shaped (trim s) ∧ ∃ off, z = .fixed off ∧
        accepts off = true ∧ ∀ off', Gives (trim s) off' → off = off') ∧
      ∀ off, Gives (trim s) off → accepts off = false → fromStr get accepts s = none := by
  have hread : ∀ z, fromStr get accepts s = some z → Shaped (trim s) ∧ ∃ off, z = .fixed off ∧
      accepts off = true ∧ ∀ off', Gives (trim s) off' → off = off' := by
    intro z h
    rw [fromStr, hget] at h
    split_ifs at h
    exact parseFixedOffset_eq_some h
  refine ⟨fun off h => fromStr_colonOffset haccepts hget h, hread, fun off hgives hrefused => ?_⟩
  cases hz : fromStr get accepts s with
  | none => rfl
  | some z =>
      obtain ⟨-, off', -, htaken, hoff⟩ := hread z hz
      rw [hoff off hgives, hrefused] at htaken
      cases htaken

/-- The offsets of the crate: up to 25:59:59. -/
def jiffAccepts (z : ℤ) : Bool := -93599 ≤ z && z ≤ 93599

theorem takesDay_jiff : TakesDay jiffAccepts := by
  intro z hlo hhi
  simp [jiffAccepts]
  omega

theorem fromStr_numeric_half_past :
    fromStr (fun _ => (none : Option Unit)) jiffAccepts ['-', '0', '5', ':', '3', '0'] =
      some (.fixed (-19800)) :=
  (fromStr_numeric (fun _ => none) jiffAccepts takesDay_jiff _ rfl).1 (-19800)
    (@ColonOffset.minutes true 5 30 (by decide) (by decide))

/-- Hours alone are read, which no description of the parser names. -/
theorem fromStr_not_documented :
    ¬ ∀ (s : List Char) (z : TimeZone Unit), fromStr (fun _ => none) jiffAccepts s = some z ↔
      ∃ off, z = .fixed off ∧ Documented (trim s) off := by
  intro h
  have hread : fromStr (fun _ => (none : Option Unit)) jiffAccepts ['+', '0', '5'] =
      some (.fixed 18000) :=
    fromStr_colonOffset takesDay_jiff rfl (@ColonOffset.hours false 5 (by decide))
  obtain ⟨off, -, hdoc⟩ := (h _ _).1 hread
  generalize htext : trim ['+', '0', '5'] = text at hdoc
  have hlen : text.length = 3 := by
    rw [← htext]
    decide
  cases hdoc <;> simp [offsetText, twoDigits] at hlen

end IdEffect.Scheduling
