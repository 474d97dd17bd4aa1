import IdEffect.Parse.Bytes
import IdEffect.Parse.JsonCorrect
import IdEffect.Scheduling.DurationDecode

set_option autoImplicit false

/-! # When repetition ends: `many`, `many1` and `sep_by`

A repetition goes on until the repeated parser fails. What the parsers of the crate leave over is
always an end of their input (`Built.leavesSuffix`), so a round that consumes something brings the
end nearer, and a round that consumes nothing is followed by the same round again: the repetition
returns exactly if no such round is reached (`repetition_returns_iff`). -/

namespace IdEffect.Parse

open Schema (Unknown ParseError Outcome)

variable {I α O U E : Type}

/-! ## The other parsers of the crate -/

/-- The digits of a float from the left, with one point at most among them. -/
def floatSpan : Bool → List Char → List Char × List Char
  | _, [] => ([], [])
  | sawDot, c :: rest =>
      if c.isDigit then
        let (digits, tail) := floatSpan sawDot rest
        (c :: digits, tail)
      else if c = '.' ∧ sawDot = false then
        let (digits, tail) := floatSpan true rest
        (c :: digits, tail)
      else ([], c :: rest)

def float : Parser (List Char) Float ParseFailure := fun input =>
  let (sign, body) := splitSign input
  let (digits, tail) := floatSpan false body
  if digits = [] then some (.error ⟨"expected float"⟩)
  else
    match Scheduling.f64FromStr (sign ++ digits) with
    | none => some (.error ⟨"invalid float: invalid float literal"⟩)
    | some value => some (.ok (value, tail))

namespace SchemaBridge

/-- `decode` is that of the schema. -/
def parserForStringWire {A : Type} (decode : String → Outcome A) :
    Parser (List Char) A ParseError := fun input =>
  some ((decode (String.ofList input)).map fun value => (value, []))

variable (f64 : List Char → Float) {A : Type} (decodeUnknown : Unknown → Outcome A)

def parserForJson : Parser (List Char) A ParseError := fun input =>
  some (do
    let unknown ← parseJsonDocument f64 (String.ofList input)
    let value ← decodeUnknown unknown
    .ok (value, []))

def parserForJsonPrefix : Parser (List Char) A ParseError := fun input =>
  some (do
    let (unknown, rest) ← parseJsonValue f64 input
    let value ← decodeUnknown unknown
    .ok (value, rest))

end SchemaBridge

/-- The parsers that are built from the primitives and the combinators of the crate. -/
inductive Built : {α O E : Type} → Parser (List α) O E → Prop
  | char (expected : Char) : Built (char expected)
  | tag (literal : List Char) : Built (tag literal)
  | signedInt : Built signedInt
  | float : Built float
  | ws : Built ws
  | quotedString : Built quotedString.parser
  | byte (expected : UInt8) : Built (byte expected)
  | byteTag (lossy : List UInt8 → String) (literal : List UInt8) : Built (byteTag lossy literal)
  | byteInt : Built byteInt
  | byteWs : Built byteWs
  | stringWire {A : Type} (decode : String → Outcome A) :
      Built (SchemaBridge.parserForStringWire decode)
  | json {A : Type} (f64 : List Char → Float) (decodeUnknown : Unknown → Outcome A) :
      Built (SchemaBridge.parserForJson f64 decodeUnknown)
  | jsonPrefix {A : Type} (f64 : List Char → Float) (decodeUnknown : Unknown → Outcome A) :
      Built (SchemaBridge.parserForJsonPrefix f64 decodeUnknown)
  | map {α O U E : Type} {p : Parser (List α) O E} (hp : Built p) (f : O → U) : Built (p.map f)
  | andThen {α O U E : Type} {p : Parser (List α) O E} {f : O → Parser (List α) U E}
      (hp : Built p) (hf : ∀ o, Built (f o)) : Built (p.andThen f)
  | alt {α O E : Type} {first other : Parser (List α) O E} (hfirst : Built first)
      (hother : Built other) : Built (first.alt other)
  | many {α O E : Type} {p : Parser (List α) O E} (hp : Built p) : Built p.many
  | many1 {α O E : Type} {p : Parser (List α) O E} (hp : Built p) : Built (many1 p)
  | optional {α O E : Type} {p : Parser (List α) O E} (hp : Built p) : Built (optional p)
  | sepBy {α O E : Type} {value : Parser (List α) O E} {separator : Parser (List α) Unit E}
      (hvalue : Built value) (hsep : Built separator) : Built (sepBy value separator)

-- the combinators that are made of others

theorem Built.void {p : Parser (List α) O E} (hp : Built p) : Built (void p) := hp.map _

theorem Built.boolLit : Built boolLit := ((tag _).map _).alt ((tag _).map _)

theorem Built.between {open_ close : Parser (List α) Unit E} {inner : Parser (List α) O E}
    (ho : Built open_) (hc : Built close) (hi : Built inner) :
    Built (between open_ close inner) :=
  ho.andThen fun _ => hi.andThen fun _ => hc.map _

/-! ## What is left over is an end of the input -/

/-- What is left of the input is an end of it. -/
def LeavesSuffix (p : Parser (List α) O E) : Prop :=
  ∀ ⦃input : List α⦄ ⦃o : O⦄ ⦃rest : List α⦄, p input = some (.ok (o, rest)) → rest <:+ input

section primitives

theorem strip_suffix {literal input rest : List Char} (h : strip literal input = some rest) :
    rest <:+ input := by
  induction literal generalizing input with
  | nil =>
      obtain rfl := Option.some.inj h
      exact List.suffix_rfl
  | cons c literal ih =>
      cases input with
      | nil => cases h
      | cons x input =>
          rw [strip] at h
          split_ifs at h with hx
          exact (ih h).trans (List.suffix_cons ..)

theorem splitSign_suffix (input : List Char) : (splitSign input).2 <:+ input := by
  cases input with
  | nil => exact List.suffix_rfl
  | cons c rest =>
      rw [splitSign]
      split_ifs
      · exact List.suffix_cons ..
      · exact List.suffix_rfl

theorem floatSpan_suffix (sawDot : Bool) (input : List Char) :
    (floatSpan sawDot input).2 <:+ input := by
  induction input generalizing sawDot with
  | nil => exact List.suffix_rfl
  | cons c rest ih =>
      rw [floatSpan]
      split_ifs
      · exact (ih sawDot).trans (List.suffix_cons ..)
      · exact (ih true).trans (List.suffix_cons ..)
      · exact List.suffix_rfl

theorem quotedLoop_suffix {out input s rest : List Char} {escaped : Bool}
    (h : quotedLoop out escaped input = .ok (s, rest)) : rest <:+ input := by
  induction input generalizing out escaped with
  | nil => cases escaped <;> cases h
  | cons ch input ih =>
      cases escaped with
      | true => exact (ih h).trans (List.suffix_cons ..)
      | false =>
          rw [quotedLoop] at h
          split_ifs at h
          · exact (ih h).trans (List.suffix_cons ..)
          · cases h
            exact List.suffix_cons ..
          · exact (ih h).trans (List.suffix_cons ..)

theorem byteSign_suffix (input : List UInt8) : (byteSign input).2 <:+ input := by
  unfold byteSign
  split_ifs
  · exact List.drop_suffix ..
  · exact List.drop_suffix ..
  · exact List.suffix_rfl

theorem char_leavesSuffix (expected : Char) : LeavesSuffix (char expected) := by
  intro input o rest h
  cases input with
  | nil => cases h
  | cons found input =>
      rw [char] at h
      split_ifs at h
      · cases h
        exact List.suffix_cons ..
      · cases h

theorem tag_leavesSuffix (literal : List Char) : LeavesSuffix (tag literal) := by
  intro input o rest h
  unfold tag at h
  split at h
  · next hstrip =>
      cases h
      exact strip_suffix hstrip
  · cases h

theorem signedInt_leavesSuffix : LeavesSuffix signedInt := by
  intro input o rest h
  unfold signedInt at h
  dsimp only at h
  split_ifs at h
  · cases h
  · split at h
    · cases h
    · cases h
      exact (List.dropWhile_suffix _).trans (splitSign_suffix input)

theorem float_leavesSuffix : LeavesSuffix float := by
  intro input o rest h
  unfold float at h
  dsimp only at h
  split_ifs at h
  · cases h
  · split at h
    · cases h
    · cases h
      exact (floatSpan_suffix _ _).trans (splitSign_suffix input)

theorem quotedString_leavesSuffix : LeavesSuffix quotedString.parser := by
  intro input o rest h
  simp only [quotedString] at h
  split at h
  · exact (quotedLoop_suffix (Option.some.inj h)).trans (List.suffix_cons ..)
  · cases h

theorem byte_leavesSuffix (expected : UInt8) : LeavesSuffix (byte expected) := by
  intro input o rest h
  cases input with
  | nil => cases h
  | cons found input =>
      rw [byte] at h
      split_ifs at h
      · cases h
        exact List.suffix_cons ..
      · cases h

theorem byteTag_leavesSuffix (lossy : List UInt8 → String) (literal : List UInt8) :
    LeavesSuffix (byteTag lossy literal) := by
  intro input o rest h
  unfold byteTag at h
  split_ifs at h
  · cases h
    exact List.drop_suffix ..
  · cases h

theorem byteInt_leavesSuffix : LeavesSuffix byteInt := by
  intro input o rest h
  unfold byteInt at h
  dsimp only at h
  split_ifs at h
  · cases h
  · split at h
    · cases h
    · cases h
      exact (List.dropWhile_suffix _).trans (byteSign_suffix input)

theorem jsonPrefix_leavesSuffix {A : Type} (f64 : List Char → Float)
    (decodeUnknown : Unknown → Outcome A) :
    LeavesSuffix (SchemaBridge.parserForJsonPrefix f64 decodeUnknown) := by
  intro input o rest h
  obtain ⟨⟨unknown, left⟩, hparse, h⟩ := Outcome.bind_eq_ok.1 (Option.some.inj h)
  obtain ⟨value, -, h⟩ := Outcome.bind_eq_ok.1 h
  cases h
  obtain ⟨text, htext, -⟩ := (parse_sound (enough input)).1 _ _ _ hparse
  rw [trimStart_trimStart] at htext
  have hrest : rest <:+ trimStart input := htext ▸ List.suffix_append text rest
  exact hrest.trans (List.dropWhile_suffix _)

end primitives

section combinators

variable {p : Parser (List α) O E}

theorem Parser.map_eq_ok {f : O → U} {p : Parser I O E} {input rest : I} {u : U} :
    p.map f input = some (.ok (u, rest)) ↔ ∃ o, p input = some (.ok (o, rest)) ∧ f o = u := by
  unfold Parser.map
  rcases hp : p input with _ | _ | ⟨o, left⟩ <;> simp [Except.map]
  grind

theorem Parser.andThen_eq_ok {f : O → Parser I U E} {p : Parser I O E} {input rest : I} {u : U} :
    p.andThen f input = some (.ok (u, rest)) ↔
      ∃ o left, p input = some (.ok (o, left)) ∧ f o left = some (.ok (u, rest)) := by
  unfold Parser.andThen
  rcases hp : p input with _ | _ | ⟨o, left⟩ <;> simp

theorem LeavesSuffix.map (hp : LeavesSuffix p) (f : O → U) : LeavesSuffix (p.map f) := by
  intro input u rest h
  obtain ⟨o, hread, -⟩ := Parser.map_eq_ok.1 h
  exact hp hread

theorem LeavesSuffix.andThen {f : O → Parser (List α) U E} (hp : LeavesSuffix p)
    (hf : ∀ o, LeavesSuffix (f o)) : LeavesSuffix (p.andThen f) := by
  intro input u rest h
  obtain ⟨o, left, hread, h⟩ := Parser.andThen_eq_ok.1 h
  exact (hf o h).trans (hp hread)

theorem LeavesSuffix.alt {other : Parser (List α) O E} (hp : LeavesSuffix p)
    (hother : LeavesSuffix other) : LeavesSuffix (p.alt other) := by
  intro input o rest h
  unfold Parser.alt at h
  rcases hread : p input with _ | _ | ⟨o', left⟩
  · simp [hread] at h
  · rcases hread' : other input with _ | _ | ⟨o', left⟩
    · simp [hread, hread'] at h
    · simp [hread, hread', Except.mapError] at h
    · obtain ⟨rfl, rfl⟩ : o' = o ∧ left = rest := by
        simpa [hread, hread', Except.mapError] using h
      exact hother hread'
  · obtain ⟨rfl, rfl⟩ : o' = o ∧ left = rest := by simpa [hread] using h
    exact hp hread

theorem LeavesSuffix.manyLoop (hp : LeavesSuffix p) {out items : List O} {input rest : List α}
    (h : p.manyLoop out input = some (.ok (items, rest))) : rest <:+ input := by
  refine Parser.manyLoop.partial_correctness p
    (fun _ input r => ∀ items rest, r = .ok (items, rest) → rest <:+ input)
    ?_ out input _ h items rest rfl
  intro loop ih out input r hr items rest hrest
  subst hrest
  rcases hread : p input with _ | _ | ⟨item, left⟩
  · simp [hread] at hr
  · obtain ⟨-, rfl⟩ : out = items ∧ input = rest := by simpa [hread] using hr
    exact List.suffix_rfl
  · have hnext : loop (out ++ [item]) left = some (.ok (items, rest)) := by simpa [hread] using hr
    exact (ih _ _ _ hnext _ _ rfl).trans (hp hread)

theorem LeavesSuffix.many1 (hp : LeavesSuffix p) : LeavesSuffix (many1 p) := by
  intro input items rest h
  unfold Parse.many1 at h
  rcases hread : p input with _ | _ | ⟨first, left⟩
  · simp [hread] at h
  · simp [hread] at h
  · rw [hread] at h
    exact (hp.manyLoop h).trans (hp hread)

theorem LeavesSuffix.optional (hp : LeavesSuffix p) : LeavesSuffix (optional p) := by
  intro input value rest h
  unfold Parse.optional at h
  rcases hread : p input with _ | _ | ⟨o, left⟩
  · simp [hread] at h
  · obtain ⟨-, rfl⟩ : none = value ∧ input = rest := by simpa [hread] using h
    exact List.suffix_rfl
  · obtain ⟨-, rfl⟩ : some o = value ∧ left = rest := by simpa [hread] using h
    exact hp hread

theorem LeavesSuffix.sepByLoop {separator : Parser (List α) Unit E} (hp : LeavesSuffix p)
    (hsep : LeavesSuffix separator) {out items : List O} {input rest : List α}
    (h : p.sepByLoop separator out input = some (.ok (items, rest))) : rest <:+ input := by
  refine Parser.sepByLoop.partial_correctness p separator
    (fun _ input r => ∀ items rest, r = .ok (items, rest) → rest <:+ input)
    ?_ out input _ h items rest rfl
  intro loop ih out input r hr items rest hrest
  subst hrest
  rcases hread : separator input with _ | _ | ⟨_, afterSep⟩
  · simp [hread] at hr
  · obtain ⟨-, rfl⟩ : out = items ∧ input = rest := by simpa [hread] using hr
    exact List.suffix_rfl
  · rcases hvalue : p afterSep with _ | _ | ⟨item, next⟩
    · simp [hread, hvalue] at hr
    · simp [hread, hvalue] at hr
    · have hnext : loop (out ++ [item]) next = some (.ok (items, rest)) := by
        simpa [hread, hvalue] using hr
      exact (ih _ _ _ hnext _ _ rfl).trans ((hp hvalue).trans (hsep hread))

theorem LeavesSuffix.sepBy {separator : Parser (List α) Unit E} (hp : LeavesSuffix p)
    (hsep : LeavesSuffix separator) : LeavesSuffix (sepBy p separator) := by
  intro input items rest h
  unfold Parse.sepBy at h
  rcases hread : p input with _ | _ | ⟨first, left⟩
  · simp [hread] at h
  · simp [hread] at h
  · rw [hread] at h
    exact (hp.sepByLoop hsep h).trans (hp hread)

end combinators

/-- **No parser of the crate leaves anything but an end of its input.** -/
theorem Built.leavesSuffix {p : Parser (List α) O E} (hp : Built p) : LeavesSuffix p := by
  induction hp with
  | char expected => exact char_leavesSuffix expected
  | tag literal => exact tag_leavesSuffix literal
  | signedInt => exact signedInt_leavesSuffix
  | float => exact float_leavesSuffix
  | ws =>
      intro input o rest h
      cases h
      exact List.dropWhile_suffix _
  | quotedString => exact quotedString_leavesSuffix
  | byte expected => exact byte_leavesSuffix expected
  | byteTag lossy literal => exact byteTag_leavesSuffix lossy literal
  | byteInt => exact byteInt_leavesSuffix
  | byteWs =>
      intro input o rest h
      cases h
      exact List.dropWhile_suffix _
  | stringWire decode =>
      intro input o rest h
      unfold SchemaBridge.parserForStringWire at h
      cases hdecode : decode (String.ofList input) with
      | error e => simp [hdecode, Except.map] at h
      | ok value =>
          obtain ⟨-, rfl⟩ : value = o ∧ [] = rest := by simpa [hdecode, Except.map] using h
          exact List.nil_suffix
  | json f64 decodeUnknown =>
      intro input o rest h
      obtain ⟨unknown, -, h⟩ := Outcome.bind_eq_ok.1 (Option.some.inj h)
      obtain ⟨value, -, h⟩ := Outcome.bind_eq_ok.1 h
      cases h
      exact List.nil_suffix
  | jsonPrefix f64 decodeUnknown => exact jsonPrefix_leavesSuffix f64 decodeUnknown
  | map _ f ih => exact ih.map f
  | andThen _ _ ihp ihf => exact ihp.andThen ihf
  | alt _ _ ihfirst ihother => exact ihfirst.alt ihother
  | many _ ih => exact fun _ _ _ h => ih.manyLoop h
  | many1 _ ih => exact ih.many1
  | optional _ ih => exact ih.optional
  | sepBy _ _ ihvalue ihsep => exact ihvalue.sepBy ihsep

/-! ## Where a repetition ends -/

/-- The parser succeeds on `input` and leaves `rest`. -/
def Parser.Leaves (p : Parser I O E) (input rest : I) : Prop := ∃ o, p input = some (.ok (o, rest))

/-- At every rest that repeating the parser comes to, it returns and does not succeed without
    consuming anything. -/
def Parser.Advances (p : Parser I O E) (input : I) : Prop :=
  ∀ rest, Relation.ReflTransGen p.Leaves input rest → p rest ≠ none ∧ ¬ p.Leaves rest rest

theorem Parser.Advances.next {p : Parser I O E} {input rest : I} (h : p.Advances input)
    (hrest : p.Leaves input rest) : p.Advances rest :=
  fun last hlast => h last (.head hrest hlast)

/-- A round that leaves something else leads on; no other does. -/
theorem Parser.advances_of_next {p : Parser I O E} {input rest : I}
    (hrest : p.Leaves input rest) (h : p.Advances rest) : p.Advances input := by
  obtain ⟨o, ho⟩ := hrest
  have hunique : ∀ left, p.Leaves input left → left = rest := by
    rintro left ⟨o', ho'⟩
    simp [ho] at ho'
    exact ho'.2.symm
  intro last hlast
  rcases hlast.cases_head with rfl | ⟨left, hleft, hlast⟩
  · refine ⟨by simp [ho], fun hstay => ?_⟩
    obtain rfl := hunique _ hstay
    exact (h _ .refl).2 hstay
  · obtain rfl := hunique _ hleft
    exact h last hlast

theorem Parser.advances_of_error {p : Parser I O E} {input : I} {e : E}
    (he : p input = some (.error e)) : p.Advances input := by
  intro last hlast
  have hnone : ∀ left, ¬ p.Leaves input left := by
    rintro left ⟨o, ho⟩
    simp [he] at ho
  rcases hlast.cases_head with rfl | ⟨left, hleft, -⟩
  · exact ⟨by simp [he], hnone _⟩
  · exact absurd hleft (hnone _)

/-- What is not the whole of the input is shorter. -/
theorem LeavesSuffix.length_lt {p : Parser (List α) O E} (hp : LeavesSuffix p)
    {input rest : List α} (hrest : p.Leaves input rest) (hne : rest ≠ input) :
    rest.length < input.length := by
  obtain ⟨o, ho⟩ := hrest
  have hsuffix := hp ho
  exact lt_of_le_of_ne hsuffix.length_le fun heq => hne (hsuffix.eq_of_length heq)

/-- As long as the rounds consume something the loop goes on with less, and so it ends. -/
theorem LeavesSuffix.manyLoop_isSome {p : Parser (List α) O E} (hp : LeavesSuffix p)
    (input : List α) (h : p.Advances input) (out : List O) : (p.manyLoop out input).isSome := by
  induction hn : input.length using Nat.strong_induction_on generalizing input out with
  | _ n ih =>
      rw [Parser.manyLoop.eq_def]
      rcases hread : p input with _ | _ | ⟨item, rest⟩
      · exact absurd hread (h input .refl).1
      · simp
      · have hleaves : p.Leaves input rest := ⟨item, hread⟩
        have hne : rest ≠ input := fun heq => (h input .refl).2 (heq ▸ hleaves)
        simpa using ih _ (hn ▸ hp.length_lt hleaves hne) rest (h.next hleaves) (out ++ [item]) rfl

/-- A loop that has come to its end has made no round in vain. -/
theorem Parser.advances_of_manyLoop {p : Parser I O E} {out : List O} {input : I}
    {r : Except E (List O × I)} (h : p.manyLoop out input = some r) : p.Advances input := by
  refine Parser.manyLoop.partial_correctness p (fun _ input _ => p.Advances input) ?_ out input r h
  intro loop ih out input r hr
  rcases hread : p input with _ | _ | ⟨item, rest⟩
  · simp [hread] at hr
  · exact advances_of_error hread
  · have hnext : loop (out ++ [item]) rest = some r := by simpa [hread] using hr
    exact advances_of_next ⟨item, hread⟩ (ih _ _ _ hnext)

theorem LeavesSuffix.manyLoop_isSome_iff {p : Parser (List α) O E} (hp : LeavesSuffix p)
    (out : List O) (input : List α) : (p.manyLoop out input).isSome ↔ p.Advances input := by
  constructor
  · intro h
    obtain ⟨r, hr⟩ := Option.isSome_iff_exists.1 h
    exact Parser.advances_of_manyLoop hr
  · exact fun h => hp.manyLoop_isSome input h out

/-- The first round of `many1` is a round of `many`. -/
theorem LeavesSuffix.many1_isSome_iff {p : Parser (List α) O E} (hp : LeavesSuffix p)
    (input : List α) : (Parse.many1 p input).isSome ↔ p.Advances input := by
  unfold Parse.many1
  rcases hread : p input with _ | _ | ⟨first, rest⟩
  · simpa using fun h : p.Advances input => (h input .refl).1 hread
  · simpa using Parser.advances_of_error hread
  · have hleaves : p.Leaves input rest := ⟨first, hread⟩
    have hloop := hp.manyLoop_isSome_iff [first] rest
    exact hloop.trans ⟨Parser.advances_of_next hleaves, fun h => h.next hleaves⟩

/-- One round of the loop of `sep_by`: a separator and a value behind it. -/
def Parser.behind (value : Parser I O E) (separator : Parser I Unit E) : Parser I O E :=
  separator.andThen fun _ => value

theorem LeavesSuffix.sepByLoop_isSome {p : Parser (List α) O E} {separator : Parser (List α) Unit E}
    (hround : LeavesSuffix (p.behind separator)) (rest : List α)
    (h : (p.behind separator).Advances rest) (out : List O) :
    (p.sepByLoop separator out rest).isSome := by
  induction hn : rest.length using Nat.strong_induction_on generalizing rest out with
  | _ n ih =>
      rw [Parser.sepByLoop.eq_def]
      have hreturns := (h rest .refl).1
      rw [Parser.behind, Parser.andThen] at hreturns
      rcases hread : separator rest with _ | _ | ⟨_, afterSep⟩
      · simp [hread] at hreturns
      · simp
      · rcases hvalue : p afterSep with _ | _ | ⟨item, next⟩
        · simp [hread, hvalue] at hreturns
        · simp [hvalue]
        · have hleaves : (p.behind separator).Leaves rest next :=
            ⟨item, Parser.andThen_eq_ok.2 ⟨(), afterSep, hread, hvalue⟩⟩
          have hne : next ≠ rest := fun heq => (h rest .refl).2 (heq ▸ hleaves)
          simpa [hvalue] using
            ih _ (hn ▸ hround.length_lt hleaves hne) next (h.next hleaves) (out ++ [item]) rfl

theorem Parser.advances_of_sepByLoop {p : Parser I O E} {separator : Parser I Unit E}
    {out : List O} {rest : I} {r : Except E (List O × I)}
    (h : p.sepByLoop separator out rest = some r) : (p.behind separator).Advances rest := by
  refine Parser.sepByLoop.partial_correctness p separator
    (fun _ rest _ => (p.behind separator).Advances rest) ?_ out rest r h
  intro loop ih out rest r hr
  rcases hread : separator rest with _ | e | ⟨_, afterSep⟩
  · simp [hread] at hr
  · exact advances_of_error (e := e) (by simp [Parser.behind, Parser.andThen, hread])
  · rcases hvalue : p afterSep with _ | e | ⟨item, next⟩
    · simp [hread, hvalue] at hr
    · exact advances_of_error (e := e) (by simp [Parser.behind, Parser.andThen, hread, hvalue])
    · have hnext : loop (out ++ [item]) next = some r := by simpa [hread, hvalue] using hr
      exact advances_of_next ⟨item, Parser.andThen_eq_ok.2 ⟨(), afterSep, hread, hvalue⟩⟩
        (ih _ _ _ hnext)

/-- The first value has to be read, and then rounds of a separator and a value. -/
theorem LeavesSuffix.sepBy_isSome_iff {p : Parser (List α) O E} {separator : Parser (List α) Unit E}
    (hround : LeavesSuffix (p.behind separator)) (input : List α) :
    (Parse.sepBy p separator input).isSome ↔
      p input ≠ none ∧ ∀ rest, p.Leaves input rest → (p.behind separator).Advances rest := by
  unfold Parse.sepBy
  rcases hread : p input with _ | _ | ⟨first, rest⟩
  · simp
  · simp [Parser.Leaves, hread]
  · have hloop : (p.sepByLoop separator [first] rest).isSome ↔
        (p.behind separator).Advances rest := by
      constructor
      · intro h
        obtain ⟨r, hr⟩ := Option.isSome_iff_exists.1 h
        exact Parser.advances_of_sepByLoop hr
      · exact fun h => hround.sepByLoop_isSome rest h [first]
    simpa [Parser.Leaves, hread] using hloop

/-- **When a repetition returns.** `many` and `many1` return exactly if the repeated parser returns
    at every rest that they come to, and consumes something wherever it succeeds; `sep_by` exactly
    if the first value is returned and the same holds of a separator with a value behind it. What
    the parser leaves over is an end of its input. -/
theorem repetition_returns_iff {p : Parser (List α) O E} {separator : Parser (List α) Unit E}
    (hp : Built p) (hsep : Built separator) (input : List α) :
    ((p.many input).isSome ↔ p.Advances input) ∧
      ((many1 p input).isSome ↔ p.Advances input) ∧
      ((sepBy p separator input).isSome ↔
        p input ≠ none ∧ ∀ rest, p.Leaves input rest → (p.behind separator).Advances rest) ∧
      ∀ rest, p.Leaves input rest → rest <:+ input := by
  have hround : Built (p.behind separator) := hsep.andThen fun _ => hp
  exact ⟨hp.leavesSuffix.manyLoop_isSome_iff [] input, hp.leavesSuffix.many1_isSome_iff input,
    hround.leavesSuffix.sepBy_isSome_iff input, fun _ ⟨_, hread⟩ => hp.leavesSuffix hread⟩

/-- A parser that never succeeds without consuming, and neither fails to return. -/
theorem Parser.advances_of_consumes {p : Parser I O E} (hreturns : ∀ input, p input ≠ none)
    (hconsumes : ∀ input, ¬ p.Leaves input input) (input : I) : p.Advances input :=
  fun rest _ => ⟨hreturns rest, hconsumes rest⟩

theorem char_consumes (c : Char) (input : List Char) : ¬ (char c).Leaves input input := by
  rintro ⟨o, h⟩
  cases input with
  | nil => cases h
  | cons found input =>
      rw [char] at h
      split_ifs at h
      · simp at h
      · cases h

theorem char_returns (c : Char) (input : List Char) : char c input ≠ none := by
  cases input with
  | nil => exact Option.some_ne_none _
  | cons found input =>
      rw [char]
      split_ifs <;> exact Option.some_ne_none _

/-- A separator that consumes something moves every round on. -/
theorem LeavesSuffix.consumes_behind {p : Parser (List α) O E}
    {separator : Parser (List α) Unit E} (hp : LeavesSuffix p) (hsep : LeavesSuffix separator)
    (hconsumes : ∀ input, ¬ separator.Leaves input input) (input : List α) :
    ¬ (p.behind separator).Leaves input input := by
  rintro ⟨o, h⟩
  obtain ⟨u, afterSep, hread, hvalue⟩ := Parser.andThen_eq_ok.1 h
  have hsame : afterSep = input :=
    (hsep hread).eq_of_length (le_antisymm (hsep hread).length_le (hp hvalue).length_le)
  exact hconsumes input ⟨u, hsame ▸ hread⟩

theorem Parser.behind_returns {p : Parser I O E} {separator : Parser I Unit E}
    (hp : ∀ input, p input ≠ none) (hsep : ∀ input, separator input ≠ none) (input : I) :
    p.behind separator input ≠ none := by
  rw [Parser.behind, Parser.andThen]
  rcases hread : separator input with _ | _ | ⟨_, afterSep⟩
  · exact absurd hread (hsep input)
  · simp
  · simpa using hp afterSep

theorem void_char_consumes (c : Char) (input : List Char) :
    ¬ (void (char c)).Leaves input input := by
  rintro ⟨u, h⟩
  obtain ⟨o, ho, -⟩ := Parser.map_eq_ok.1 h
  exact char_consumes c input ⟨o, ho⟩

theorem void_char_returns (c : Char) (input : List Char) : void (char c) input ≠ none := by
  simpa [void, Parser.map] using char_returns c input

theorem repetition_returns_char :
    ((char 'a').many ['a', 'a', 'b']).isSome ∧ (many1 (char 'a') ['a', 'a', 'b']).isSome ∧
      (sepBy (char 'a') (void (char ',')) ['a', 'a', 'b']).isSome := by
  obtain ⟨hmany, hmany1, hsepBy, -⟩ := repetition_returns_iff (.char 'a') (Built.char ',').void
    ['a', 'a', 'b']
  have hadvances := Parser.advances_of_consumes (char_returns 'a') (char_consumes 'a')
  have hround := Parser.advances_of_consumes
    (Parser.behind_returns (char_returns 'a') (void_char_returns ','))
    ((char_leavesSuffix 'a').consumes_behind (Built.char ',').void.leavesSuffix
      (void_char_consumes ','))
  exact ⟨hmany.2 (hadvances _), hmany1.2 (hadvances _),
    hsepBy.2 ⟨char_returns 'a' _, fun rest _ => hround rest⟩⟩

/-- Whitespace can be skipped once more at the end of the input, over and over. -/
theorem ws_many_never_returns :
    ¬ ∀ {p : Parser (List Char) Unit ParseFailure}, Built p → ∀ input, (p.many input).isSome := by
  intro h
  have hadvances := (Built.ws.leavesSuffix.manyLoop_isSome_iff [] []).1 (h .ws [])
  exact (hadvances [] .refl).2 ⟨(), rfl⟩

end IdEffect.Parse
