import Mathlib.Data.List.Basic

set_option autoImplicit false

/-! # Parser combinators: `parser.rs`

A parser is a function on the input; what it is made of is called in the same order as in the
source. A `String` is the list of its characters. Nothing keeps the parser given to a combinator
from answering with more input than it was given, so a loop need not come to an end: `none` stands
for a call that does not return. -/

namespace IdEffect.Parse

structure ParseFailure where
  message : String
deriving DecidableEq, Repr

/-- The answer is the output and the input that is left. -/
abbrev Parser (I O E : Type) : Type := I → Option (Except E (O × I))

variable {I O U E : Type}

namespace Parser

def map (p : Parser I O E) (f : O → U) : Parser I U E := fun input =>
  (p input).map fun r => r.map fun (o, rest) => (f o, rest)

def andThen (p : Parser I O E) (f : O → Parser I U E) : Parser I U E := fun input =>
  (p input).bind fun
    | .error e => some (.error e)
    | .ok (o, rest) => f o rest

/-- The error is that of the first parser. -/
def alt (first other : Parser I O E) : Parser I O E := fun input =>
  (first input).bind fun
    | .ok parsed => some (.ok parsed)
    | .error firstErr => (other input).map fun r => r.mapError fun _ => firstErr

end Parser

/-! ## Characters and literals -/

def char (expected : Char) : Parser (List Char) Char ParseFailure
  | [] => some (.error ⟨"expected '" ++ expected.toString ++ "', found end of input"⟩)
  | found :: rest =>
      if found = expected then some (.ok (found, rest))
      else some (.error
        ⟨"expected '" ++ expected.toString ++ "', found '" ++ found.toString ++ "'"⟩)

/-- `strip_prefix` -/
def strip : List Char → List Char → Option (List Char)
  | [], input => some input
  | _ :: _, [] => none
  | c :: literal, x :: input => if x = c then strip literal input else none

def tag (literal : List Char) : Parser (List Char) (List Char) ParseFailure := fun input =>
  match strip literal input with
  | some rest => some (.ok (literal, rest))
  | none => some (.error ⟨"expected '" ++ String.ofList literal ++ "'"⟩)

/-- `bool_lit` -/
def boolLit : Parser (List Char) Bool ParseFailure :=
  Parser.alt (Parser.map (tag ['t', 'r', 'u', 'e']) fun _ => true)
    (Parser.map (tag ['f', 'a', 'l', 's', 'e']) fun _ => false)

def void (p : Parser I O E) : Parser I Unit E := p.map fun _ => ()

theorem char_self (c : Char) (rest : List Char) : char c (c :: rest) = some (.ok (c, rest)) := by
  simp [char]

theorem void_char_self (c : Char) (rest : List Char) :
    void (char c) (c :: rest) = some (.ok ((), rest)) := by
  simp [void, Parser.map, char_self, Except.map]

/-- Another character in front, or none. -/
theorem void_char_error {c : Char} {rest : List Char} (h : rest.head? ≠ some c) :
    ∃ e, void (char c) rest = some (.error e) := by
  cases rest with
  | nil => exact ⟨_, rfl⟩
  | cons x rest =>
      have hx : x ≠ c := by simpa using h
      rw [void, Parser.map, char, if_neg hx]
      exact ⟨_, rfl⟩

/-! ## Repetition -/

/-- The `loop` of `many`, which only a failure ends. -/
def Parser.manyLoop (p : Parser I O E) (out : List O) (input : I) :
    Option (Except E (List O × I)) := do
  match ← p input with
  | .ok (item, rest) => p |>.manyLoop (out ++ [item]) rest
  | .error _ => some (.ok (out, input))
partial_fixpoint

def Parser.many (p : Parser I O E) : Parser I (List O) E := fun input => p.manyLoop [] input

/-- `many1`, whose loop is that of `many` after the first item. -/
def many1 (inner : Parser I O E) : Parser I (List O) E := fun input =>
  (inner input).bind fun
    | .error err => some (.error err)
    | .ok (first, rest) => inner.manyLoop [first] rest

def optional (inner : Parser I O E) : Parser I (Option O) E := fun input =>
  (inner input).map fun
    | .ok (value, rest) => .ok (some value, rest)
    | .error _ => .ok (none, input)

/-- Parse `inner` surrounded by `open_` and `close`. -/
def between (open_ close : Parser I Unit E) (inner : Parser I O E) : Parser I O E :=
  open_.andThen fun _ => inner.andThen fun out => close.map fun _ => out

/-- `char::is_ascii_whitespace` -/
def isAsciiWhitespace (c : Char) : Bool :=
  c == ' ' || c == '\t' || c == '\n' || c == '\x0C' || c == '\r'

def ws : Parser (List Char) Unit ParseFailure := fun input =>
  some (.ok ((), input.dropWhile isAsciiWhitespace))

/-! ## Separated values -/

/-- The `loop` of `sep_by`. A separator has to be followed by a value. -/
def Parser.sepByLoop (value : Parser I O E) (separator : Parser I Unit E) (out : List O)
    (rest : I) : Option (Except E (List O × I)) := do
  match ← separator rest with
  | .error _ => some (.ok (out, rest))
  | .ok ((), afterSep) =>
      match ← value afterSep with
      | .error err => some (.error err)
      | .ok (item, next) => value |>.sepByLoop separator (out ++ [item]) next
partial_fixpoint

/-- `sep_by`, which begins with a value. -/
def sepBy (value : Parser I O E) (separator : Parser I Unit E) : Parser I (List O) E := fun input =>
  (value input).bind fun
    | .error err => some (.error err)
    | .ok (first, rest) => value.sepByLoop separator [first] rest

section loop

variable {value : Parser I O E} {separator : Parser I Unit E} {out : List O} {rest : I}

theorem sepByLoop_stop {err : E} (hsep : separator rest = some (.error err)) :
    value.sepByLoop separator out rest = some (.ok (out, rest)) := by
  rw [Parser.sepByLoop.eq_def, hsep]
  rfl

theorem sepByLoop_next {afterSep next : I} {item : O}
    (hsep : separator rest = some (.ok ((), afterSep)))
    (hvalue : value afterSep = some (.ok (item, next))) :
    value.sepByLoop separator out rest = value.sepByLoop separator (out ++ [item]) next := by
  rw [Parser.sepByLoop.eq_def, hsep]
  simp [hvalue]

/-- The loop starts with a value and only adds to what it has. -/
theorem sepByLoop_ne_nil {values : List O} {last : I} (hout : out ≠ [])
    (h : value.sepByLoop separator out rest = some (.ok (values, last))) : values ≠ [] := by
  refine Parser.sepByLoop.partial_correctness value separator
    (fun out _ r => out ≠ [] → ∀ values last, r = .ok (values, last) → values ≠ [])
    ?_ out rest _ h hout values last rfl
  intro loop ih out rest r hr hout values last hvalues
  subst hvalues
  rcases hsep : separator rest with _ | _ | ⟨_, afterSep⟩
  · simp [hsep] at hr
  · obtain ⟨rfl, -⟩ : out = values ∧ rest = last := by simpa [hsep] using hr
    exact hout
  · rcases hvalue : value afterSep with _ | _ | ⟨item, next⟩
    · simp [hsep, hvalue] at hr
    · simp [hsep, hvalue] at hr
    · have hnext : loop (out ++ [item]) next = some (.ok (values, last)) := by
        simpa [hsep, hvalue] using hr
      exact ih _ _ _ hnext (by simp) _ _ rfl

theorem sepBy_ne_nil {input last : I} {values : List O}
    (h : sepBy value separator input = some (.ok (values, last))) : values ≠ [] := by
  rw [sepBy] at h
  rcases hvalue : value input with _ | _ | ⟨first, rest⟩
  · simp [hvalue] at h
  · simp [hvalue] at h
  · rw [hvalue] at h
    exact sepByLoop_ne_nil (List.cons_ne_nil _ _) h

end loop

end IdEffect.Parse
