import Mathlib.Algebra.Ring.Nat
import IdEffect.Schema.Parse

set_option autoImplicit false

/-! # The JSON parser

The recursive-descent parser of `json.rs`, on the characters of the text. Every function answers
with the value it read and the input left over. The three that call each other (`parse_value` and
the loops of `parse_array` and `parse_object`) recurse on a fuel argument; `parseJsonDocument` gives
them more of it than any text can use up.

`f64` stands for `str::parse::<f64>`, which accepts every text that `parse_number` hands it. -/

namespace IdEffect.Parse

open Schema (Unknown ParseError Outcome)

/-! ## Whitespace and digits -/

/-- `char::is_whitespace`: the characters with the property White_Space. -/
def isWhitespace (c : Char) : Bool :=
  let n := c.toNat
  (9 ≤ n && n ≤ 13) || n == 0x20 || n == 0x85 || n == 0xA0 || n == 0x1680
    || (0x2000 ≤ n && n ≤ 0x200A) || n == 0x2028 || n == 0x2029 || n == 0x202F || n == 0x205F
    || n == 0x3000

def trimStart (input : List Char) : List Char :=
  input.dropWhile isWhitespace

def isAsciiHexdigit (c : Char) : Bool :=
  c.isDigit || ('a' ≤ c && c ≤ 'f') || ('A' ≤ c && c ≤ 'F')

def hexDigit (c : Char) : ℕ :=
  if c.isDigit then c.toNat - '0'.toNat
  else if 'a' ≤ c then c.toNat - 'a'.toNat + 10
  else c.toNat - 'A'.toNat + 10

/-- `u32::from_str_radix(_, 16)` on hexadecimal digits. -/
def hexValue (hex : List Char) : ℕ :=
  hex.foldl (fun n c => 16 * n + hexDigit c) 0

/-- `char::from_u32`. -/
def fromU32 (n : ℕ) : Option Char :=
  if h : n.isValidChar then some (Char.ofNatAux n h) else none

/-- The number a run of decimal digits stands for. -/
def decimal (digits : List Char) : ℕ :=
  digits.foldl (fun n c => 10 * n + (c.toNat - '0'.toNat)) 0

def signed (neg : Bool) (n : ℕ) : ℤ :=
  if neg then -(n : ℤ) else n

/-- `str::parse::<i64>` on an optional minus and digits. -/
def parseI64 (neg : Bool) (digits : List Char) : Option Int64 :=
  let z := signed neg (decimal digits)
  if -9223372036854775808 ≤ z ∧ z ≤ 9223372036854775807 then some (Int64.ofInt z) else none

/-! ## Leaves -/

def parseNull : List Char → Outcome (Unknown × List Char)
  | 'n' :: 'u' :: 'l' :: 'l' :: rest => .ok (.null, rest)
  | _ => .error ⟨"", "expected null"⟩

def parseBool : List Char → Outcome (Unknown × List Char)
  | 't' :: 'r' :: 'u' :: 'e' :: rest => .ok (.bool true, rest)
  | 'f' :: 'a' :: 'l' :: 's' :: 'e' :: rest => .ok (.bool false, rest)
  | _ => .error ⟨"", "expected boolean"⟩

/-- The character that an escaped `ch` pushes, `u` apart. -/
def escapedChar (ch : Char) : Char :=
  if ch = '"' then '"'
  else if ch = '\\' then '\\'
  else if ch = '/' then '/'
  else if ch = 'b' then '\x08'
  else if ch = 'f' then '\x0c'
  else if ch = 'n' then '\n'
  else if ch = 'r' then '\r'
  else if ch = 't' then '\t'
  else ch

/-- The character of a unicode escape. `suffix` is the input from the current position on, that
    is, from the letter `u` itself. -/
def unicodeEscape (suffix : List Char) : Outcome Char :=
  let hex := suffix.take 4
  if (hex.map Char.utf8Size).sum ≠ 4 ∨ hex.all isAsciiHexdigit = false then
    .error ⟨"", "invalid unicode escape"⟩
  else
    match fromU32 (hexValue hex) with
    | none => .error ⟨"", "invalid unicode scalar"⟩
    | some decoded => .ok decoded

/-- The loop over the characters after the opening quote; `escaped` says that the last one was a
    backslash. -/
def parseStringLoop : List Char → Bool → List Char → Outcome (Unknown × List Char)
  | _, _, [] => .error ⟨"", "unterminated string"⟩
  | out, true, ch :: rest =>
      if ch = 'u' then do
        let decoded ← unicodeEscape (ch :: rest)
        parseStringLoop (out ++ [decoded]) false rest
      else parseStringLoop (out ++ [escapedChar ch]) false rest
  | out, false, ch :: rest =>
      if ch = '\\' then parseStringLoop out true rest
      else if ch = '"' then .ok (.string (String.ofList out), rest)
      else parseStringLoop (out ++ [ch]) false rest

def parseString : List Char → Outcome (Unknown × List Char)
  | '"' :: rest => parseStringLoop [] false rest
  | _ => .error ⟨"", "expected string"⟩

section Numbers

variable (f64 : List Char → Float)

/-- The digits after an optional minus. -/
def parseUnsigned (neg : Bool) (body : List Char) : Outcome (Unknown × List Char) :=
  let sign := if neg then ['-'] else []
  let digits := body.takeWhile Char.isDigit
  if digits = [] then .error ⟨"", "expected number"⟩
  else
    match body.dropWhile Char.isDigit with
    | '.' :: rest =>
        let slice := sign ++ digits ++ '.' :: rest.takeWhile Char.isDigit
        .ok (.f64 (f64 slice), rest.dropWhile Char.isDigit)
    | rest =>
        match parseI64 neg digits with
        | none => .error ⟨"", "invalid integer"⟩
        | some value => .ok (.i64 value, rest)

def parseNumber : List Char → Outcome (Unknown × List Char)
  | '-' :: body => parseUnsigned f64 true body
  | body => parseUnsigned f64 false body

/-! ## Arrays, objects and values -/

/-- `parse_array` up to its loop. -/
def parseArray (loop : List Unknown → List Char → Outcome (Unknown × List Char)) :
    List Char → Outcome (Unknown × List Char)
  | '[' :: rest =>
      match trimStart rest with
      | ']' :: rest => .ok (.array [], rest)
      | current => loop [] current
  | _ => .error ⟨"", "expected array"⟩

/-- `parse_object` up to its loop. -/
def parseObject (loop : List (String × Unknown) → List Char → Outcome (Unknown × List Char)) :
    List Char → Outcome (Unknown × List Char)
  | '\x7b' :: rest =>
      match trimStart rest with
      | '\x7d' :: rest => .ok (.object [], rest)
      | current => loop [] current
  | _ => .error ⟨"", "expected object"⟩

/-- One turn of the loop of `parse_object`: a key, a colon and a value. -/
def parseMember (value : List Char → Outcome (Unknown × List Char)) (current : List Char) :
    Outcome ((String × Unknown) × List Char) := do
  let (key, afterKey) ← parseString current
  match key with
  | .string key =>
      match trimStart afterKey with
      | ':' :: rest =>
          let (v, afterValue) ← value (trimStart rest)
          return ((key, v), afterValue)
      | _ => .error ⟨"", "expected ':' after object key"⟩
  | _ => .error ⟨"", "expected object key string"⟩

mutual

def parseValue : ℕ → List Char → Outcome (Unknown × List Char)
  | 0, _ => .error ⟨"", "out of fuel"⟩
  | n + 1, input =>
      match trimStart input with
      | [] => .error ⟨"", "unexpected end of input"⟩
      | c :: cs =>
          if c = '"' then parseString (c :: cs)
          else if c = '\x7b' then parseObject (parseObjectLoop n) (c :: cs)
          else if c = '[' then parseArray (parseArrayLoop n) (c :: cs)
          else if c = 't' ∨ c = 'f' then parseBool (c :: cs)
          else if c = 'n' then parseNull (c :: cs)
          else if c = '-' ∨ c.isDigit then parseNumber f64 (c :: cs)
          else .error ⟨"", "expected JSON value"⟩

def parseArrayLoop : ℕ → List Unknown → List Char → Outcome (Unknown × List Char)
  | 0, _, _ => .error ⟨"", "out of fuel"⟩
  | n + 1, items, current => do
      let (item, after) ← parseValue n current
      match trimStart after with
      | ']' :: rest => .ok (.array (items ++ [item]), rest)
      | ',' :: rest => parseArrayLoop n (items ++ [item]) (trimStart rest)
      | _ => .error ⟨"", "expected ',' or ']' in array"⟩

def parseObjectLoop : ℕ → List (String × Unknown) → List Char → Outcome (Unknown × List Char)
  | 0, _, _ => .error ⟨"", "out of fuel"⟩
  | n + 1, map, current => do
      let ((key, value), after) ← parseMember (parseValue n) current
      match trimStart after with
      | '\x7d' :: rest => .ok (.object (Assoc.insert key value map), rest)
      | ',' :: rest => parseObjectLoop n (Assoc.insert key value map) (trimStart rest)
      | _ => .error ⟨"", "expected ',' or '\x7d' in object"⟩

end

/-- More fuel than a text of this length can use up. -/
def enough (input : List Char) : ℕ := 2 * input.length + 2

def parseJsonValue (input : List Char) : Outcome (Unknown × List Char) :=
  parseValue f64 (enough input) (trimStart input)

def parseJsonDocument (input : String) : Outcome Unknown := do
  let (value, rest) ← parseJsonValue f64 input.toList
  if rest.all isWhitespace then .ok value
  else .error ⟨"", "trailing input after JSON value"⟩

end Numbers

end IdEffect.Parse
