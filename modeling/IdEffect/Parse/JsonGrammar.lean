import IdEffect.Parse.Json

set_option autoImplicit false

/-! # The grammar of JSON, and of what the parser reads

`Derives` is the grammar of JSON texts over three things that are left open: what counts as
whitespace, how a character of a string may be written, and how a number is. Three dialects fill
them in.

* `rfc` is JSON: RFC 8259, with the value every text denotes. An integer literal denotes an `i64`
  and has to fit, any other number the double that its text parses to. An escaped surrogate without
  its partner denotes no character, so a string with one has no value.
* `plain` is the part of it without unicode escapes and without exponents.
* `relaxed` extends `plain` to what the parser is lenient about: any Unicode whitespace, raw
  control characters and unknown escapes in strings, leading zeros, and a decimal point without
  digits after it. -/

namespace IdEffect.Parse

open Schema (Unknown)

/-! ## Dialects -/

structure Dialect where
  /-- Whitespace between tokens. -/
  ws : Char → Prop
  /-- The ways to write one character of a string. -/
  piece : List Char → Char → Prop
  /-- The ways to write a number. -/
  number : List Char → Unknown → Prop

/-- One dialect allows whatever the other does. -/
structure Dialect.Le (d d' : Dialect) : Prop where
  ws : ∀ {c}, d.ws c → d'.ws c
  piece : ∀ {text c}, d.piece text c → d'.piece text c
  number : ∀ {text v}, d.number text v → d'.number text v

/-- The texts between the quotes of a string, with the characters they stand for. -/
inductive Body (d : Dialect) : List Char → List Char → Prop
  | nil : Body d [] []
  | cons {text rest cs : List Char} {c : Char} (hd : d.piece text c) (tl : Body d rest cs) :
      Body d (text ++ rest) (c :: cs)

/-- What a piece of text can stand for. -/
inductive Sem where
  | value (v : Unknown)
  | element (v : Unknown)
  | items (vs : List Unknown)
  | member (key : String) (v : Unknown)
  | members (kvs : List (String × Unknown))

/-- Whitespace only. -/
def Dialect.Ws (d : Dialect) (w : List Char) : Prop := ∀ c ∈ w, d.ws c

inductive Derives (d : Dialect) : List Char → Sem → Prop
  | null : Derives d ['n', 'u', 'l', 'l'] (.value .null)
  | true_ : Derives d ['t', 'r', 'u', 'e'] (.value (.bool true))
  | false_ : Derives d ['f', 'a', 'l', 's', 'e'] (.value (.bool false))
  | number {text : List Char} {v : Unknown} (h : d.number text v) : Derives d text (.value v)
  | string {body cs : List Char} (h : Body d body cs) :
      Derives d ('"' :: (body ++ ['"'])) (.value (.string (String.ofList cs)))
  | emptyArray {w : List Char} (h : d.Ws w) :
      Derives d ('[' :: (w ++ [']'])) (.value (.array []))
  | array {text : List Char} {vs : List Unknown} (h : Derives d text (.items vs)) :
      Derives d ('[' :: (text ++ [']'])) (.value (.array vs))
  | emptyObject {w : List Char} (h : d.Ws w) :
      Derives d ('\x7b' :: (w ++ ['\x7d'])) (.value (.object []))
  | object {text : List Char} {kvs : List (String × Unknown)} (h : Derives d text (.members kvs)) :
      Derives d ('\x7b' :: (text ++ ['\x7d'])) (.value (.object (Assoc.ofList kvs)))
  | element {w text w' : List Char} {v : Unknown} (hw : d.Ws w) (h : Derives d text (.value v))
      (hw' : d.Ws w') : Derives d (w ++ (text ++ w')) (.element v)
  | lastItem {text : List Char} {v : Unknown} (h : Derives d text (.element v)) :
      Derives d text (.items [v])
  | nextItem {text rest : List Char} {v : Unknown} {vs : List Unknown}
      (h : Derives d text (.element v)) (t : Derives d rest (.items vs)) :
      Derives d (text ++ ',' :: rest) (.items (v :: vs))
  | member {w body key w' text : List Char} {v : Unknown} (hw : d.Ws w) (hk : Body d body key)
      (hw' : d.Ws w') (h : Derives d text (.element v)) :
      Derives d (w ++ '"' :: (body ++ '"' :: (w' ++ ':' :: text))) (.member (String.ofList key) v)
  | lastMember {text : List Char} {key : String} {v : Unknown}
      (h : Derives d text (.member key v)) : Derives d text (.members [(key, v)])
  | nextMember {text rest : List Char} {key : String} {v : Unknown} {kvs : List (String × Unknown)}
      (h : Derives d text (.member key v)) (t : Derives d rest (.members kvs)) :
      Derives d (text ++ ',' :: rest) (.members ((key, v) :: kvs))

/-- A whole document: a value with whitespace around it. -/
def Dialect.Text (d : Dialect) (s : String) (v : Unknown) : Prop :=
  Derives d s.toList (.element v)

theorem Body.mono {d d' : Dialect} (hle : d.Le d') {body cs : List Char} (h : Body d body cs) :
    Body d' body cs := by
  induction h with
  | nil => exact .nil
  | cons hd _ ih => exact .cons (hle.piece hd) ih

theorem Dialect.Ws.mono {d d' : Dialect} (hle : d.Le d') {w : List Char} (h : d.Ws w) : d'.Ws w :=
  fun c hc => hle.ws (h c hc)

theorem Derives.mono {d d' : Dialect} (hle : d.Le d') {text : List Char} {sem : Sem}
    (h : Derives d text sem) : Derives d' text sem := by
  induction h with
  | null => exact .null
  | true_ => exact .true_
  | false_ => exact .false_
  | number h => exact .number (hle.number h)
  | string h => exact .string (h.mono hle)
  | emptyArray h => exact .emptyArray (h.mono hle)
  | array _ ih => exact .array ih
  | emptyObject h => exact .emptyObject (h.mono hle)
  | object _ ih => exact .object ih
  | element hw _ hw' ih => exact .element (hw.mono hle) ih (hw'.mono hle)
  | lastItem _ ih => exact .lastItem ih
  | nextItem _ _ ih iht => exact .nextItem ih iht
  | member hw hk hw' _ ih => exact .member (hw.mono hle) (hk.mono hle) (hw'.mono hle) ih
  | lastMember _ ih => exact .lastMember ih
  | nextMember _ _ ih iht => exact .nextMember ih iht

/-! ## JSON -/

/-- The whitespace of RFC 8259. -/
def JsonWs (c : Char) : Prop := c = ' ' ∨ c = '\t' ∨ c = '\n' ∨ c = '\r'

/-- The characters that may follow a backslash, with what they stand for. -/
def escapes : List (Char × Char) :=
  [('"', '"'), ('\\', '\\'), ('/', '/'), ('b', '\x08'), ('f', '\x0c'), ('n', '\n'), ('r', '\r'),
    ('t', '\t')]

inductive PlainPiece : List Char → Char → Prop
  | raw {c : Char} (hq : c ≠ '"') (hb : c ≠ '\\') (hc : 0x20 ≤ c.toNat) : PlainPiece [c] c
  | escape {e c : Char} (h : (e, c) ∈ escapes) : PlainPiece ['\\', e] c

/-- Four hexadecimal digits. -/
def Hex4 (hex : List Char) : Prop := hex.length = 4 ∧ ∀ c ∈ hex, isAsciiHexdigit c = true

inductive RfcPiece : List Char → Char → Prop
  | plain {text : List Char} {c : Char} (h : PlainPiece text c) : RfcPiece text c
  | unicode {hex : List Char} {c : Char} (h : Hex4 hex) (hc : c.toNat = hexValue hex) :
      RfcPiece ('\\' :: 'u' :: hex) c
  | surrogates {high low : List Char} {c : Char} (hh : Hex4 high) (hl : Hex4 low)
      (hhigh : 0xD800 ≤ hexValue high ∧ hexValue high < 0xDC00)
      (hlow : 0xDC00 ≤ hexValue low ∧ hexValue low < 0xE000)
      (hc : c.toNat = 0x10000 + (hexValue high - 0xD800) * 0x400 + (hexValue low - 0xDC00)) :
      RfcPiece ('\\' :: 'u' :: high ++ '\\' :: 'u' :: low) c

def minus (neg : Bool) : List Char := if neg then ['-'] else []

/-- A run of digits. -/
def Digits (digits : List Char) : Prop := digits ≠ [] ∧ ∀ c ∈ digits, c.isDigit = true

/-- An integer part: no leading zero. -/
def IntPart (digits : List Char) : Prop :=
  Digits digits ∧ (digits = ['0'] ∨ digits.head? ≠ some '0')

/-- An exponent part. -/
def ExpPart (text : List Char) : Prop :=
  ∃ e sign digits, (e = 'e' ∨ e = 'E') ∧ (sign = [] ∨ sign = ['+'] ∨ sign = ['-']) ∧
    Digits digits ∧ text = e :: sign ++ digits

section Numbers

variable (f64 : List Char → Float)

inductive PlainNumber : List Char → Unknown → Prop
  | int {neg : Bool} {digits : List Char} {n : Int64} (h : IntPart digits)
      (hn : n.toInt = signed neg (decimal digits)) : PlainNumber (minus neg ++ digits) (.i64 n)
  | frac {neg : Bool} {digits fraction : List Char} (h : IntPart digits) (hf : Digits fraction) :
      PlainNumber (minus neg ++ digits ++ '.' :: fraction)
        (.f64 (f64 (minus neg ++ digits ++ '.' :: fraction)))

inductive RfcNumber : List Char → Unknown → Prop
  | plain {text : List Char} {v : Unknown} (h : PlainNumber f64 text v) : RfcNumber text v
  | exp {neg : Bool} {digits fraction exp : List Char} (h : IntPart digits)
      (hf : fraction = [] ∨ ∃ ds, Digits ds ∧ fraction = '.' :: ds) (he : ExpPart exp) :
      RfcNumber (minus neg ++ digits ++ fraction ++ exp)
        (.f64 (f64 (minus neg ++ digits ++ fraction ++ exp)))

def plain : Dialect := ⟨JsonWs, PlainPiece, PlainNumber f64⟩

def rfc : Dialect := ⟨JsonWs, RfcPiece, RfcNumber f64⟩

/-! ## What the parser is lenient about -/

inductive RelaxedPiece : List Char → Char → Prop
  | raw {c : Char} (hq : c ≠ '"') (hb : c ≠ '\\') : RelaxedPiece [c] c
  | escape {e : Char} (h : e ≠ 'u') : RelaxedPiece ['\\', e] (escapedChar e)

inductive RelaxedNumber : List Char → Unknown → Prop
  | int {neg : Bool} {digits : List Char} {n : Int64} (h : Digits digits)
      (hn : n.toInt = signed neg (decimal digits)) : RelaxedNumber (minus neg ++ digits) (.i64 n)
  | frac {neg : Bool} {digits fraction : List Char} (h : Digits digits)
      (hf : ∀ c ∈ fraction, c.isDigit = true) :
      RelaxedNumber (minus neg ++ digits ++ '.' :: fraction)
        (.f64 (f64 (minus neg ++ digits ++ '.' :: fraction)))

def relaxed : Dialect := ⟨fun c => isWhitespace c = true, RelaxedPiece, RelaxedNumber f64⟩

theorem plain_le_relaxed : (plain f64).Le (relaxed f64) where
  ws := by
    rintro c (rfl | rfl | rfl | rfl) <;> rfl
  piece := by
    rintro text c (⟨hq, hb, _⟩ | ⟨h⟩)
    · exact .raw hq hb
    · simp only [escapes, List.mem_cons, List.not_mem_nil, or_false, Prod.mk.injEq] at h
      rcases h with ⟨rfl, rfl⟩ | ⟨rfl, rfl⟩ | ⟨rfl, rfl⟩ | ⟨rfl, rfl⟩ | ⟨rfl, rfl⟩ | ⟨rfl, rfl⟩ |
        ⟨rfl, rfl⟩ | ⟨rfl, rfl⟩ <;> exact RelaxedPiece.escape (by decide)
  number := by
    rintro text v (⟨h, hn⟩ | ⟨h, hf⟩)
    · exact .int h.1 hn
    · exact .frac h.1 hf.2

end Numbers

end IdEffect.Parse
