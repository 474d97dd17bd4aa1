import IdEffect.Lib.Assoc
import Mathlib.Data.String.Basic

set_option autoImplicit false

/-! # Schemas: bidirectional codecs with path-aware errors

A `Schema` packs three closures: `decode` from a wire value, `encode` back to it, and
`decodeUnknown` from a dynamically structured value. The primitives and combinators below assemble
these closures one by one, as `schema/parse.rs` and `schema/extra.rs` do: every combinator writes
its two decoders separately, and both prefix the error of a part with the part's segment.

`Expr` is the syntax of the schemas built from them, nested to any depth; `Expr.schema` is the
schema such an expression builds. -/

namespace IdEffect

namespace Schema

/-! ## Errors and dynamic values -/

/-- A parse failure at a dot-separated path (empty at the root). -/
structure ParseError where
  path : String
  message : String
  deriving DecidableEq, Repr

/-- Put a parent segment before the path (`ParseError::prefix`). -/
def ParseError.withPrefix (e : ParseError) (segment : String) : ParseError :=
  { e with path := if e.path.isEmpty then segment else segment ++ "." ++ e.path }

def ParseError.prefixIndex (e : ParseError) (idx : ℕ) : ParseError :=
  e.withPrefix (toString idx)

/-- Dynamically structured input. An object is the list of its entries in ascending key order. -/
inductive Unknown where
  | null
  | bool (b : Bool)
  | i64 (n : Int64)
  | f64 (x : Float)
  | string (s : String)
  | array (items : List Unknown)
  | object (entries : List (String × Unknown))

abbrev Outcome (A : Type) : Type := Except ParseError A

/-- A failure somewhere inside the part called `segment`. -/
def Outcome.under {A : Type} (r : Outcome A) (segment : String) : Outcome A :=
  r.mapError (·.withPrefix segment)

theorem Outcome.bind_eq_ok {A B : Type} {r : Outcome A} {f : A → Outcome B} {b : B} :
    r >>= f = .ok b ↔ ∃ a, r = .ok a ∧ f a = .ok b := by
  cases r <;> simp [bind, Except.bind]

end Schema

/-- Semantic values `A`, wire values `I`. -/
structure Schema (A I : Type) where
  decode : I → Schema.Outcome A
  encode : A → I
  decodeUnknown : Schema.Unknown → Schema.Outcome A

namespace Schema

variable {A B I W A0 A1 A2 A3 I0 I1 I2 I3 : Type}

/-! ## Primitives and literals -/

def i64 : Schema Int64 Int64 where
  decode := .ok
  encode := id
  decodeUnknown
    | .i64 n => .ok n
    | .null => .error ⟨"", "expected i64, got null"⟩
    | _ => .error ⟨"", "expected i64"⟩

def string : Schema String String where
  decode := .ok
  encode := id
  decodeUnknown
    | .string s => .ok s
    | .null => .error ⟨"", "expected string, got null"⟩
    | _ => .error ⟨"", "expected string"⟩

def bool_ : Schema Bool Bool where
  decode := .ok
  encode := id
  decodeUnknown
    | .bool b => .ok b
    | .null => .error ⟨"", "expected bool, got null"⟩
    | _ => .error ⟨"", "expected bool"⟩

/-- A dynamic integer is promoted. -/
def f64 : Schema Float Float where
  decode := .ok
  encode := id
  decodeUnknown
    | .f64 x => .ok x
    | .i64 n => .ok n.toFloat
    | .null => .error ⟨"", "expected f64, got null"⟩
    | _ => .error ⟨"", "expected f64"⟩

/-- `debug` is the quoted rendering of a string in the message. -/
def literalString (debug : String → String) (s : String) : Schema String String where
  decode w := if w = s then .ok s else .error ⟨"", "expected literal " ++ debug s⟩
  encode := id
  decodeUnknown
    | .string t =>
        if t = s then .ok s else .error ⟨"", "expected literal string " ++ debug s⟩
    | .null => .error ⟨"", "expected literal string, got null"⟩
    | _ => .error ⟨"", "expected literal string " ++ debug s⟩

def literalI64 (n : Int64) : Schema Int64 Int64 where
  decode w := if w = n then .ok n else .error ⟨"", "expected literal " ++ toString n⟩
  encode := id
  decodeUnknown
    | .i64 x => if x = n then .ok n else .error ⟨"", "expected literal i64 " ++ toString n⟩
    | .null => .error ⟨"", "expected literal i64, got null"⟩
    | _ => .error ⟨"", "expected literal i64 " ++ toString n⟩

/-! ## Mapping and refining -/

/-- Map the decoded value, and back for encoding. -/
def transform (s : Schema A I) (decode : A → Outcome B) (encode : B → A) : Schema B I where
  decode i := s.decode i >>= decode
  encode b := s.encode (encode b)
  decodeUnknown u := s.decodeUnknown u >>= decode

/-- The value itself where `pred` holds of it. -/
def checked (pred : A → Bool) (message : String) (a : A) : Outcome A :=
  if pred a then .ok a else .error ⟨"", message⟩

def filter (s : Schema A I) (pred : A → Bool) (message : String) : Schema A I where
  decode i := s.decode i >>= checked pred message
  encode := s.encode
  decodeUnknown u := s.decodeUnknown u >>= checked pred message

def refine (s : Schema A I) (pred : A → Bool) (message : String) : Schema A I :=
  filter s pred message

def optional (s : Schema A I) : Schema (Option A) (Option I) where
  decode
    | none => .ok none
    | some i => some <$> s.decode i
  encode oa := oa.map s.encode
  decodeUnknown
    | .null => .ok none
    | other => some <$> s.decodeUnknown other

/-! ## Arrays -/

/-- The loop over the items of an array: `idx` counts them, `out` collects the decoded ones, and
    the first failure ends it. -/
def decodeItems (decode : W → Outcome A) : ℕ → List A → List W → Outcome (List A)
  | _, out, [] => .ok out
  | idx, out, item :: items =>
      match decode item with
      | .ok a => decodeItems decode (idx + 1) (out ++ [a]) items
      | .error e => .error (e.prefixIndex idx)

/-- One turn of the loop. -/
theorem decodeItems_cons (decode : W → Outcome A) (idx : ℕ) (out : List A) (item : W)
    (items : List W) :
    decodeItems decode idx out (item :: items)
      = Outcome.under (decode item) (toString idx) >>= fun a =>
          decodeItems decode (idx + 1) (out ++ [a]) items := by
  rw [decodeItems]
  cases decode item <;> rfl

def array (s : Schema A I) : Schema (List A) (List I) where
  decode items := decodeItems s.decode 0 [] items
  encode values := values.map s.encode
  decodeUnknown
    | .array items => decodeItems s.decodeUnknown 0 [] items
    | _ => .error ⟨"", "expected array"⟩

/-! ## Tuples -/

/-- Decode the parts in order, each under its segment. -/
def decode2 (n0 n1 : String) (d0 : I0 → Outcome A0) (d1 : I1 → Outcome A1) :
    I0 × I1 → Outcome (A0 × A1) :=
  fun (i0, i1) => do
    let a0 ← Outcome.under (d0 i0) n0
    let a1 ← Outcome.under (d1 i1) n1
    return (a0, a1)

def decode3 (n0 n1 n2 : String) (d0 : I0 → Outcome A0) (d1 : I1 → Outcome A1)
    (d2 : I2 → Outcome A2) : I0 × I1 × I2 → Outcome (A0 × A1 × A2) :=
  fun (i0, i1, i2) => do
    let a0 ← Outcome.under (d0 i0) n0
    let a1 ← Outcome.under (d1 i1) n1
    let a2 ← Outcome.under (d2 i2) n2
    return (a0, a1, a2)

def decode4 (n0 n1 n2 n3 : String) (d0 : I0 → Outcome A0) (d1 : I1 → Outcome A1)
    (d2 : I2 → Outcome A2) (d3 : I3 → Outcome A3) :
    I0 × I1 × I2 × I3 → Outcome (A0 × A1 × A2 × A3) :=
  fun (i0, i1, i2, i3) => do
    let a0 ← Outcome.under (d0 i0) n0
    let a1 ← Outcome.under (d1 i1) n1
    let a2 ← Outcome.under (d2 i2) n2
    let a3 ← Outcome.under (d3 i3) n3
    return (a0, a1, a2, a3)

def tuple (s0 : Schema A0 I0) (s1 : Schema A1 I1) : Schema (A0 × A1) (I0 × I1) where
  decode := decode2 "0" "1" s0.decode s1.decode
  encode := fun (a0, a1) => (s0.encode a0, s1.encode a1)
  decodeUnknown
    | .array [u0, u1] => decode2 "0" "1" s0.decodeUnknown s1.decodeUnknown (u0, u1)
    | _ => .error ⟨"", "expected array of length 2"⟩

def tuple3 (s0 : Schema A0 I0) (s1 : Schema A1 I1) (s2 : Schema A2 I2) :
    Schema (A0 × A1 × A2) (I0 × I1 × I2) where
  decode := decode3 "0" "1" "2" s0.decode s1.decode s2.decode
  encode := fun (a0, a1, a2) => (s0.encode a0, s1.encode a1, s2.encode a2)
  decodeUnknown
    | .array [u0, u1, u2] =>
        decode3 "0" "1" "2" s0.decodeUnknown s1.decodeUnknown s2.decodeUnknown (u0, u1, u2)
    | _ => .error ⟨"", "expected array of length 3"⟩

def tuple4 (s0 : Schema A0 I0) (s1 : Schema A1 I1) (s2 : Schema A2 I2) (s3 : Schema A3 I3) :
    Schema (A0 × A1 × A2 × A3) (I0 × I1 × I2 × I3) where
  decode := decode4 "0" "1" "2" "3" s0.decode s1.decode s2.decode s3.decode
  encode := fun (a0, a1, a2, a3) => (s0.encode a0, s1.encode a1, s2.encode a2, s3.encode a3)
  decodeUnknown
    | .array [u0, u1, u2, u3] =>
        decode4 "0" "1" "2" "3" s0.decodeUnknown s1.decodeUnknown s2.decodeUnknown
          s3.decodeUnknown (u0, u1, u2, u3)
    | _ => .error ⟨"", "expected array of length 4"⟩

/-! ## Structs -/

/-- A named field of an object. -/
def field (s : Schema A I) (obj : List (String × Unknown)) (name : String) : Outcome A :=
  match Assoc.get name obj with
  | none => .error ⟨name, "missing field " ++ name⟩
  | some u => Outcome.under (s.decodeUnknown u) name

def struct_ (name0 : String) (s0 : Schema A0 I0) (name1 : String) (s1 : Schema A1 I1) :
    Schema (A0 × A1) (I0 × I1) where
  decode := decode2 name0 name1 s0.decode s1.decode
  encode := fun (a0, a1) => (s0.encode a0, s1.encode a1)
  decodeUnknown
    | .object obj => do
        let a0 ← field s0 obj name0
        let a1 ← field s1 obj name1
        return (a0, a1)
    | _ => .error ⟨"", "expected object"⟩

def struct3 (name0 : String) (s0 : Schema A0 I0) (name1 : String) (s1 : Schema A1 I1)
    (name2 : String) (s2 : Schema A2 I2) : Schema (A0 × A1 × A2) (I0 × I1 × I2) where
  decode := decode3 name0 name1 name2 s0.decode s1.decode s2.decode
  encode := fun (a0, a1, a2) => (s0.encode a0, s1.encode a1, s2.encode a2)
  decodeUnknown
    | .object obj => do
        let a0 ← field s0 obj name0
        let a1 ← field s1 obj name1
        let a2 ← field s2 obj name2
        return (a0, a1, a2)
    | _ => .error ⟨"", "expected object"⟩

def struct4 (name0 : String) (s0 : Schema A0 I0) (name1 : String) (s1 : Schema A1 I1)
    (name2 : String) (s2 : Schema A2 I2) (name3 : String) (s3 : Schema A3 I3) :
    Schema (A0 × A1 × A2 × A3) (I0 × I1 × I2 × I3) where
  decode := decode4 name0 name1 name2 name3 s0.decode s1.decode s2.decode s3.decode
  encode := fun (a0, a1, a2, a3) => (s0.encode a0, s1.encode a1, s2.encode a2, s3.encode a3)
  decodeUnknown
    | .object obj => do
        let a0 ← field s0 obj name0
        let a1 ← field s1 obj name1
        let a2 ← field s2 obj name2
        let a3 ← field s3 obj name3
        return (a0, a1, a2, a3)
    | _ => .error ⟨"", "expected object"⟩

/-! ## Records -/

/-- The loop over the entries of a map in key order: `out` collects the decoded ones, and the first
    failure ends it. -/
def decodeEntries (decode : W → Outcome A) :
    Assoc.Map String A → List (String × W) → Outcome (Assoc.Map String A)
  | out, [] => .ok out
  | out, (k, w) :: l => do
      let a ← Outcome.under (decode w) k
      decodeEntries decode (out.insert k a) l

def record (value : Schema A I) : Schema (Assoc.Map String A) (Assoc.Map String I) where
  decode m := decodeEntries value.decode .empty m.entries
  encode m := .ofList (m.entries.map fun (k, a) => (k, value.encode a))
  decodeUnknown
    | .object obj => decodeEntries value.decodeUnknown .empty obj
    | _ => .error ⟨"", "expected object for record"⟩

/-! ## Suspended schemas -/

/-- The cell of a suspended schema, and how often its thunk has been called. -/
structure Cell (A I : Type) where
  schema : Option (Schema A I)
  calls : ℕ

def Cell.empty : Cell A I := ⟨none, 0⟩

/-- The schema in the cell; an empty one is filled by calling the thunk. The thunk may answer
    differently each time: `thunk n` is its answer to the call after `n` others. -/
def Cell.getOrInit (thunk : ℕ → Schema A I) (c : Cell A I) : Schema A I × Cell A I :=
  match c.schema with
  | some s => (s, c)
  | none => (thunk c.calls, ⟨some (thunk c.calls), c.calls + 1⟩)

/-- The cell after `n` uses of the schema. -/
def Cell.after (thunk : ℕ → Schema A I) : ℕ → Cell A I
  | 0 => .empty
  | n + 1 => ((Cell.after thunk n).getOrInit thunk).2

/-- After the first use the cell holds what the thunk built then, and the thunk is not called
    again. -/
theorem Cell.after_succ (thunk : ℕ → Schema A I) (n : ℕ) :
    Cell.after thunk (n + 1) = ⟨some (thunk 0), 1⟩ := by
  induction n with
  | zero => rfl
  | succ n ih => rw [Cell.after, ih, getOrInit]

/-- **Every use of a suspended schema is answered by the thunk's first result.** -/
theorem Cell.getOrInit_after (thunk : ℕ → Schema A I) (n : ℕ) :
    ((Cell.after thunk n).getOrInit thunk).1 = thunk 0 := by
  induction n with
  | zero => rfl
  | succ n _ => rw [Cell.after_succ, getOrInit]

/-- A lazy schema. Its three closures share one cell, whose content does not depend on which of
    them was used before (`Cell.getOrInit_after`), so each is written for the cell of a first use. A
    schema that reaches itself through `suspend` does so with its own wire type, hence with its own
    input, and never answers. -/
def suspend (thunk : ℕ → Schema A I) : Schema A I where
  decode i := (Cell.empty.getOrInit thunk).1.decode i
  encode a := (Cell.empty.getOrInit thunk).1.encode a
  decodeUnknown u := (Cell.empty.getOrInit thunk).1.decodeUnknown u

/-! ## Schema expressions -/

/-- The schemas built from the primitives and the combinators, nested to any depth. -/
inductive Expr : Type → Type → Type 1
  | i64 : Expr Int64 Int64
  | string : Expr String String
  | bool_ : Expr Bool Bool
  | f64 : Expr Float Float
  | literalString (debug : String → String) (s : String) : Expr String String
  | literalI64 (n : Int64) : Expr Int64 Int64
  | transform {A B I : Type} (e : Expr A I) (decode : A → Outcome B) (encode : B → A) : Expr B I
  | filter {A I : Type} (e : Expr A I) (pred : A → Bool) (message : String) : Expr A I
  | refine {A I : Type} (e : Expr A I) (pred : A → Bool) (message : String) : Expr A I
  | optional {A I : Type} (e : Expr A I) : Expr (Option A) (Option I)
  | array {A I : Type} (e : Expr A I) : Expr (List A) (List I)
  | tuple {A0 A1 I0 I1 : Type} (e0 : Expr A0 I0) (e1 : Expr A1 I1) : Expr (A0 × A1) (I0 × I1)
  | tuple3 {A0 A1 A2 I0 I1 I2 : Type} (e0 : Expr A0 I0) (e1 : Expr A1 I1) (e2 : Expr A2 I2) :
      Expr (A0 × A1 × A2) (I0 × I1 × I2)
  | tuple4 {A0 A1 A2 A3 I0 I1 I2 I3 : Type} (e0 : Expr A0 I0) (e1 : Expr A1 I1) (e2 : Expr A2 I2)
      (e3 : Expr A3 I3) : Expr (A0 × A1 × A2 × A3) (I0 × I1 × I2 × I3)
  | struct_ {A0 A1 I0 I1 : Type} (name0 : String) (e0 : Expr A0 I0) (name1 : String)
      (e1 : Expr A1 I1) : Expr (A0 × A1) (I0 × I1)
  | struct3 {A0 A1 A2 I0 I1 I2 : Type} (name0 : String) (e0 : Expr A0 I0) (name1 : String)
      (e1 : Expr A1 I1) (name2 : String) (e2 : Expr A2 I2) :
      Expr (A0 × A1 × A2) (I0 × I1 × I2)
  | struct4 {A0 A1 A2 A3 I0 I1 I2 I3 : Type} (name0 : String) (e0 : Expr A0 I0) (name1 : String)
      (e1 : Expr A1 I1) (name2 : String) (e2 : Expr A2 I2) (name3 : String) (e3 : Expr A3 I3) :
      Expr (A0 × A1 × A2 × A3) (I0 × I1 × I2 × I3)
  | record {A I : Type} (e : Expr A I) : Expr (Assoc.Map String A) (Assoc.Map String I)
  | suspend {A I : Type} (thunk : ℕ → Expr A I) : Expr A I

/-- The schema an expression builds. -/
def Expr.schema {A I : Type} : Expr A I → Schema A I
  | .i64 => Schema.i64
  | .string => Schema.string
  | .bool_ => Schema.bool_
  | .f64 => Schema.f64
  | .literalString debug s => Schema.literalString debug s
  | .literalI64 n => Schema.literalI64 n
  | .transform e decode encode => Schema.transform e.schema decode encode
  | .filter e pred message => Schema.filter e.schema pred message
  | .refine e pred message => Schema.refine e.schema pred message
  | .optional e => Schema.optional e.schema
  | .array e => Schema.array e.schema
  | .tuple e0 e1 => Schema.tuple e0.schema e1.schema
  | .tuple3 e0 e1 e2 => Schema.tuple3 e0.schema e1.schema e2.schema
  | .tuple4 e0 e1 e2 e3 => Schema.tuple4 e0.schema e1.schema e2.schema e3.schema
  | .struct_ name0 e0 name1 e1 => Schema.struct_ name0 e0.schema name1 e1.schema
  | .struct3 name0 e0 name1 e1 name2 e2 =>
      Schema.struct3 name0 e0.schema name1 e1.schema name2 e2.schema
  | .struct4 name0 e0 name1 e1 name2 e2 name3 e3 =>
      Schema.struct4 name0 e0.schema name1 e1.schema name2 e2.schema name3 e3.schema
  | .record e => Schema.record e.schema
  | .suspend thunk => Schema.suspend fun n => (thunk n).schema

end Schema

end IdEffect
