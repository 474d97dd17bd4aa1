import IdEffect.Schema.Agreement

set_option autoImplicit false

/-! # JSON values for schemas

`unknown_from_serde_json` turns the values of `serde_json` into dynamic input for `decodeUnknown`.
In the other direction wire values become JSON by their own `Serialize`, which knows nothing of the
schema. The two fit together where the JSON of a wire value is its image (`Depicts`): then the
fields of a struct, written under their names, are decoded like the wire value they were taken
from. -/

namespace IdEffect.Schema

/-! ## Values of `serde_json` -/

/-- Numbers without arbitrary precision. -/
inductive Number where
  | posInt (n : UInt64)
  | negInt (n : Int64)
  | float (x : Float)

/-- An object is the list of its entries in ascending key order. -/
inductive Value where
  | null
  | bool (b : Bool)
  | number (n : Number)
  | string (s : String)
  | array (items : List Value)
  | object (entries : List (String × Value))

namespace Number

def asI64 : Number → Option Int64
  | .posInt n => if n.toNat < 2 ^ 63 then some (.ofNat n.toNat) else none
  | .negInt n => some n
  | .float _ => none

def asU64 : Number → Option UInt64
  | .posInt n => some n
  | .negInt _ | .float _ => none

/-- There always is one. -/
def asF64 : Number → Float
  | .posInt n => n.toFloat
  | .negInt n => n.toFloat
  | .float x => x

/-- An unsigned number that is too large becomes the largest signed one. -/
def toUnknown (n : Number) : Unknown :=
  match n.asI64 with
  | some i => .i64 i
  | none =>
      match n.asU64 with
      | some u => .i64 (if u.toNat < 2 ^ 63 then .ofNat u.toNat else Int64.maxValue)
      | none => .f64 n.asF64

/-- `Number::from(i64)`. -/
def ofI64 (n : Int64) : Number := if 0 ≤ n then .posInt n.toUInt64 else .negInt n

end Number

mutual

def unknownFromSerdeJson : Value → Unknown
  | .null => .null
  | .bool b => .bool b
  | .number n => n.toUnknown
  | .string s => .string s
  | .array items => .array (unknownItems items)
  | .object entries => .object (unknownEntries entries)

def unknownItems : List Value → List Unknown
  | [] => []
  | item :: items => unknownFromSerdeJson item :: unknownItems items

def unknownEntries : List (String × Value) → List (String × Unknown)
  | [] => []
  | (k, v) :: entries => (k, unknownFromSerdeJson v) :: unknownEntries entries

end

theorem unknownEntries_eq (entries : List (String × Value)) :
    unknownEntries entries = entries.map fun p => (p.1, unknownFromSerdeJson p.2) := by
  induction entries with
  | nil => rfl
  | cons p entries ih =>
      obtain ⟨k, v⟩ := p
      rw [unknownEntries, ih, List.map_cons]

/-- The JSON object of some fields, as dynamic input. -/
theorem unknown_object_ofList (fields : List (String × Value)) :
    unknownFromSerdeJson (.object (Assoc.ofList fields))
      = .object (Assoc.ofList (fields.map fun p => (p.1, unknownFromSerdeJson p.2))) := by
  rw [unknownFromSerdeJson, unknownEntries_eq, Assoc.map_ofList]

/-- Signed numbers come back as they are. -/
theorem Number.toUnknown_ofI64 (n : Int64) : (Number.ofI64 n).toUnknown = .i64 n := by
  unfold ofI64
  split_ifs with hn
  · have hlt : n.toUInt64.toNat < 2 ^ 63 := by
      rw [Int64.toNat_toUInt64_of_le hn]
      exact n.toNatClampNeg_lt
    have hback : Int64.ofNat n.toUInt64.toNat = n := by
      apply Int64.toBitVec_inj.mp
      simp
    rw [toUnknown, asI64, if_pos hlt, hback]
  · rfl

/-! ## Wire values as JSON -/

/-- `serde::Serialize` of a type, by `serde_json::to_value`. -/
structure Serialize (A : Type) where
  toValue : A → Except String Value

namespace Serialize

variable {A A0 A1 A2 : Type}

def i64 : Serialize Int64 := ⟨fun n => .ok (.number (.ofI64 n))⟩

def string : Serialize String := ⟨fun s => .ok (.string s)⟩

def bool : Serialize Bool := ⟨fun b => .ok (.bool b)⟩

def option (s : Serialize A) : Serialize (Option A) where
  toValue
    | none => .ok .null
    | some a => s.toValue a

/-- Tuples are arrays. -/
def pair (s0 : Serialize A0) (s1 : Serialize A1) : Serialize (A0 × A1) where
  toValue a := do
    let v0 ← s0.toValue a.1
    let v1 ← s1.toValue a.2
    return .array [v0, v1]

end Serialize

variable {A B I I0 I1 I2 A0 A1 A2 : Type}

/-- The JSON of every wire value stands for it. -/
def Depicts (s : Serialize I) (e : Expr A I) : Prop :=
  ∀ i, ∃ v, s.toValue i = .ok v ∧ unknownFromSerdeJson v = e.image i

theorem depicts_i64 : Depicts .i64 .i64 := by
  intro n
  refine ⟨_, rfl, ?_⟩
  rw [unknownFromSerdeJson, Number.toUnknown_ofI64]
  rfl

theorem depicts_string : Depicts .string .string := fun s => ⟨.string s, rfl, rfl⟩

theorem Depicts.option {s : Serialize I} {e : Expr A I} (h : Depicts s e) :
    Depicts s.option (.optional e) := by
  intro i
  cases i with
  | none => exact ⟨.null, rfl, rfl⟩
  | some i => exact h i

theorem Depicts.filter {s : Serialize I} {e : Expr A I} (h : Depicts s e) (pred : A → Bool)
    (message : String) : Depicts s (.filter e pred message) := h

theorem Depicts.transform {s : Serialize I} {e : Expr A I} (h : Depicts s e)
    (decode : A → Outcome B) (encode : B → A) : Depicts s (.transform e decode encode) := h

/-- A tuple stands for itself; a struct would have to be an object. -/
theorem Depicts.pair {s0 : Serialize I0} {s1 : Serialize I1} {e0 : Expr A0 I0} {e1 : Expr A1 I1}
    (h0 : Depicts s0 e0) (h1 : Depicts s1 e1) : Depicts (s0.pair s1) (.tuple e0 e1) := by
  rintro ⟨i0, i1⟩
  obtain ⟨v0, hv0, himage0⟩ := h0 i0
  obtain ⟨v1, hv1, himage1⟩ := h1 i1
  refine ⟨.array [v0, v1], ?_, ?_⟩
  · simp only [Serialize.pair, hv0, hv1]
    rfl
  · simp only [unknownFromSerdeJson, unknownItems, himage0, himage1]
    rfl

end IdEffect.Schema
