import IdEffect.Lib.Serde
import IdEffect.Schema.SerdeBridge

set_option autoImplicit false

/-! # What goes over the wire of an RPC

A request names a method by its tag and carries the payload; a response carries the value, or the
envelope of an error. Both are JSON objects, whose fields are those of the derived `Serialize` and
`Deserialize`. Payloads and values are JSON objects too, made of the parts of a wire tuple under a
list of field names and decoded by a schema (`Travels`). -/

namespace IdEffect.Rpc

open Schema

/-! ## Errors and messages -/

inductive RpcErrorCode where
  | invalidArgument
  | notFound
  | alreadyExists
  | unauthenticated
  | internal
  deriving DecidableEq, Repr

structure RpcEnvelope where
  code : RpcErrorCode
  message : String
  correlationId : Option String
  details : Option Value

/-- A status code is its number. -/
structure RpcError where
  status : ℕ
  envelope : RpcEnvelope

namespace RpcError

def invalidArgument (message : String) : RpcError := ⟨400, ⟨.invalidArgument, message, none, none⟩⟩

def notFound (message : String) : RpcError := ⟨404, ⟨.notFound, message, none, none⟩⟩

def alreadyExists (message : String) : RpcError := ⟨409, ⟨.alreadyExists, message, none, none⟩⟩

def unauthenticated (message : String) : RpcError := ⟨401, ⟨.unauthenticated, message, none, none⟩⟩

def internal (message : String) : RpcError := ⟨500, ⟨.internal, message, none, none⟩⟩

def withCorrelationId (err : RpcError) (id : String) : RpcError :=
  { err with envelope := { err.envelope with correlationId := some id } }

end RpcError

structure RpcWireRequest where
  tag : String
  payload : Value

inductive RpcWireResponse where
  | success (tag : String) (success : Value)
  | failure (tag : String) (failure : RpcEnvelope)

/-! ## Their JSON -/

/-- A field that has to be there. -/
def required (name : String) (entries : List (String × Value)) : Except String Value :=
  match Assoc.get name entries with
  | some v => .ok v
  | none => .error ("missing field `" ++ name ++ "`")

def asString : Value → Except String String
  | .string s => .ok s
  | _ => .error "invalid type, expected a string"

def asObject : Value → Except String (List (String × Value))
  | .object entries => .ok entries
  | _ => .error "invalid type, expected a struct"

/-- A field that may be missing or null. -/
def optionalField {A : Type} (name : String) (decode : Value → Except String A)
    (entries : List (String × Value)) : Except String (Option A) :=
  match Assoc.get name entries with
  | none | some .null => .ok none
  | some v => some <$> decode v

namespace RpcErrorCode

/-- The name in snake case. -/
def name : RpcErrorCode → String
  | .invalidArgument => "invalid_argument"
  | .notFound => "not_found"
  | .alreadyExists => "already_exists"
  | .unauthenticated => "unauthenticated"
  | .internal => "internal"

def serde : Serde RpcErrorCode Value where
  encode code := .ok (.string code.name)
  decode v := do
    match ← asString v with
    | "invalid_argument" => return .invalidArgument
    | "not_found" => return .notFound
    | "already_exists" => return .alreadyExists
    | "unauthenticated" => return .unauthenticated
    | "internal" => return .internal
    | other => .error ("unknown variant `" ++ other ++ "`")

theorem serde_roundTrips (code : RpcErrorCode) : serde.RoundTrips code := by
  refine ⟨_, rfl, ?_⟩
  cases code with
  | invalidArgument => rfl
  | notFound => rfl
  | alreadyExists => rfl
  | unauthenticated => rfl
  | internal => rfl

end RpcErrorCode

namespace RpcEnvelope

/-- An optional field that is not there is skipped. -/
def serde : Serde RpcEnvelope Value where
  encode env := .ok (.object (Assoc.ofList
    ([("code", .string env.code.name), ("message", .string env.message)]
      ++ (env.correlationId.map fun id => ("correlation_id", Value.string id)).toList
      ++ (env.details.map fun details => ("details", details)).toList)))
  decode v := do
    let entries ← asObject v
    let code ← required "code" entries >>= RpcErrorCode.serde.decode
    let message ← required "message" entries >>= asString
    let correlationId ← optionalField "correlation_id" asString entries
    let details ← optionalField "details" .ok entries
    return ⟨code, message, correlationId, details⟩

end RpcEnvelope

def RpcWireRequest.serde : Serde RpcWireRequest Value where
  encode req := .ok (.object (Assoc.ofList [("tag", .string req.tag), ("payload", req.payload)]))
  decode v := do
    let entries ← asObject v
    let tag ← required "tag" entries >>= asString
    let payload ← required "payload" entries
    return ⟨tag, payload⟩

/-- The variant is a field beside the others. -/
def RpcWireResponse.serde : Serde RpcWireResponse Value where
  encode
    | .success tag value => .ok (.object (Assoc.ofList
        [("kind", .string "success"), ("tag", .string tag), ("success", value)]))
    | .failure tag env => do
        let envelope ← RpcEnvelope.serde.encode env
        return .object (Assoc.ofList
          [("kind", .string "failure"), ("tag", .string tag), ("failure", envelope)])
  decode v := do
    let entries ← asObject v
    match ← required "kind" entries >>= asString with
    | "success" =>
        let tag ← required "tag" entries >>= asString
        let value ← required "success" entries
        return .success tag value
    | "failure" =>
        let tag ← required "tag" entries >>= asString
        let env ← required "failure" entries >>= RpcEnvelope.serde.decode
        return .failure tag env
    | other => .error ("unknown variant `" ++ other ++ "`")

/-! ### Reading back what was written -/

theorem RpcWireRequest.serde_roundTrips (req : RpcWireRequest) : serde.RoundTrips req := by
  refine ⟨_, rfl, ?_⟩
  simp [serde, asObject, required, Assoc.ofList, Assoc.get_insert, asString, bind, Except.bind,
    pure, Except.pure]

theorem RpcWireResponse.serde_roundTrips_success (tag : String) (value : Value) :
    serde.RoundTrips (.success tag value) := by
  refine ⟨_, rfl, ?_⟩
  simp [serde, asObject, required, Assoc.ofList, Assoc.get_insert, asString, bind, Except.bind,
    pure, Except.pure]

namespace RpcEnvelope

theorem optionalField_string {name : String} {id : Option String} {entries : List (String × Value)}
    (h : Assoc.get name entries = id.map Value.string) :
    optionalField name asString entries = .ok id := by
  rw [optionalField, h]
  cases id with
  | none => rfl
  | some id => rfl

theorem optionalField_value (name : String) (entries : List (String × Value)) :
    ∃ details, optionalField name .ok entries = .ok details := by
  unfold optionalField
  split
  · exact ⟨none, rfl⟩
  · exact ⟨none, rfl⟩
  · exact ⟨_, rfl⟩

/-- An object with the fields of an envelope is read as the envelope, up to its details. -/
theorem decode_object {env : RpcEnvelope} {entries : List (String × Value)}
    (hcode : Assoc.get "code" entries = some (.string env.code.name))
    (hmessage : Assoc.get "message" entries = some (.string env.message))
    (hid : Assoc.get "correlation_id" entries = env.correlationId.map Value.string) :
    ∃ details, serde.decode (.object entries) = .ok { env with details := details } := by
  obtain ⟨details, hdetails⟩ := optionalField_value "details" entries
  obtain ⟨v, hv, hback⟩ := RpcErrorCode.serde_roundTrips env.code
  cases hv
  refine ⟨details, ?_⟩
  simp only [serde, asObject, required, hcode, hmessage, optionalField_string hid, hdetails, bind,
    Except.bind, hback]
  rfl

/-- Details that are null are read as none; the rest of an envelope is read as it was. -/
theorem serde_decode (env : RpcEnvelope) :
    ∃ v details, serde.encode env = .ok v
      ∧ serde.decode v = .ok { env with details := details } := by
  have hread : ∃ details, serde.decode (.object (Assoc.ofList
      ([("code", .string env.code.name), ("message", .string env.message)]
        ++ (env.correlationId.map fun id => ("correlation_id", Value.string id)).toList
        ++ (env.details.map fun details => ("details", details)).toList)))
      = .ok { env with details := details } := by
    apply decode_object
    all_goals
      cases env.correlationId <;> cases env.details <;> simp [Assoc.ofList, Assoc.get_insert]
  obtain ⟨details, hdetails⟩ := hread
  exact ⟨_, details, rfl, hdetails⟩

end RpcEnvelope

/-- The envelope of a failure is read with its code, its message and its correlation id. -/
theorem RpcWireResponse.decode_failure (tag : String) (env : RpcEnvelope) :
    ∃ v details, serde.encode (.failure tag env) = .ok v
      ∧ serde.decode v = .ok (.failure tag { env with details := details }) := by
  obtain ⟨envelope, details, hencode, hdecode⟩ := env.serde_decode
  have hwire : serde.encode (.failure tag env) = .ok (.object (Assoc.ofList
      [("kind", .string "failure"), ("tag", .string tag), ("failure", envelope)])) := by
    simp only [serde, hencode]
    rfl
  refine ⟨_, details, hwire, ?_⟩
  simp [serde, asObject, required, Assoc.ofList, Assoc.get_insert, asString, bind, Except.bind,
    pure, Except.pure, hdecode]

/-! ## Payloads and values -/

inductive RpcSerializationError where
  | json (message : String)
  | schema (path message : String)
  | protocol (message : String)
  deriving DecidableEq, Repr

/-- A wire tuple as a JSON object under field names. -/
structure StructWireJson (I : Type) where
  toJsonObject : I → List String → Except String Value

namespace StructWireJson

variable {A0 A1 A2 : Type}

def unit : StructWireJson Unit where
  toJsonObject _ fieldNames :=
    if fieldNames.isEmpty then .ok (.object [])
    else .error "unit wire cannot map to named fields"

def string : StructWireJson String where
  toJsonObject s fieldNames :=
    match fieldNames with
    | [one] => .ok (.object [(one, .string s)])
    | _ => .error ("expected one field name for String wire, got " ++ toString fieldNames.length)

def pair (s0 : Serialize A0) (s1 : Serialize A1) : StructWireJson (A0 × A1) where
  toJsonObject a fieldNames :=
    match fieldNames with
    | [n0, n1] => do
        let v0 ← s0.toValue a.1
        let v1 ← s1.toValue a.2
        return .object (Assoc.ofList [(n0, v0), (n1, v1)])
    | _ => .error ("expected two field names for pair wire, got " ++ toString fieldNames.length)

def triple (s0 : Serialize A0) (s1 : Serialize A1) (s2 : Serialize A2) :
    StructWireJson (A0 × A1 × A2) where
  toJsonObject a fieldNames :=
    match fieldNames with
    | [n0, n1, n2] => do
        let v0 ← s0.toValue a.1
        let v1 ← s1.toValue a.2.1
        let v2 ← s2.toValue a.2.2
        return .object (Assoc.ofList [(n0, v0), (n1, v1), (n2, v2)])
    | _ => .error ("expected three field names for triple wire, got " ++ toString fieldNames.length)

end StructWireJson

section Payloads

variable {A I : Type}

def decodePayload (schema : Schema A I) (payload : Value) : Except RpcSerializationError A :=
  (schema.decodeUnknown (unknownFromSerdeJson payload)).mapError fun p => .schema p.path p.message

def encodeStructFields (schema : Schema A I) (wire : StructWireJson I) (fieldNames : List String)
    (value : A) : Except RpcSerializationError Value :=
  (wire.toJsonObject (schema.encode value) fieldNames).mapError .json

def validateSuccessJson (schema : Schema A I) (success : Value) : Except RpcSerializationError A :=
  decodePayload schema success

def serializationToRpcError : RpcSerializationError → RpcError
  | .json msg => .invalidArgument msg
  | .schema path message => .invalidArgument (path ++ ": " ++ message)
  | .protocol msg => .invalidArgument msg

def rpcErrorToWire (tag : String) (err : RpcError) : RpcWireResponse := .failure tag err.envelope

def successWire (tag : String) (schema : Schema A I) (wire : StructWireJson I)
    (fieldNames : List String) (value : A) : Except RpcSerializationError RpcWireResponse := do
  let success ← encodeStructFields schema wire fieldNames value
  return .success tag success

/-- The field names match the schema on the wire value of `value`: the object they make of it is
    decoded like the wire value itself. And the schema round-trips: it decodes that wire value to
    `value`. -/
structure Travels (schema : Schema A I) (wire : StructWireJson I) (fieldNames : List String)
    (value : A) : Prop where
  fields : ∃ json, wire.toJsonObject (schema.encode value) fieldNames = .ok json
    ∧ Agree (schema.decodeUnknown (unknownFromSerdeJson json)) (schema.decode (schema.encode value))
  roundTrip : schema.decode (schema.encode value) = .ok value

variable {schema : Schema A I} {wire : StructWireJson I} {fieldNames : List String} {value : A}

/-- A value that travels arrives. -/
theorem Travels.arrives (h : Travels schema wire fieldNames value) :
    ∃ json, encodeStructFields schema wire fieldNames value = .ok json
      ∧ decodePayload schema json = .ok value := by
  obtain ⟨⟨json, hjson, hagree⟩, hroundTrip⟩ := h
  refine ⟨json, ?_, ?_⟩
  · rw [encodeStructFields, hjson]
    rfl
  · rw [hroundTrip] at hagree
    unfold decodePayload
    cases hdecoded : schema.decodeUnknown (unknownFromSerdeJson json) with
    | ok arrived =>
        rw [hdecoded] at hagree
        exact congrArg Except.ok hagree
    | error err =>
        rw [hdecoded] at hagree
        cases hagree

end Payloads

/-- **Pairs under their own field names travel.** The parts are serialized as the schema wants them,
    the names of all structs are distinct, and no part under an `optional` stands for null. -/
theorem travels_struct {A0 A1 I0 I1 : Type} {s0 : Serialize I0} {s1 : Serialize I1}
    {e0 : Expr A0 I0} {e1 : Expr A1 I1} {name0 name1 : String} (h0 : Depicts s0 e0)
    (h1 : Depicts s1 e1) (hd : (Expr.struct_ name0 e0 name1 e1).DistinctFields)
    (hn : (Expr.struct_ name0 e0 name1 e1).EachOptional NeverNull) {value : A0 × A1}
    (hvalue : (Expr.struct_ name0 e0 name1 e1).schema.decode
      ((Expr.struct_ name0 e0 name1 e1).schema.encode value) = .ok value) :
    Travels (Expr.struct_ name0 e0 name1 e1).schema (.pair s0 s1) [name0, name1] value := by
  refine ⟨?_, hvalue⟩
  generalize (Expr.struct_ name0 e0 name1 e1).schema.encode value = i
  obtain ⟨v0, hv0, himage0⟩ := h0 i.1
  obtain ⟨v1, hv1, himage1⟩ := h1 i.2
  refine ⟨.object (Assoc.ofList [(name0, v0), (name1, v1)]), ?_, ?_⟩
  · simp only [StructWireJson.pair, hv0, hv1]
    rfl
  · have himage : unknownFromSerdeJson (.object (Assoc.ofList [(name0, v0), (name1, v1)]))
        = (Expr.struct_ name0 e0 name1 e1).image i := by
      rw [unknown_object_ofList, List.map_cons, List.map_cons, List.map_nil, himage0, himage1]
      rfl
    rw [himage]
    exact Expr.decodeUnknown_image _ hd hn i

end IdEffect.Rpc
