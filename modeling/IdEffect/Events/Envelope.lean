import IdEffect.Schema.SerdeBridge

set_option autoImplicit false

/-! # Event envelopes on the wire: `envelope.rs`

The payload of an envelope goes through JSON by its schema, and the metadata beside it as it is.
Only the `decode` of `envelope_schema` sends the version through a signed integer, and back
(`version_castings`). Its `decode_unknown` takes the payload alone: an envelope read that way has no
metadata (`decodeUnknown_metadata`). -/

namespace IdEffect.Envelope

open Schema (Unknown Value ParseError Outcome unknownFromSerdeJson)

variable {A I E : Type}

structure EventEnvelope (E : Type) where
  eventId : String
  streamId : String
  version : UInt64
  occurredAtMs : Int64
  eventType : String
  payload : E

structure WireEventEnvelope where
  eventId : String
  streamId : String
  version : UInt64
  occurredAtMs : Int64
  eventType : String
  payload : Value

/-- The schema of a payload, and how its wire values become JSON. -/
structure PayloadSchema (A I : Type) where
  schema : Schema A I
  serialize : Schema.Serialize I

/-- Decoding the JSON of an encoded payload gives the payload. -/
def PayloadSchema.RoundTrips (s : PayloadSchema A I) : Prop :=
  ∀ a, ∃ v, s.serialize.toValue (s.schema.encode a) = .ok v
    ∧ s.schema.decodeUnknown (unknownFromSerdeJson v) = .ok a

def envelopeToWire (s : PayloadSchema A I) (env : EventEnvelope A) : Outcome WireEventEnvelope :=
  match s.serialize.toValue (s.schema.encode env.payload) with
  | .error e => .error ⟨"", e⟩
  | .ok payload =>
      .ok
        { eventId := env.eventId
          streamId := env.streamId
          version := env.version
          occurredAtMs := env.occurredAtMs
          eventType := env.eventType
          payload }

def envelopeFromWire (s : PayloadSchema A I) (wire : WireEventEnvelope) :
    Outcome (EventEnvelope A) := do
  let payload ← s.schema.decodeUnknown (unknownFromSerdeJson wire.payload)
  return { eventId := wire.eventId
           streamId := wire.streamId
           version := wire.version
           occurredAtMs := wire.occurredAtMs
           eventType := wire.eventType
           payload }

/-- The four fields that are decoded before the payload. -/
def «meta» : Schema (String × String × Int64 × Int64) (String × String × Int64 × Int64) :=
  Schema.struct4 "event_id" Schema.string "stream_id" Schema.string "version" Schema.i64
    "occurred_at_ms" Schema.i64

def envelopeSchema (s : PayloadSchema A I) : Schema (EventEnvelope A) WireEventEnvelope where
  decode wire := do
    let (eventId, streamId, version, occurredAtMs) ←
      «meta».decode (wire.eventId, wire.streamId, wire.version.toInt64, wire.occurredAtMs)
    let payload ← s.schema.decodeUnknown (unknownFromSerdeJson wire.payload)
    return { eventId
             streamId
             version := version.toUInt64
             occurredAtMs
             eventType := wire.eventType
             payload }
  encode env :=
    { eventId := env.eventId
      streamId := env.streamId
      version := env.version
      occurredAtMs := env.occurredAtMs
      eventType := env.eventType
      -- `unwrap_or(Value::Null)`
      payload := (s.serialize.toValue (s.schema.encode env.payload)).toOption.getD .null }
  decodeUnknown unknown := do
    let payload ← s.schema.decodeUnknown unknown
    return { eventId := ""
             streamId := ""
             version := 0
             occurredAtMs := 0
             eventType := ""
             payload }

/-- The derived `Serialize`. -/
def WireEventEnvelope.toValue (wire : WireEventEnvelope) : Value :=
  .object (Assoc.ofList
    [("event_id", .string wire.eventId), ("stream_id", .string wire.streamId),
      ("version", .number (.posInt wire.version)),
      ("occurred_at_ms", .number (.ofI64 wire.occurredAtMs)),
      ("event_type", .string wire.eventType), ("payload", wire.payload)])

/-! ## Round trips -/

/-- The version is cast to a signed number and back, bit by bit. -/
theorem version_castings (version : UInt64) : version.toInt64.toUInt64 = version := by
  simp

theorem decode_meta (eventId streamId : String) (version occurredAtMs : Int64) :
    «meta».decode (eventId, streamId, version, occurredAtMs)
      = .ok (eventId, streamId, version, occurredAtMs) := by
  rfl

section Laws

variable {s : PayloadSchema A I} {env : EventEnvelope A} {v : Value}

/-- Both encoders, once the payload has been serialized. -/
theorem envelopeToWire_ok (h : s.serialize.toValue (s.schema.encode env.payload) = .ok v) :
    envelopeToWire s env = .ok ((envelopeSchema s).encode env) := by
  simp only [envelopeToWire, envelopeSchema, h]
  rfl

/-- The two decoders of wire values are one, for all wire values. -/
theorem decode_eq_fromWire (s : PayloadSchema A I) (wire : WireEventEnvelope) :
    (envelopeSchema s).decode wire = envelopeFromWire s wire := by
  simp only [envelopeSchema, decode_meta, envelopeFromWire, bind, Except.bind, version_castings]

theorem fromWire_encode (h : s.serialize.toValue (s.schema.encode env.payload) = .ok v)
    (hv : s.schema.decodeUnknown (unknownFromSerdeJson v) = .ok env.payload) :
    envelopeFromWire s ((envelopeSchema s).encode env) = .ok env := by
  simp only [envelopeFromWire, envelopeSchema, h, Except.toOption, Option.getD_some, hv, bind,
    Except.bind, pure, Except.pure]

/-- Whatever is read without a schema of the metadata has none. -/
theorem decodeUnknown_metadata {u : Unknown} (h : (envelopeSchema s).decodeUnknown u = .ok env) :
    env = ⟨"", "", 0, 0, "", env.payload⟩ ∧ s.schema.decodeUnknown u = .ok env.payload := by
  obtain ⟨payload, hpayload, hok⟩ := Schema.Outcome.bind_eq_ok.mp h
  obtain rfl := Except.ok.inj hok
  exact ⟨rfl, hpayload⟩

/-- An envelope survives the wire on every path that has its metadata, and the payload on the path
    that has not. -/
theorem envelope_survives (h : s.RoundTrips) (env : EventEnvelope A) :
    ∃ wire, envelopeToWire s env = .ok wire ∧ (envelopeSchema s).encode env = wire
      ∧ envelopeFromWire s wire = .ok env ∧ (envelopeSchema s).decode wire = .ok env
      ∧ (envelopeSchema s).decodeUnknown (unknownFromSerdeJson wire.payload)
          = .ok ⟨"", "", 0, 0, "", env.payload⟩ := by
  obtain ⟨v, hv, hback⟩ := h env.payload
  have hpayload : ((envelopeSchema s).encode env).payload = v := by
    simp only [envelopeSchema, hv, Except.toOption, Option.getD_some]
  refine ⟨_, envelopeToWire_ok hv, rfl, fromWire_encode hv hback, ?_, ?_⟩
  · rw [decode_eq_fromWire, fromWire_encode hv hback]
  · rw [hpayload]
    simp only [envelopeSchema, hback, bind, Except.bind, pure, Except.pure]

end Laws

/-- The payload of a counter: a number. -/
def counterIncreased : PayloadSchema Int64 Int64 := ⟨Schema.i64, .i64⟩

theorem counterIncreased_roundTrips : counterIncreased.RoundTrips := by
  intro n
  refine ⟨_, rfl, ?_⟩
  rw [unknownFromSerdeJson, Schema.Number.toUnknown_ofI64]
  rfl

/-- The largest version, and the earliest time. -/
def lastEnvelope : EventEnvelope Int64 :=
  ⟨"evt", "acct-1", 18446744073709551615, -9223372036854775808, "CounterIncreased", -5⟩

theorem envelope_survives_last :
    ∃ wire, envelopeToWire counterIncreased lastEnvelope = .ok wire
      ∧ (envelopeSchema counterIncreased).encode lastEnvelope = wire
      ∧ envelopeFromWire counterIncreased wire = .ok lastEnvelope
      ∧ (envelopeSchema counterIncreased).decode wire = .ok lastEnvelope
      ∧ (envelopeSchema counterIncreased).decodeUnknown (unknownFromSerdeJson wire.payload)
          = .ok ⟨"", "", 0, 0, "", -5⟩ :=
  envelope_survives counterIncreased_roundTrips lastEnvelope

/-- The object of a wire value is not a payload. -/
theorem object_not_decoded :
    counterIncreased.RoundTrips
      ∧ (envelopeSchema counterIncreased).decode
          ((envelopeSchema counterIncreased).encode lastEnvelope) = .ok lastEnvelope
      ∧ (envelopeSchema counterIncreased).decodeUnknown
          (unknownFromSerdeJson ((envelopeSchema counterIncreased).encode lastEnvelope).toValue)
          = .error ⟨"", "expected i64"⟩ := by
  refine ⟨counterIncreased_roundTrips, ?_, rfl⟩
  obtain ⟨v, hv, hback⟩ := counterIncreased_roundTrips lastEnvelope.payload
  rw [decode_eq_fromWire, fromWire_encode hv hback]

end IdEffect.Envelope
