import Mathlib.Data.List.DropRight
import IdEffect.Rpc.Wire

set_option autoImplicit false

/-! # A remote call, from the client to the handler and back

`RpcClient::call` encodes the payload, posts a request with the tag, and reads the response; the
server decodes the request, looks the tag up in its group, runs the handler and encodes what it
returned. A value comes back as it was returned (`call_of_ok`). An error does not come back: the
server sends the failure, message and all, under the status of its code, and the client gives up at
a status other than 200, before it reads the body (`call_of_error`). -/

namespace IdEffect.Rpc

open Schema

/-! ## The registry -/

variable {A IA B IB Env Bytes HttpError : Type}

/-- What is registered: the arguments of `register`. The handler's effect is given by its outcome in
    an environment. -/
structure RpcMethod (A IA B IB Env : Type) where
  tag : String
  payloadSchema : Schema A IA
  payloadWire : StructWireJson IA
  payloadFields : List String
  successSchema : Schema B IB
  successWire : StructWireJson IB
  successFields : List String
  handler : A → Env → Except RpcError B

structure RpcMethodEntry (Env : Type) where
  tag : String
  dispatch : Value → Env → Except RpcSerializationError RpcWireResponse

structure RpcGroup (Env : Type) where
  methods : Assoc.Map String (RpcMethodEntry Env)

def RpcMethod.entry (method : RpcMethod A IA B IB Env) : RpcMethodEntry Env where
  tag := method.tag
  dispatch payload env := do
    let input ← decodePayload method.payloadSchema payload
    match method.handler input env with
    | .ok value =>
        Rpc.successWire method.tag method.successSchema method.successWire method.successFields
          value
    | .error err => return rpcErrorToWire method.tag err

namespace RpcGroup

def new : RpcGroup Env := ⟨.empty⟩

/-- A method replaces the one with its tag. -/
def register (group : RpcGroup Env) (method : RpcMethod A IA B IB Env) : RpcGroup Env :=
  ⟨group.methods.insert method.tag method.entry⟩

def get (group : RpcGroup Env) (tag : String) : Option (RpcMethodEntry Env) :=
  group.methods.get tag

theorem get_register (group : RpcGroup Env) (method : RpcMethod A IA B IB Env) (tag : String) :
    (group.register method).get tag
      = if tag = method.tag then some method.entry else group.get tag :=
  Assoc.get_insert ..

end RpcGroup

/-! ## The server -/

structure HttpResponse (Bytes : Type) where
  status : ℕ
  body : Bytes

def RpcErrorCode.status : RpcErrorCode → ℕ
  | .invalidArgument => 400
  | .notFound => 404
  | .alreadyExists => 409
  | .unauthenticated => 401
  | .internal => 500

theorem RpcErrorCode.status_ne_ok (code : RpcErrorCode) : code.status ≠ 200 := by
  cases code <;> decide

/-- Errors are made with the status that the server sends for their code. -/
theorem RpcError.status_eq (message : String) :
    ∀ err ∈ [invalidArgument message, notFound message, alreadyExists message,
      unauthenticated message, internal message], err.status = err.envelope.code.status := by
  simp [invalidArgument, notFound, alreadyExists, unauthenticated, internal, RpcErrorCode.status]

section Server

variable [Inhabited Bytes] (serde : Serde Value Bytes)

/-- `Json(envelope)` that cannot be serialized is a response of its own, with another status. -/
def RpcError.intoResponse (err : RpcError) : HttpResponse Bytes :=
  match (RpcEnvelope.serde.comp serde).encode err.envelope with
  | .ok body => ⟨err.status, body⟩
  | .error _ => ⟨500, default⟩

/-- A failure without a correlation id gets that of the request. -/
def RpcWireResponse.correlated (cid : String) : RpcWireResponse → RpcWireResponse
  | .success tag value => .success tag value
  | .failure tag env =>
      .failure tag { env with correlationId := some (env.correlationId.getD cid) }

def wireToResponse (wire : RpcWireResponse) (cid : String) : HttpResponse Bytes :=
  let status :=
    match wire with
    | .success _ _ => 200
    | .failure _ failure => failure.code.status
  let bytes :=
    match (RpcWireResponse.serde.comp serde).encode (wire.correlated cid) with
    | .ok bytes => bytes
    | .error _ => default
  ⟨status, bytes⟩

/-- `cid` is the correlation id of the request, or a new one. -/
def dispatchRequest (env : Env) (group : RpcGroup Env) (cid : String) (body : Bytes) :
    HttpResponse Bytes :=
  match (RpcWireRequest.serde.comp serde).decode body with
  | .error msg => ((serializationToRpcError (.json msg)).withCorrelationId cid).intoResponse serde
  | .ok req =>
      match group.get req.tag with
      | none =>
          ((RpcError.notFound ("unknown rpc tag: " ++ req.tag)).withCorrelationId cid).intoResponse
            serde
      | some method =>
          match method.dispatch req.payload env with
          | .ok wire => wireToResponse serde wire cid
          | .error e => ((serializationToRpcError e).withCorrelationId cid).intoResponse serde

end Server

/-! ## The client -/

inductive HttpMethod where
  | get
  | post
  | put
  | delete
  | patch
  deriving DecidableEq, Repr

structure HttpRequest (Bytes : Type) where
  method : HttpMethod
  url : String
  headers : List (String × String)
  body : Option Bytes
  timeout : Option ℕ
  maxBodyBytes : Option ℕ

inductive RpcClientError (HttpError : Type) where
  | serialization (e : RpcSerializationError)
  | http (e : HttpError)
  | rpc (message : String)
  | unexpectedStatus (status : ℕ)
  deriving DecidableEq, Repr

def RpcClientError.rpcEnvelope (env : RpcEnvelope) : RpcClientError HttpError := .rpc env.message

structure RpcClientConfig where
  baseUrl : String
  dispatchPath : String

/-- The base without the slashes at its end, and the path. -/
def RpcClientConfig.url (config : RpcClientConfig) : String :=
  String.ofList (config.baseUrl.toList.rdropWhile (· = '/')) ++ config.dispatchPath

structure RpcClient where
  config : RpcClientConfig

namespace RpcClient

def new (baseUrl : String) : RpcClient := ⟨⟨baseUrl, "/rpc"⟩⟩

def withDispatchPath (client : RpcClient) (path : String) : RpcClient :=
  ⟨{ client.config with dispatchPath := path }⟩

/-- What `call` makes of a response. -/
def received (serde : Serde Value Bytes) (successSchema : Schema B IB) (resp : HttpResponse Bytes) :
    Except (RpcClientError HttpError) B := do
  if resp.status ≠ 200 then .error (.unexpectedStatus resp.status)
  else
    let wire ← ((RpcWireResponse.serde.comp serde).decode resp.body).mapError
      fun e => .serialization (.json e)
    match wire with
    | .success _ success => (validateSuccessJson successSchema success).mapError .serialization
    | .failure _ failure => .error (.rpcEnvelope failure)

/-- `execute` is the HTTP client. -/
def call (client : RpcClient) (serde : Serde Value Bytes)
    (execute : HttpRequest Bytes → Except HttpError (HttpResponse Bytes)) (tag : String)
    (payload : A) (payloadSchema : Schema A IA) (payloadWire : StructWireJson IA)
    (payloadFields : List String) (successSchema : Schema B IB) (_successFields : List String) :
    Except (RpcClientError HttpError) B := do
  let payloadJson ←
    (encodeStructFields payloadSchema payloadWire payloadFields payload).mapError .serialization
  let body ← ((RpcWireRequest.serde.comp serde).encode ⟨tag, payloadJson⟩).mapError
    fun e => .serialization (.json e)
  let resp ← (execute ⟨.post, client.config.url, [("content-type", "application/json")], some body,
    none, none⟩).mapError .http
  received serde successSchema resp

/-- A call of a method, with its tag and its schemas. -/
def callMethod (client : RpcClient) (serde : Serde Value Bytes)
    (execute : HttpRequest Bytes → Except HttpError (HttpResponse Bytes))
    (method : RpcMethod A IA B IB Env) (payload : A) : Except (RpcClientError HttpError) B :=
  client.call serde execute method.tag payload method.payloadSchema method.payloadWire
    method.payloadFields method.successSchema method.successFields

/-- The HTTP client carries what is posted to the url to the server, and the response back. -/
def Carries (client : RpcClient)
    (execute : HttpRequest Bytes → Except HttpError (HttpResponse Bytes))
    (serve : Bytes → HttpResponse Bytes) : Prop :=
  ∀ req body, req.method = .post → req.url = client.config.url → req.body = some body →
    execute req = .ok (serve body)

end RpcClient

/-- The call tells what the handler did: the value, or the message of the error. -/
def Reports (result : Except (RpcClientError HttpError) B) : Except RpcError B → Prop
  | .ok value => result = .ok value
  | .error err => result = .error (.rpc err.envelope.message)

/-! ## The way of a call -/

variable [Inhabited Bytes] {serde : Serde Value Bytes} {env : Env} {group : RpcGroup Env}
variable {cid : String} {client : RpcClient} {method : RpcMethod A IA B IB Env} {payload : A}
variable {execute : HttpRequest Bytes → Except HttpError (HttpResponse Bytes)}

/-- A registered method is found under its tag. -/
def RpcGroup.Registered (group : RpcGroup Env) (method : RpcMethod A IA B IB Env) : Prop :=
  group.get method.tag = some method.entry

theorem RpcGroup.registered_register (group : RpcGroup Env) (method : RpcMethod A IA B IB Env) :
    (group.register method).Registered method := by
  rw [Registered, get_register, if_pos rfl]

/-- Registering other tags does not matter. -/
theorem RpcGroup.Registered.register {A' IA' B' IB' : Type} (h : group.Registered method)
    (other : RpcMethod A' IA' B' IB' Env) (hne : method.tag ≠ other.tag) :
    (group.register other).Registered method := by
  rw [Registered, get_register, if_neg hne]
  exact h

theorem wireToResponse_success (hserde : ∀ v, serde.RoundTrips v) (tag cid : String)
    (value : Value) :
    ∃ bytes, wireToResponse serde (.success tag value) cid = ⟨200, bytes⟩
      ∧ (RpcWireResponse.serde.comp serde).decode bytes = .ok (.success tag value) := by
  obtain ⟨bytes, hencode, hdecode⟩ :=
    (RpcWireResponse.serde_roundTrips_success tag value).comp hserde
  refine ⟨bytes, ?_, hdecode⟩
  simp only [wireToResponse, RpcWireResponse.correlated, hencode]

/-- A failure is sent under the status of its code, and its message is in the body. -/
theorem wireToResponse_failure (hserde : ∀ v, serde.RoundTrips v) (tag cid : String)
    (envelope : RpcEnvelope) :
    ∃ bytes sent, wireToResponse serde (.failure tag envelope) cid = ⟨envelope.code.status, bytes⟩
      ∧ (RpcWireResponse.serde.comp serde).decode bytes = .ok (.failure tag sent)
      ∧ sent.message = envelope.message := by
  let sent : RpcEnvelope :=
    { envelope with correlationId := some (envelope.correlationId.getD cid) }
  obtain ⟨v, details, hencode, hdecode⟩ := RpcWireResponse.decode_failure tag sent
  obtain ⟨bytes, hbytes, hback⟩ := hserde v
  have hsent : (RpcWireResponse.serde.comp serde).encode (.failure tag sent) = .ok bytes := by
    simp only [Serde.comp, hencode]
    exact hbytes
  refine ⟨bytes, { sent with details := details }, ?_, ?_, rfl⟩
  · simp only [wireToResponse, RpcWireResponse.correlated]
    rw [hsent]
  · simp only [Serde.comp, hback]
    exact hdecode

/-- The server answers a call of a registered method with what the dispatch of the payload gives. -/
theorem call_of_dispatch (hserde : ∀ v, serde.RoundTrips v) (hmethod : group.Registered method)
    (hcarries : client.Carries execute (dispatchRequest serde env group cid))
    (hpayload : Travels method.payloadSchema method.payloadWire method.payloadFields payload) :
    ∃ json, decodePayload method.payloadSchema json = .ok payload
      ∧ ∀ wire, method.entry.dispatch json env = .ok wire →
        client.callMethod serde execute method payload
          = RpcClient.received serde method.successSchema (wireToResponse serde wire cid) := by
  obtain ⟨json, hencode, hdecode⟩ := hpayload.arrives
  refine ⟨json, hdecode, fun wire hwire => ?_⟩
  obtain ⟨body, hbody, hreq⟩ := (RpcWireRequest.serde_roundTrips ⟨method.tag, json⟩).comp hserde
  have hserved : dispatchRequest serde env group cid body = wireToResponse serde wire cid := by
    have hget : group.get method.tag = some method.entry := hmethod
    simp only [dispatchRequest, hreq, hget, hwire]
  have hexecute := hcarries ⟨.post, client.config.url, [("content-type", "application/json")],
    some body, none, none⟩ body rfl rfl rfl
  rw [hserved] at hexecute
  simp only [RpcClient.callMethod, RpcClient.call, hencode, Except.mapError, bind, Except.bind,
    hbody, hexecute]

/-- **A value comes back.** -/
theorem call_of_ok (hserde : ∀ v, serde.RoundTrips v) (hmethod : group.Registered method)
    (hcarries : client.Carries execute (dispatchRequest serde env group cid))
    (hpayload : Travels method.payloadSchema method.payloadWire method.payloadFields payload)
    {value : B} (hvalue : method.handler payload env = .ok value)
    (hsuccess : Travels method.successSchema method.successWire method.successFields value) :
    client.callMethod serde execute method payload = .ok value := by
  obtain ⟨json, hdecode, hcall⟩ := call_of_dispatch hserde hmethod hcarries hpayload
  obtain ⟨success, hencode, hback⟩ := hsuccess.arrives
  have hdispatch : method.entry.dispatch json env = .ok (.success method.tag success) := by
    simp only [RpcMethod.entry, hdecode, hvalue, successWire, hencode, bind, Except.bind]
    rfl
  obtain ⟨bytes, hresponse, hwire⟩ := wireToResponse_success hserde method.tag cid success
  rw [hcall _ hdispatch, hresponse]
  unfold RpcClient.received
  rw [if_neg (fun hne => hne rfl), hwire]
  simp only [Except.mapError, bind, Except.bind, validateSuccessJson, hback]

/-- **An error does not come back**: only the status of its code does. -/
theorem call_of_error (hserde : ∀ v, serde.RoundTrips v) (hmethod : group.Registered method)
    (hcarries : client.Carries execute (dispatchRequest serde env group cid))
    (hpayload : Travels method.payloadSchema method.payloadWire method.payloadFields payload)
    {err : RpcError} (herr : method.handler payload env = .error err) :
    client.callMethod serde execute method payload
      = .error (.unexpectedStatus err.envelope.code.status) := by
  obtain ⟨json, hdecode, hcall⟩ := call_of_dispatch hserde hmethod hcarries hpayload
  have hdispatch : method.entry.dispatch json env = .ok (.failure method.tag err.envelope) := by
    simp only [RpcMethod.entry, hdecode, herr, bind, Except.bind]
    rfl
  obtain ⟨bytes, -, hresponse, -⟩ :=
    wireToResponse_failure hserde method.tag cid err.envelope
  rw [hcall _ hdispatch, hresponse]
  exact if_pos err.envelope.code.status_ne_ok

/-- **A call reports what the handler did exactly when the handler succeeded.** -/
theorem call_reports_iff (hserde : ∀ v, serde.RoundTrips v) (hmethod : group.Registered method)
    (hcarries : client.Carries execute (dispatchRequest serde env group cid))
    (hpayload : Travels method.payloadSchema method.payloadWire method.payloadFields payload)
    (hsuccess : ∀ value, method.handler payload env = .ok value →
      Travels method.successSchema method.successWire method.successFields value) :
    Reports (client.callMethod serde execute method payload) (method.handler payload env)
      ↔ ∃ value, method.handler payload env = .ok value := by
  cases houtcome : method.handler payload env with
  | ok value =>
      refine iff_of_true ?_ ⟨value, rfl⟩
      exact call_of_ok hserde hmethod hcarries hpayload houtcome (hsuccess value houtcome)
  | error err =>
      refine iff_of_false (fun hreports => ?_) (fun ⟨_, h⟩ => by cases h)
      rw [call_of_error hserde hmethod hcarries hpayload houtcome] at hreports
      cases hreports

/-! ### A method that greets -/

/-- A method with named parts, which refuses to greet with negative enthusiasm. -/
def greet : RpcMethod (String × Int64) (String × Int64) (String × Int64) (String × Int64) Unit where
  tag := "greet"
  payloadSchema := (Expr.struct_ "name" .string "enthusiasm" .i64).schema
  payloadWire := .pair .string .i64
  payloadFields := ["name", "enthusiasm"]
  successSchema := (Expr.struct_ "message" .string "count" .i64).schema
  successWire := .pair .string .i64
  successFields := ["message", "count"]
  handler := fun (name, n) _ =>
    if n < 0 then .error (.invalidArgument "enthusiasm must be non-negative")
    else .ok ("Hello, " ++ name ++ "!", n)

theorem greet_payload_travels (payload : String × Int64) :
    Travels greet.payloadSchema greet.payloadWire greet.payloadFields payload := by
  have hd : (Expr.struct_ "name" .string "enthusiasm" .i64).DistinctFields :=
    ⟨by decide, trivial, trivial⟩
  exact travels_struct depicts_string depicts_i64 hd ⟨trivial, trivial⟩ rfl

theorem greet_success_travels (value : String × Int64) :
    Travels greet.successSchema greet.successWire greet.successFields value := by
  have hd : (Expr.struct_ "message" .string "count" .i64).DistinctFields :=
    ⟨by decide, trivial, trivial⟩
  exact travels_struct depicts_string depicts_i64 hd ⟨trivial, trivial⟩ rfl

instance : Inhabited Value := ⟨.null⟩

/-- The server of the greeting, behind a client that hands over what is posted. A text stands for
    its value. -/
def greeting (req : HttpRequest Value) : Except Unit (HttpResponse Value) :=
  match req.body with
  | some body => .ok (dispatchRequest .identity () (RpcGroup.new.register greet) "cid" body)
  | none => .error ()

theorem carries_greeting (client : RpcClient) : client.Carries greeting
    (dispatchRequest .identity () (RpcGroup.new.register greet) "cid") := by
  intro req body _ _ hbody
  rw [greeting, hbody]

theorem call_reports_iff_greet :
    Reports ((RpcClient.new "http://localhost").callMethod .identity greeting greet ("Ada", 1))
      (.ok ("Hello, Ada!", 1)) :=
  (call_reports_iff Serde.identity_roundTrips (RpcGroup.registered_register _ greet)
    (carries_greeting _) (greet_payload_travels _) fun _ _ => greet_success_travels _).mpr ⟨_, rfl⟩

/-- The message of the error is lost. -/
theorem greet_error_lost :
    greet.handler ("Ada", -1) () = .error (.invalidArgument "enthusiasm must be non-negative")
      ∧ (RpcClient.new "http://localhost").callMethod .identity greeting greet ("Ada", -1)
        = .error (.unexpectedStatus 400) := by
  have herr : greet.handler ("Ada", -1) ()
      = .error (.invalidArgument "enthusiasm must be non-negative") := rfl
  exact ⟨herr, call_of_error Serde.identity_roundTrips (RpcGroup.registered_register _ greet)
    (carries_greeting _) (greet_payload_travels _) herr⟩

end IdEffect.Rpc
