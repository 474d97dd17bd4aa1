import IdEffect.Ai.Sse
import IdEffect.Schema.SerdeBridge
import IdEffect.Streaming.Combinators

set_option autoImplicit false

/-! # The model adapters: `vendors/anthropic.rs` and `vendors/openai.rs`

Both turn chat messages into the JSON of a request, and the events of a transcript into a stream of
chunks. OpenAI takes the messages as they are; Anthropic has one place for a system prompt, and each
system message overwrites the one before it. Both feed the whole transcript to the parser, never ask
it for the message that it still holds (`pendingEvents`), and close the stream with a chunk of their
own.

`serde_json::from_str` is a function from the data of an event to what it stands for. -/

namespace IdEffect.Ai

open Schema (Value)
open Sse (SseMessage SseParser Line Text groups lines lastGroup collect ended tail flush takeLines
  takeLines_append takeLines_spec feedLoop_eq)
open Streaming (Ending yields_channel)

/-! ## Requests -/

inductive ChatRole where
  | system
  | user
  | assistant
  deriving DecidableEq

structure ChatMessage where
  role : ChatRole
  content : String
  deriving DecidableEq

structure ChatRequest where
  model : String
  messages : List ChatMessage

/-- `json!` of an object. -/
def json (fields : List (String × Value)) : Value := .object (Assoc.ofList fields)

/-- `value[key]` -/
def getKey (value : Value) (key : String) : Option Value :=
  match value with
  | .object entries => Assoc.get key entries
  | _ => none

/-- `value[key] = x` of an object. -/
def setKey (value : Value) (key : String) (x : Value) : Value :=
  match value with
  | .object entries => .object (Assoc.insert key x entries)
  | v => v

namespace OpenAi

def roleStr : ChatRole → String
  | .system => "system"
  | .user => "user"
  | .assistant => "assistant"

def buildMessages (messages : List ChatMessage) : List Value :=
  messages.map fun m => json [("role", .string (roleStr m.role)), ("content", .string m.content)]

/-- The body of `complete`, and of `complete_stream`. -/
def body (req : ChatRequest) (stream : Bool) : Value :=
  json [("model", .string req.model), ("messages", .array (buildMessages req.messages)),
    ("stream", .bool stream)]

end OpenAi

namespace Anthropic

def roleStr : ChatRole → String
  | .system => "user"
  | .user => "user"
  | .assistant => "assistant"

/-- A round of the `for` of `split_system`. -/
def splitMessage (acc : Option String × List Value) (m : ChatMessage) :
    Option String × List Value :=
  if m.role = .system then (some m.content, acc.2)
  else
    (acc.1,
      acc.2 ++ [json [("role", .string (roleStr m.role)), ("content", .string m.content)]])

def splitSystem (messages : List ChatMessage) : Option String × List Value :=
  messages.foldl splitMessage (none, [])

/-- Only the body of `complete_stream` says that it streams. -/
def body (req : ChatRequest) (maxTokens : UInt32) (stream : Bool) : Value :=
  let (system, msgs) := splitSystem req.messages
  let fields : List (String × Value) :=
    [("model", .string req.model), ("max_tokens", .number (.posInt maxTokens.toUInt64))]
      ++ (if stream then [("stream", .bool true)] else []) ++ [("messages", .array msgs)]
  match system with
  | some s => setKey (json fields) "system" (.string s)
  | none => json fields

end Anthropic

/-- The text of one entry of `messages`. -/
def contentOf (message : Value) : Option String :=
  match getKey message "content" with
  | some (.string s) => some s
  | _ => none

/-- The texts of the messages of a body, in order. -/
def messageContents (body : Value) : List String :=
  match getKey body "messages" with
  | some (.array items) => items.filterMap contentOf
  | _ => []

/-- The text of the system prompt, where there is one. -/
def systemContent (body : Value) : Option String :=
  match getKey body "system" with
  | some (.string s) => some s
  | _ => none

/-- All the texts of a body. -/
def contents (body : Value) : List String := (systemContent body).toList ++ messageContents body

/-! ## Streams -/

structure CompletionChunk where
  delta : String
  done : Bool
  deriving DecidableEq

/-- Joined `data:` payload. -/
def data (msg : SseMessage) : String := "\n".intercalate (msg.dataLines.map String.ofList)

/-- The stream of a channel into which a thread sends the chunks, one by one, and the end. -/
def chunkStream (sent : List CompletionChunk) : Streaming.Stream CompletionChunk Unit :=
  .channel ((sent.map fun c => [c]).map .chunk ++ (Ending.endStream []).messages) [] false

/-- The last chunk. -/
def finalChunk : CompletionChunk := ⟨"", true⟩

/-- Text that is sent. -/
def nonEmpty (delta : Option String) : List CompletionChunk :=
  match delta with
  | some delta => if delta ≠ "" then [⟨delta, false⟩] else []
  | none => []

namespace OpenAi

/-- The contents of the choices. -/
structure StreamChunk where
  choices : List (Option String)

/-- The chunks for the data of an event. -/
def deltas (fromStr : String → Option StreamChunk) (msg : SseMessage) : List CompletionChunk :=
  match fromStr (data msg) with
  | some chunk => chunk.choices.flatMap nonEmpty
  | none => []

/-- The `for` over the events. -/
def sendEvents (fromStr : String → Option StreamChunk) : List SseMessage → List CompletionChunk
  | [] => []
  | msg :: msgs =>
      if data msg = "[DONE]" then [] else deltas fromStr msg ++ sendEvents fromStr msgs

def sseToChunkStream (fromStr : String → Option StreamChunk) (text : Text) :
    Streaming.Stream CompletionChunk Unit :=
  chunkStream (sendEvents fromStr (SseParser.new.feed text).1 ++ [finalChunk])

end OpenAi

namespace Anthropic

structure StreamEvent where
  kind : String
  /-- The text of the delta, if it has one. -/
  delta : Option (Option String)

def deltas (fromStr : String → Option StreamEvent) (msg : SseMessage) : List CompletionChunk :=
  match fromStr (data msg) with
  | some ev => if ev.kind = "content_block_delta" then nonEmpty (ev.delta.bind id) else []
  | none => []

def sseToChunkStream (fromStr : String → Option StreamEvent) (text : Text) :
    Streaming.Stream CompletionChunk Unit :=
  chunkStream ((SseParser.new.feed text).1.flatMap (deltas fromStr) ++ [finalChunk])

end Anthropic

/-! ## What is sent up -/

@[simp]
theorem getKey_json (fields : List (String × Value)) (key : String) :
    getKey (json fields) key = Assoc.get key (Assoc.ofList fields) := by
  rfl

@[simp]
theorem getKey_setKey (fields : List (String × Value)) (key key' : String) (x : Value) :
    getKey (setKey (json fields) key' x) key
      = if key = key' then some x else getKey (json fields) key :=
  Assoc.get_insert key key' x _

theorem contentOf_json (role content : String) :
    contentOf (json [("role", .string role), ("content", .string content)]) = some content := by
  simp [contentOf, Assoc.ofList, Assoc.get_insert]

theorem contents_openAi (req : ChatRequest) (stream : Bool) :
    contents (OpenAi.body req stream) = req.messages.map (·.content) := by
  have hmessages : (OpenAi.buildMessages req.messages).filterMap contentOf
      = req.messages.map (·.content) := by
    rw [OpenAi.buildMessages, List.filterMap_map]
    simp [contentOf_json]
  simp [contents, systemContent, messageContents, OpenAi.body, Assoc.ofList, Assoc.get_insert,
    hmessages]

/-- The text of the last system message. -/
def lastSystem (messages : List ChatMessage) : Option String :=
  ((messages.filter (·.role = .system)).getLast?).map (·.content)

/-- The texts of the other messages. -/
def others (messages : List ChatMessage) : List String :=
  (messages.filter (·.role ≠ .system)).map (·.content)

theorem splitSystem_eq (messages : List ChatMessage) :
    (Anthropic.splitSystem messages).1 = lastSystem messages
      ∧ (Anthropic.splitSystem messages).2.filterMap contentOf = others messages := by
  induction messages using List.reverseRecOn with
  | nil => exact ⟨rfl, rfl⟩
  | append_singleton messages m ih =>
      rw [Anthropic.splitSystem] at ih ⊢
      rw [List.foldl_concat, Anthropic.splitMessage]
      by_cases hm : m.role = .system
      · simp [hm, lastSystem, others, ih.2]
      · simp [hm, lastSystem, others, ih.1, ih.2, contentOf_json]

theorem contents_anthropic (req : ChatRequest) (maxTokens : UInt32) (stream : Bool) :
    systemContent (Anthropic.body req maxTokens stream) = lastSystem req.messages
      ∧ messageContents (Anthropic.body req maxTokens stream) = others req.messages := by
  obtain ⟨hsystem, hothers⟩ := splitSystem_eq req.messages
  rw [← hsystem, ← hothers]
  simp only [Anthropic.body]
  cases (Anthropic.splitSystem req.messages).1 with
  | some s =>
      cases stream <;>
        simp [systemContent, messageContents, Assoc.ofList, Assoc.get_insert]
  | none =>
      cases stream <;>
        simp [systemContent, messageContents, Assoc.ofList, Assoc.get_insert]

/-- The body has the texts of the messages, those that are not of the system in their order. -/
structure Keeps (messages : List ChatMessage) (body : Value) : Prop where
  content : ∀ m ∈ messages, m.content ∈ contents body
  order : (others messages).Sublist (messageContents body)

/-- No system message is followed by another one, unless its text is in the body all the same. -/
def SystemKept (messages : List ChatMessage) : Prop :=
  ∀ m ∈ messages, m.role = .system →
    lastSystem messages = some m.content ∨ m.content ∈ others messages

theorem keeps_openAi (req : ChatRequest) (stream : Bool) :
    Keeps req.messages (OpenAi.body req stream) := by
  have hcontents := contents_openAi req stream
  have hsystem : systemContent (OpenAi.body req stream) = none := by
    simp [systemContent, OpenAi.body, Assoc.ofList, Assoc.get_insert]
  refine ⟨fun m hm => ?_, ?_⟩
  · rw [hcontents]
    exact List.mem_map_of_mem hm
  · rw [contents, hsystem, Option.toList_none, List.nil_append] at hcontents
    rw [hcontents]
    exact List.filter_sublist.map _

theorem keeps_anthropic (req : ChatRequest) (maxTokens : UInt32) (stream : Bool) :
    Keeps req.messages (Anthropic.body req maxTokens stream) ↔ SystemKept req.messages := by
  obtain ⟨hsystem, hothers⟩ := contents_anthropic req maxTokens stream
  have hmem : ∀ text, text ∈ contents (Anthropic.body req maxTokens stream) ↔
      lastSystem req.messages = some text ∨ text ∈ others req.messages := by
    intro text
    rw [contents, hsystem, hothers, List.mem_append, Option.mem_toList]
  refine ⟨fun h m hm _ => (hmem _).1 (h.content m hm), fun h => ⟨fun m hm => ?_, ?_⟩⟩
  · by_cases hrole : m.role = .system
    · exact (hmem _).2 (h m hm hrole)
    · have hother : m.content ∈ others req.messages :=
        List.mem_map_of_mem (List.mem_filter.2 ⟨hm, by simpa using hrole⟩)
      exact (hmem _).2 (.inr hother)
  · rw [hothers]

/-! ## What comes down -/

/-- The text after the last newline, where there is any. -/
def tailLine (text : Text) : List Line := if tail text = [] then [] else [Line.read (tail text)]

/-- The message that the transcript breaks off in. -/
def pendingEvents (text : Text) : List SseMessage :=
  groups (lastGroup (ended text) ++ tailLine text)

/-- The chunks for texts, and the last one. -/
def chunksOf (texts : List String) : List CompletionChunk :=
  texts.map (⟨·, false⟩) ++ [finalChunk]

/-- The texts of events, up to the one that says `[DONE]`. -/
def OpenAi.texts (fromStr : String → Option OpenAi.StreamChunk) (events : List SseMessage) :
    List String :=
  (((events.map data).takeWhile (· ≠ "[DONE]")).filterMap fromStr).flatMap fun chunk =>
    (chunk.choices.filterMap id).filter (· ≠ "")

/-- The texts of the events that are deltas. -/
def Anthropic.texts (fromStr : String → Option Anthropic.StreamEvent) (events : List SseMessage) :
    List String :=
  let parsed := (events.map data).filterMap fromStr
  ((parsed.filter (·.kind = "content_block_delta")).filterMap (·.delta.join)).filter (· ≠ "")

/-- The stream is closed only once all its texts have come. -/
theorem collects_chunkStream (sent chunks : List CompletionChunk) :
    (chunkStream sent).Collects chunks ↔ sent = chunks := by
  have hsent : (chunkStream sent).Collects sent := by
    have hyields := yields_channel (E := Unit) (sent.map fun c => [c]) (.endStream [])
    rw [← List.flatMap_def, List.flatMap_singleton'] at hyields
    exact hyields.collects
  exact ⟨hsent.unique, fun h => h ▸ hsent⟩

theorem lastGroup_open (ls : List Line) : ∀ l ∈ lastGroup ls, l.isBlank = false := by
  have hall : ∀ group ∈ ls.splitOnP Line.isBlank, ∀ l ∈ group, l.isBlank = false := by
    induction ls with
    | nil => simp
    | cons l ls ih =>
        obtain ⟨group, more, hsplit, hcons⟩ := Sse.splitOnP_isBlank_cons l ls
        rw [hsplit] at ih
        rw [hcons]
        cases hl : l.isBlank with
        | true => simpa using ih
        | false => simpa [hl] using ih
  obtain ⟨group, hlast⟩ : ∃ group, (ls.splitOnP Line.isBlank).getLast? = some group :=
    ⟨_, List.getLast?_eq_some_getLast (List.splitOnP_ne_nil Line.isBlank ls)⟩
  rw [lastGroup, hlast]
  exact hall group (List.mem_of_getLast? hlast)

theorem feed_eq (text : Text) :
    (SseParser.new.feed text).1 = (takeLines .default (ended text)).1 :=
  congrArg Prod.fst (feedLoop_eq .default text)

/-- **The parser keeps the last event to itself.** -/
theorem groups_lines (text : Text) :
    groups (lines text) = (SseParser.new.feed text).1 ++ pendingEvents text := by
  have hnil : ∀ l ∈ ([] : List Line), l.isBlank = false := fun _ h => absurd h List.not_mem_nil
  have hall := (takeLines_spec (ended text ++ tailLine text) [] hnil).1
  have hended := (takeLines_spec (ended text) [] hnil).2
  have htail := (takeLines_spec (tailLine text) _ (lastGroup_open (ended text))).1
  have hfed : (SseParser.new.feed text).1 = (takeLines (collect []) (ended text)).1 := feed_eq text
  rw [List.nil_append] at hall hended
  rw [takeLines_append, hended, List.append_assoc, htail] at hall
  rw [lines, ← tailLine, ← hall, hfed, pendingEvents]

theorem nonEmpty_eq (delta : Option String) :
    nonEmpty delta = (delta.toList.filter (· ≠ "")).map (⟨·, false⟩) := by
  cases delta with
  | none => rfl
  | some delta =>
      by_cases hdelta : delta = ""
      · simp [nonEmpty, hdelta]
      · simp [nonEmpty, hdelta]

theorem OpenAi.sendEvents_eq (fromStr : String → Option OpenAi.StreamChunk)
    (events : List SseMessage) :
    OpenAi.sendEvents fromStr events = (OpenAi.texts fromStr events).map (⟨·, false⟩) := by
  have hchoices : ∀ choices : List (Option String),
      choices.flatMap nonEmpty = ((choices.filterMap id).filter (· ≠ "")).map (⟨·, false⟩) := by
    intro choices
    induction choices with
    | nil => rfl
    | cons choice choices ih =>
        rw [List.flatMap_cons, ih, nonEmpty_eq]
        cases choice with
        | none => rfl
        | some delta => simp [List.filter_cons, apply_ite, ite_apply]
  induction events with
  | nil => rfl
  | cons msg msgs ih =>
      rw [OpenAi.sendEvents, OpenAi.texts]
      by_cases hdone : data msg = "[DONE]"
      · simp [hdone]
      · rw [if_neg hdone, ih, OpenAi.deltas, OpenAi.texts]
        cases hparsed : fromStr (data msg) with
        | none => simp [hdone, hparsed]
        | some chunk => simp [hdone, hparsed, hchoices]

theorem Anthropic.deltas_eq (fromStr : String → Option Anthropic.StreamEvent)
    (events : List SseMessage) :
    events.flatMap (Anthropic.deltas fromStr)
      = (Anthropic.texts fromStr events).map (⟨·, false⟩) := by
  induction events with
  | nil => rfl
  | cons msg msgs ih =>
      rw [List.flatMap_cons, ih, Anthropic.deltas, Anthropic.texts, Anthropic.texts]
      cases hparsed : fromStr (data msg) with
      | none => simp [hparsed]
      | some ev =>
          by_cases hkind : ev.kind = "content_block_delta"
          · match hdelta : ev.delta with
            | none | some none => simp [hparsed, hkind, hdelta, nonEmpty_eq]
            | some (some delta) =>
                by_cases hempty : delta = ""
                · simp [hparsed, hkind, hdelta, hempty, nonEmpty_eq]
                · simp [hparsed, hkind, hdelta, hempty, nonEmpty_eq]
          · simp [hparsed, hkind]

/-- Nothing comes after `[DONE]`. -/
theorem OpenAi.texts_append (fromStr : String → Option OpenAi.StreamChunk)
    (fed pending : List SseMessage) :
    OpenAi.texts fromStr (fed ++ pending) = OpenAi.texts fromStr fed
      ++ if "[DONE]" ∈ fed.map data then [] else OpenAi.texts fromStr pending := by
  induction fed with
  | nil => simp [OpenAi.texts]
  | cons msg fed ih =>
      rw [OpenAi.texts, OpenAi.texts] at ih ⊢
      by_cases hdone : data msg = "[DONE]"
      · simp [hdone]
      · cases hparsed : fromStr (data msg) with
        | none => simpa [hdone, Ne.symm hdone, hparsed] using ih
        | some chunk => simpa [hdone, Ne.symm hdone, hparsed] using ih

theorem Anthropic.texts_append (fromStr : String → Option Anthropic.StreamEvent)
    (fed pending : List SseMessage) :
    Anthropic.texts fromStr (fed ++ pending)
      = Anthropic.texts fromStr fed ++ Anthropic.texts fromStr pending := by
  simp [Anthropic.texts]

theorem chunks_eq_iff (fed pending : List String) :
    fed.map (⟨·, false⟩) ++ [finalChunk] = chunksOf (fed ++ pending) ↔ pending = [] := by
  rw [chunksOf, List.append_left_inj, List.map_append]
  simp

theorem openAi_stream_iff (fromStr : String → Option OpenAi.StreamChunk) (text : Text) :
    (OpenAi.sseToChunkStream fromStr text).Collects
        (chunksOf (OpenAi.texts fromStr (groups (lines text))))
      ↔ "[DONE]" ∈ (SseParser.new.feed text).1.map data
        ∨ OpenAi.texts fromStr (pendingEvents text) = [] := by
  rw [OpenAi.sseToChunkStream, collects_chunkStream, OpenAi.sendEvents_eq, groups_lines,
    OpenAi.texts_append, chunks_eq_iff, ite_eq_left_iff]
  exact imp_iff_not_or.trans (or_congr_left not_not)

theorem anthropic_stream_iff (fromStr : String → Option Anthropic.StreamEvent) (text : Text) :
    (Anthropic.sseToChunkStream fromStr text).Collects
        (chunksOf (Anthropic.texts fromStr (groups (lines text))))
      ↔ Anthropic.texts fromStr (pendingEvents text) = [] := by
  rw [Anthropic.sseToChunkStream, collects_chunkStream, Anthropic.deltas_eq, groups_lines,
    Anthropic.texts_append, chunks_eq_iff]

/-! ## What is lost -/

/-- The adapters lose no text: the bodies have the messages, and the streams the texts of the events
    of the transcript. -/
structure LosesNothing (openAi : String → Option OpenAi.StreamChunk)
    (anthropic : String → Option Anthropic.StreamEvent) (req : ChatRequest) (maxTokens : UInt32)
    (text : Text) : Prop where
  openAiBody : ∀ stream, Keeps req.messages (OpenAi.body req stream)
  anthropicBody : ∀ stream, Keeps req.messages (Anthropic.body req maxTokens stream)
  openAiStream : (OpenAi.sseToChunkStream openAi text).Collects
    (chunksOf (OpenAi.texts openAi (groups (lines text))))
  anthropicStream : (Anthropic.sseToChunkStream anthropic text).Collects
    (chunksOf (Anthropic.texts anthropic (groups (lines text))))

/-- **Nothing is lost** if and only if no system message is overwritten, and the transcript does not
    break off in an event with a text. -/
theorem losesNothing_iff (openAi : String → Option OpenAi.StreamChunk)
    (anthropic : String → Option Anthropic.StreamEvent) (req : ChatRequest) (maxTokens : UInt32)
    (text : Text) :
    LosesNothing openAi anthropic req maxTokens text ↔
      SystemKept req.messages ∧
        ("[DONE]" ∈ (SseParser.new.feed text).1.map data
          ∨ OpenAi.texts openAi (pendingEvents text) = []) ∧
        Anthropic.texts anthropic (pendingEvents text) = [] := by
  rw [← openAi_stream_iff, ← anthropic_stream_iff]
  constructor
  · intro h
    exact ⟨(keeps_anthropic req maxTokens true).1 (h.anthropicBody true), h.openAiStream,
      h.anthropicStream⟩
  · rintro ⟨hsystem, hopenAi, hanthropic⟩
    exact ⟨keeps_openAi req, fun stream => (keeps_anthropic req maxTokens stream).2 hsystem,
      hopenAi, hanthropic⟩

/-- The first of two system messages is lost, and so is the text of a transcript of one event that
    has no blank line after it. -/
theorem first_system_and_last_event_lost :
    ¬ LosesNothing (fun _ => none) (fun _ => none)
        ⟨"m", [⟨.system, "be brief"⟩, ⟨.system, "be kind"⟩, ⟨.user, "hi"⟩]⟩ 1024 [] ∧
      ¬ LosesNothing (fun payload => if payload = "1" then some ⟨[some "Hi"]⟩ else none)
        (fun _ => none) ⟨"m", [⟨.user, "hi"⟩]⟩ 1024 "data: 1\n".toList ∧
      ¬ LosesNothing (fun _ => none)
        (fun payload =>
          if payload = "1" then some ⟨"content_block_delta", some (some "Hi")⟩ else none)
        ⟨"m", [⟨.user, "hi"⟩]⟩ 1024 "data: 1\n".toList := by
  have hpending : pendingEvents "data: 1\n".toList = [⟨none, [['1']]⟩] := by decide
  have hdata : data ⟨none, [['1']]⟩ = "1" := by decide
  refine ⟨fun h => ?_, fun h => ?_, fun h => ?_⟩
  · have hkept := (keeps_anthropic _ _ true).1 (h.anthropicBody true)
    exact absurd (hkept ⟨.system, "be brief"⟩ (by simp) rfl) (by decide)
  · obtain hdone | htexts := (openAi_stream_iff _ _).1 h.openAiStream
    · rw [feed_eq] at hdone
      exact absurd hdone (by decide)
    · rw [hpending] at htexts
      simp [OpenAi.texts, hdata] at htexts
  · have htexts := (anthropic_stream_iff _ _).1 h.anthropicStream
    rw [hpending] at htexts
    simp [Anthropic.texts, hdata] at htexts

end IdEffect.Ai
