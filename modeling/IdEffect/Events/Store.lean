import Mathlib.Data.List.Sort
import IdEffect.Lib.Calls

set_option autoImplicit false

/-! # Event stores

The three implementations of `EventStore`: in memory, as a file of JSON lines, and over the SQL
journal backend of the tests. Each is a machine whose steps are the atomic accesses to the shared
state. The memory store does everything under its mutex, in one step. A file append reads the whole
file, computes the versions, and writes its lines in a second step. An SQL append selects the latest
version, then inserts one row per step.

Versions are natural numbers. The unique id of an event is the number of the call that created it
with the place of the event in its batch. `Codec` stands for `serde_json` on the payload: what was
encoded can be decoded. -/

namespace IdEffect.Events

open Calls

variable {E J : Type}

/-! ## Events and answers -/

structure StoredEvent (E : Type) where
  eventId : ℕ × ℕ
  version : ℕ
  payload : E
  deriving DecidableEq, Repr

inductive EventStoreError where
  | versionConflict (streamId : String) (expected actual : ℕ)
  | io (message : String)
  | serde (message : String)
  deriving DecidableEq, Repr

/-- `serde_json` and the impls of the payload, of which a round trip is asked: what is encoded is
    decoded to the same payload. A payload with an `f64` that is not a number does not have it: it
    is written as `null`, and that is not read back. -/
structure Codec (E J : Type) where
  encode : E → Except String J
  decode : J → Except String E
  decode_encode : ∀ e j, encode e = .ok j → decode j = .ok e

inductive Request (E : Type) where
  | append (streamId : String) (events : List E)
  | read (streamId : String) (fromVersion : ℕ)
  deriving DecidableEq, Repr

abbrev Answer (E : Type) : Type := Except EventStoreError (List (StoredEvent E))

/-- The loop over the payloads: each gets the next version of the stream. Answers with the stream
    and with the events stored; `i` is the place in the batch. -/
def assignVersions (t : ℕ) : ℕ → List (StoredEvent E) → List E →
    List (StoredEvent E) × List (StoredEvent E)
  | _, stream, [] => (stream, [])
  | i, stream, payload :: events =>
      let stored : StoredEvent E := ⟨(t, i), stream.length + 1, payload⟩
      let rest := assignVersions t (i + 1) (stream ++ [stored]) events
      (rest.1, stored :: rest.2)

def fromVersionOn (v : ℕ) (events : List (StoredEvent E)) : List (StoredEvent E) :=
  events.filter fun e => v ≤ e.version

/-! ## `MemoryEventStore` -/

/-- The streams; one that was never written to is empty. -/
abbrev Streams (E : Type) : Type := String → List (StoredEvent E)

namespace Memory

def read (streams : Streams E) (id : String) (v : ℕ) : Answer E :=
  .ok (fromVersionOn v (streams id))

/-- Every call is one step, under the mutex. -/
def machine : Machine (Streams E) (Request E) (Request E) (Answer E) Unit where
  start _ q := q
  step t q _ streams :=
    match q with
    | .append id events =>
        let out := assignVersions t 0 (streams id) events
        some (.inr (.ok out.2), Function.update streams id out.1)
    | .read id v => some (.inr (read streams id v), streams)

end Memory

/-! ## `FileJournal` -/

structure JournalRecord (P : Type) where
  streamId : String
  eventId : ℕ × ℕ
  version : ℕ
  payload : P
  deriving DecidableEq, Repr

def JournalRecord.stored {P : Type} (r : JournalRecord P) : StoredEvent P :=
  ⟨r.eventId, r.version, r.payload⟩

def StoredEvent.record {P : Type} (id : String) (e : StoredEvent P) : JournalRecord P :=
  ⟨id, e.eventId, e.version, e.payload⟩

/-- What the file system lets a step do: whether the file can be opened, and which of the lines can
    be written. -/
structure Disk where
  opens : Bool
  writes : ℕ → Bool
  message : String

namespace File

variable (codec : Codec E J)

/-- The lines of the file, one record each. -/
abbrev Lines (J : Type) : Type := List (JournalRecord J)

/-- Opening the file comes before reading it. -/
def opened {α : Type} (disk : Disk) (r : Except EventStoreError α) : Except EventStoreError α :=
  if disk.opens then r else .error (.io disk.message)

def parseLine (line : JournalRecord J) : Except EventStoreError (JournalRecord E) :=
  match codec.decode line.payload with
  | .ok payload => .ok ⟨line.streamId, line.eventId, line.version, payload⟩
  | .error e => .error (.serde e)

/-- The streams of the file, each sorted by version (a stable sort). -/
def readAll (lines : Lines J) : Except EventStoreError (Streams E) := do
  let records ← lines.mapM (parseLine codec)
  .ok fun id =>
    ((records.filter fun r => r.streamId = id).map JournalRecord.stored).insertionSort
      fun a b => a.version ≤ b.version

/-- Encode and write one record after the other, up to the first that fails. -/
def writeRecords (disk : Disk) :
    ℕ → List (JournalRecord E) → Lines J → Except EventStoreError Unit × Lines J
  | _, [], lines => (.ok (), lines)
  | i, record :: records, lines =>
      match codec.encode record.payload with
      | .error e => (.error (.serde e), lines)
      | .ok json =>
          if disk.writes i then
            writeRecords disk (i + 1) records
              (lines ++ [⟨record.streamId, record.eventId, record.version, json⟩])
          else (.error (.io disk.message), lines)

def appendRecords (disk : Disk) (records : List (JournalRecord E)) (lines : Lines J) :
    Except EventStoreError Unit × Lines J :=
  if disk.opens then writeRecords codec disk 0 records lines
  else (.error (.io disk.message), lines)

def read (lines : Lines J) (id : String) (v : ℕ) : Answer E :=
  (readAll codec lines).map fun streams => fromVersionOn v (streams id)

/-- An append that has read the file has its records ready to be written. -/
inductive Local (E : Type) where
  | requested (q : Request E)
  | writing (records : List (JournalRecord E)) (out : List (StoredEvent E))
  deriving DecidableEq, Repr

def machine : Machine (Lines J) (Request E) (Local E) (Answer E) Disk where
  start _ q := .requested q
  step t l disk lines :=
    match l with
    | .requested (.append id events) =>
        match opened disk (readAll codec lines) with
        | .error e => some (.inr (.error e), lines)
        | .ok streams =>
            let out := (assignVersions t 0 (streams id) events).2
            some (.inl (.writing (out.map (StoredEvent.record id)) out), lines)
    | .requested (.read id v) => some (.inr (opened disk (read codec lines id v)), lines)
    | .writing records out =>
        let written := appendRecords codec disk records lines
        match written.1 with
        | .ok _ => some (.inr (.ok out), written.2)
        | .error e => some (.inr (.error e), written.2)

end File

/-! ## `SqlEventJournal` over `TestSqlJournalBackend` -/

structure JournalRow (J : Type) where
  version : ℕ
  eventId : ℕ × ℕ
  json : J

namespace Sql

variable (codec : Codec E J)

abbrev Rows (J : Type) : Type := String → List (JournalRow J)

/-- A row whose version is taken is a conflict. -/
def insertRow (rows : Rows J) (id : String) (row : JournalRow J) :
    Except EventStoreError (Rows J) :=
  if (rows id).any fun r => r.version = row.version then
    .error (.versionConflict id (row.version - 1) row.version)
  else
    .ok (Function.update rows id
      ((rows id ++ [row]).insertionSort fun a b => a.version ≤ b.version))

def selectFrom (rows : Rows J) (id : String) (v : ℕ) : List (JournalRow J) :=
  (rows id).filter fun r => v ≤ r.version

def decodeRow (row : JournalRow J) : Except EventStoreError (StoredEvent E) :=
  match codec.decode row.json with
  | .ok payload => .ok ⟨row.eventId, row.version, payload⟩
  | .error e => .error (.io e)

def read (rows : Rows J) (id : String) (v : ℕ) : Answer E :=
  (selectFrom rows id v).mapM (decodeRow codec)

def latest (rows : Rows J) (id : String) : ℕ :=
  ((selectFrom rows id 1).map JournalRow.version).max?.getD 0

/-- An append that has selected `latest` goes on with the event at place `i` of its batch. -/
inductive Local (E : Type) where
  | requested (q : Request E)
  | inserting (id : String) (latest i : ℕ) (payload : E) (events : List E)
      (out : List (StoredEvent E))
  deriving DecidableEq, Repr

/-- What is left of the loop: the next event, or the answer. -/
def continue_ (id : String) (latest i : ℕ) (out : List (StoredEvent E)) :
    List E → Local E ⊕ Answer E
  | [] => .inr (.ok out)
  | payload :: events => .inl (.inserting id latest i payload events out)

def machine : Machine (Rows J) (Request E) (Local E) (Answer E) Unit where
  start _ q := .requested q
  step t l _ rows :=
    match l with
    | .requested (.append id events) => some (continue_ id (latest rows id) 0 [] events, rows)
    | .requested (.read id v) => some (.inr (read codec rows id v), rows)
    | .inserting id latest i payload events out =>
        let version := latest + i + 1
        match codec.encode payload with
        | .error e => some (.inr (.error (.io e)), rows)
        | .ok json =>
            match insertRow rows id ⟨version, (t, i), json⟩ with
            | .error e => some (.inr (.error e), rows)
            | .ok rows' =>
                some (continue_ id latest (i + 1) (out ++ [⟨(t, i), version, payload⟩]) events,
                  rows')

end Sql

end IdEffect.Events
