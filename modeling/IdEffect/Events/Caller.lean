import IdEffect.Lib.Refine
import IdEffect.Lib.Serde
import IdEffect.Events.FileJournal

set_option autoImplicit false

/-! # Event stores with one caller

A caller whose calls do not overlap sees each of them run to its end. Here the three stores are
written that way, as implementations of one trait, over any serializer: the memory store as its
single step, the file journal as reading the file followed by writing the records, the SQL journal
as its loop of inserts. Where a value decodes to what was encoded, these are the machines of
`Events.Store` run by one caller (`File.machine_append`, `Sql.machine_append`).

Each store keeps streams of events, in a representation of its own (`Stores.contents`). As long as
the payloads round-trip, an append adds its batch to one of them with the next versions, a read
selects from it, and the latest version is its length (`Stores`); with this the three answer every
sequence of calls as the histories of payloads do. -/

namespace IdEffect.Events

open Refine

variable {S E J St Cmd Err : Type}

/-! ## The trait -/

/-- One caller's operations on the state of a store; an append gets the number of its call, for the
    ids of its events. -/
structure EventStore (S E : Type) where
  append : ℕ → String → List E → S → Answer E × S
  read : String → ℕ → S → Answer E
  latestVersion : String → S → Except EventStoreError ℕ

namespace Memory

def append (t : ℕ) (id : String) (events : List E) (streams : Streams E) : Answer E × Streams E :=
  let out := assignVersions t 0 (streams id) events
  (.ok out.2, Function.update streams id out.1)

def store : EventStore (Streams E) E where
  append := append
  read id v streams := read streams id v
  latestVersion id streams := .ok (streams id).length

end Memory

namespace File

variable (serde : Serde E J)

def decodeLine (line : JournalRecord J) : Except EventStoreError (JournalRecord E) :=
  match serde.decode line.payload with
  | .ok payload => .ok ⟨line.streamId, line.eventId, line.version, payload⟩
  | .error e => .error (.serde e)

/-- `read_all`. -/
def streamsOf (lines : Lines J) : Except EventStoreError (Streams E) := do
  let records ← lines.mapM (decodeLine serde)
  .ok fun id =>
    ((records.filter fun r => r.streamId = id).map JournalRecord.stored).insertionSort
      fun a b => a.version ≤ b.version

/-- `append_records`. -/
def appendLines : List (JournalRecord E) → Lines J → Except EventStoreError Unit × Lines J
  | [], lines => (.ok (), lines)
  | record :: records, lines =>
      match serde.encode record.payload with
      | .error e => (.error (.serde e), lines)
      | .ok json =>
          appendLines records
            (lines ++ [⟨record.streamId, record.eventId, record.version, json⟩])

def append (t : ℕ) (id : String) (events : List E) (lines : Lines J) : Answer E × Lines J :=
  match streamsOf serde lines with
  | .error e => (.error e, lines)
  | .ok streams =>
      let out := (assignVersions t 0 (streams id) events).2
      let written := appendLines serde (out.map (StoredEvent.record id)) lines
      (written.1.map fun _ => out, written.2)

def store : EventStore (Lines J) E where
  append := append serde
  read id v lines := (streamsOf serde lines).map fun streams => fromVersionOn v (streams id)
  latestVersion id lines := (streamsOf serde lines).map fun streams => (streams id).length

end File

namespace Sql

variable (serde : Serde E J)

def decodePayload (row : JournalRow J) : Except EventStoreError (StoredEvent E) :=
  match serde.decode row.json with
  | .ok payload => .ok ⟨row.eventId, row.version, payload⟩
  | .error e => .error (.io e)

/-- The loop of `append` from place `i` of the batch on. -/
def insertRows (t : ℕ) (id : String) (latest : ℕ) :
    ℕ → List (StoredEvent E) → List E → Rows J → Answer E × Rows J
  | _, out, [], rows => (.ok out, rows)
  | i, out, payload :: events, rows =>
      let version := latest + i + 1
      match serde.encode payload with
      | .error e => (.error (.io e), rows)
      | .ok json =>
          match insertRow rows id ⟨version, (t, i), json⟩ with
          | .error e => (.error e, rows)
          | .ok rows' =>
              insertRows t id latest (i + 1) (out ++ [⟨(t, i), version, payload⟩]) events rows'

def store : EventStore (Rows J) E where
  append t id events rows := insertRows serde t id (latest rows id) 0 [] events rows
  read id v rows := (selectFrom rows id v).mapM (decodePayload serde)
  latestVersion id rows := .ok (latest rows id)

end Sql

/-! ## Commands and projections -/

structure Projection (St E : Type) where
  initial : St
  apply : St → E → St

def runProjection (p : Projection St E) (events : List E) : St :=
  events.foldl p.apply p.initial

def runProjectionFromStore (store : EventStore S E) (id : String) (v : ℕ) (p : Projection St E)
    (st : S) : Except EventStoreError St :=
  (store.read id v st).map fun stored => runProjection p (stored.map StoredEvent.payload)

inductive DispatchError (Err : Type) where
  | command (e : Err)
  | store (e : EventStoreError)

/-- `handle` is what the command handler makes of a command. -/
def dispatchCommand (handle : Cmd → Except Err (List E)) (store : EventStore S E) (t : ℕ)
    (id : String) (p : Projection St E) (command : Cmd) (st : S) :
    Except (DispatchError Err) St × S :=
  match handle command with
  | .error e => (.error (.command e), st)
  | .ok events =>
      match store.append t id events st with
      | (.error e, st') => (.error (.store e), st')
      | (.ok _, st') => ((runProjectionFromStore store id 1 p st').mapError .store, st')

/-! ## Sequences of calls -/

inductive Op (E : Type) where
  | append (id : String) (events : List E)
  | read (id : String) (fromVersion : ℕ)
  | latestVersion (id : String)

/-- The payloads an operation hands over. -/
def Op.payloads : Op E → List E
  | .append _ events => events
  | .read _ _ | .latestVersion _ => []

/-- What a caller sees of an answer, event ids aside: versions with their payloads, or a version. -/
inductive Reply (E : Type) where
  | events (r : Except EventStoreError (List (ℕ × E)))
  | version (r : Except EventStoreError ℕ)

def withVersions (l : List (StoredEvent E)) : List (ℕ × E) :=
  l.map fun e => (e.version, e.payload)

/-- A call on a store; the state counts the calls. -/
def EventStore.call (store : EventStore S E) (s : ℕ × S) : Op E → Reply E × ℕ × S
  | .append id events =>
      let out := store.append s.1 id events s.2
      (.events (out.1.map withVersions), s.1 + 1, out.2)
  | .read id v => (.events ((store.read id v s.2).map withVersions), s.1 + 1, s.2)
  | .latestVersion id => (.version (store.latestVersion id s.2), s.1 + 1, s.2)

/-- The payloads of every stream, in the order in which they were appended. -/
abbrev History (E : Type) : Type := String → List E

/-- Payloads with consecutive versions. -/
def numbered : ℕ → List E → List (ℕ × E)
  | _, [] => []
  | v, e :: es => (v, e) :: numbered (v + 1) es

def History.call (h : History E) : Op E → Reply E × History E
  | .append id events =>
      (.events (.ok (numbered ((h id).length + 1) events)), Function.update h id (h id ++ events))
  | .read id v => (.events (.ok ((numbered 1 (h id)).filter fun p => v ≤ p.1)), h)
  | .latestVersion id => (.version (.ok (h id).length), h)

/-! ## One caller on the machines -/

def Codec.serde (codec : Codec E J) : Serde E J := ⟨codec.encode, codec.decode⟩

namespace Memory

theorem machine_append (t : ℕ) (id : String) (es : List E) (streams : Streams E) :
    (machine (E := E)).Alone t () (.append id es) streams (append t id es streams).1
      (append t id es streams).2 :=
  .done rfl

end Memory

namespace File

variable (codec : Codec E J)

theorem writeRecords_goodDisk (i : ℕ) (records : List (JournalRecord E)) (lines : Lines J) :
    writeRecords codec goodDisk i records lines = appendLines codec.serde records lines := by
  induction records generalizing i lines with
  | nil => rfl
  | cons record records ih =>
      simp only [writeRecords, appendLines, Codec.serde]
      cases codec.encode record.payload with
      | error e => rfl
      | ok json => exact ih (i + 1) _

theorem step_writing_goodDisk (t : ℕ) (records : List (JournalRecord E))
    (out : List (StoredEvent E)) (lines : Lines J) :
    (machine codec).step t (.writing records out) goodDisk lines
      = some (.inr ((appendLines codec.serde records lines).1.map fun _ => out),
          (appendLines codec.serde records lines).2) := by
  have hwritten : appendRecords codec goodDisk records lines
      = appendLines codec.serde records lines := by
    rw [appendRecords, writeRecords_goodDisk]
    rfl
  simp only [machine, hwritten]
  cases (appendLines codec.serde records lines).1 <;> rfl

/-- On a disk that works, an append with no other call in between. -/
theorem machine_append (t : ℕ) (id : String) (es : List E) (lines : Lines J) :
    (machine codec).Alone t goodDisk (.requested (.append id es)) lines
      (append codec.serde t id es lines).1 (append codec.serde t id es lines).2 := by
  have hread : streamsOf codec.serde lines = readAll codec lines := rfl
  rw [append, hread]
  cases hstreams : readAll codec lines with
  | error e =>
      refine .done ?_
      simp only [machine, opened, goodDisk, if_true, hstreams]
  | ok streams =>
      -- the first step reads the file, the second writes the records
      have hfirst : (machine codec).step t (.requested (.append id es)) goodDisk lines
          = some (.inl (.writing
              ((assignVersions t 0 (streams id) es).2.map (StoredEvent.record id))
              (assignVersions t 0 (streams id) es).2), lines) := by
        simp only [machine, opened, goodDisk, if_true, hstreams]
      exact .next hfirst (.done (step_writing_goodDisk codec t _ _ lines))

end File

namespace Sql

variable (codec : Codec E J)

/-- The loop from any place on. -/
theorem machine_insertRows (t : ℕ) (id : String) (latest i : ℕ) (payload : E) (events : List E)
    (out : List (StoredEvent E)) (rows : Rows J) :
    (machine codec).Alone t () (.inserting id latest i payload events out) rows
      (insertRows codec.serde t id latest i out (payload :: events) rows).1
      (insertRows codec.serde t id latest i out (payload :: events) rows).2 := by
  induction events generalizing i payload out rows with
  | nil =>
      refine .done ?_
      simp only [machine, insertRows, Codec.serde]
      cases codec.encode payload with
      | error e => rfl
      | ok json =>
          cases hins : insertRow rows id ⟨latest + i + 1, (t, i), json⟩ with
          | error e => simp only [hins]
          | ok rows' => simp only [hins, continue_]
  | cons next events ih =>
      rw [insertRows]
      cases hjson : codec.encode payload with
      | error e =>
          refine .done ?_
          simp only [machine, Codec.serde, hjson]
      | ok json =>
          cases hins : insertRow rows id ⟨latest + i + 1, (t, i), json⟩ with
          | error e =>
              refine .done ?_
              simp only [machine, Codec.serde, hjson, hins]
          | ok rows' =>
              simp only [Codec.serde, hjson, hins]
              refine .next ?_ (ih (i + 1) next _ rows')
              simp only [machine, hjson, hins, continue_]

/-- An append with no other call in between: the selection of the latest version, then the loop. -/
theorem machine_append (t : ℕ) (id : String) (es : List E) (rows : Rows J) :
    (machine codec).Alone t () (.requested (.append id es)) rows
      ((store codec.serde).append t id es rows).1 ((store codec.serde).append t id es rows).2 := by
  cases es with
  | nil => exact .done rfl
  | cons payload events =>
      exact .next rfl (machine_insertRows codec t id _ 0 payload events [] rows)

end Sql

/-! ## Payloads that round-trip -/

open Classical in
/-- The serializer where it is lawful: on the payloads that round-trip. -/
noncomputable def lawful (serde : Serde E J) : Codec E J where
  encode e := (serde.encode e).bind fun j =>
    if serde.decode j = .ok e then .ok j else .error "does not round-trip"
  decode := serde.decode
  decode_encode e j h := by
    cases hj : serde.encode e with
    | error m =>
        rw [hj] at h
        cases h
    | ok j' =>
        rw [hj, Except.bind] at h
        split_ifs at h with hdecode
        rw [← Except.ok.inj h]
        exact hdecode

theorem encode_lawful {serde : Serde E J} {e : E} {j : J} (h : serde.RoundTrips e)
    (hj : serde.encode e = .ok j) : (lawful serde).encode e = .ok j := by
  simp only [lawful, hj, Except.bind, if_pos (h.decode_of_encode hj)]

/-! ## What a store keeps -/

/-- A store of events whose payloads are `ok`. Its states are those with `I`; `contents` are its
    streams, with the versions 1, 2, ... each. -/
structure Stores (store : EventStore S E) (ok : E → Prop) (I : S → Prop)
    (contents : S → Streams E) : Prop where
  range : ∀ st, I st → ∀ id,
    (contents st id).map StoredEvent.version = List.range' 1 (contents st id).length
  read : ∀ st, I st → ∀ id v, store.read id v st = .ok (fromVersionOn v (contents st id))
  latestVersion : ∀ st, I st → ∀ id, store.latestVersion id st = .ok (contents st id).length
  append : ∀ st, I st → ∀ t id es, (∀ e ∈ es, ok e) →
    ∃ st', store.append t id es st = (.ok (stamp t (contents st id).length 0 es), st') ∧ I st'
      ∧ contents st' = Function.update (contents st) id
          (contents st id ++ stamp t (contents st id).length 0 es)

namespace Memory

theorem stores (ok : E → Prop) : Stores store ok Ordered fun streams => streams where
  range streams h id := by
    have hrange := h id
    rwa [versions, List.length_map] at hrange
  read _ _ _ _ := rfl
  latestVersion _ _ _ := rfl
  append streams h t id es _ := by
    refine ⟨_, ?_, h.append t id es, rfl⟩
    simp only [store, append, assignVersions_eq]

end Memory

namespace File

variable {serde : Serde E J}

theorem appendLines_ok {records : List (JournalRecord E)}
    (h : ∀ r ∈ records, serde.RoundTrips r.payload) (lines : Lines J) :
    ∃ new, appendLines serde records lines = (.ok (), lines ++ new)
      ∧ List.Forall₂ (Encodes (lawful serde)) records new := by
  induction records generalizing lines with
  | nil => exact ⟨[], by rw [appendLines, List.append_nil], .nil⟩
  | cons r records ih =>
      obtain ⟨j, hj, -⟩ := h r (List.mem_cons_self ..)
      have hr := encode_lawful (h r (List.mem_cons_self ..)) hj
      obtain ⟨new, hnew, hall⟩ := ih (fun r hr => h r (List.mem_cons_of_mem _ hr))
        (lines ++ [⟨r.streamId, r.eventId, r.version, j⟩])
      refine ⟨⟨r.streamId, r.eventId, r.version, j⟩ :: new, ?_, .cons ⟨rfl, rfl, rfl, hr⟩ hall⟩
      rw [appendLines, hj]
      simp only [hnew, List.append_assoc, List.singleton_append]

/-- The file of one caller: it can be read, and every stream is in order. -/
def InOrder (serde : Serde E J) (lines : Lines J) : Prop :=
  Ordered (lawful serde) lines ∧ ∀ id, (versions lines id).Nodup

theorem InOrder.length {lines : Lines J} (h : InOrder serde lines) (id : String) :
    (versions lines id).length = (persisted (lawful serde) lines id).length := by
  rw [← h.1.map_version, List.length_map]

theorem InOrder.streamsOf {lines : Lines J} (h : InOrder serde lines) :
    streamsOf serde lines = .ok fun id =>
      (persisted (lawful serde) lines id).insertionSort fun a b => a.version ≤ b.version :=
  h.1.readAll

/-- A write of the batch that comes next. -/
theorem InOrder.write {lines new : Lines J} (h : InOrder serde lines) {t : ℕ} {id : String}
    {es : List E} (hnew : List.Forall₂ (Encodes (lawful serde))
      ((stamp t (versions lines id).length 0 es).map (StoredEvent.record id)) new) :
    InOrder serde (lines ++ new)
      ∧ persisted (lawful serde) (lines ++ new)
        = Function.update (persisted (lawful serde) lines) id
            (persisted (lawful serde) lines id ++ stamp t (versions lines id).length 0 es) := by
  have hlength : ((stamp t (versions lines id).length 0 es).map (StoredEvent.record id)).length
      = es.length := by
    rw [List.length_map, length_stamp]
  have hbatch := fun id' => @written_batch _ _ _ lines _ _ _ es.length es new le_rfl
    (by rwa [← hlength, List.take_length]) id'
  -- the versions of the stream it is written to go on, those of the others stay
  have hrange : ∀ id', versions (lines ++ new) id'
      = List.range' 1 (versions (lines ++ new) id').length := by
    intro id'
    rw [(hbatch id').1]
    split_ifs with hid
    · subst hid
      exact range_append (h.1.range id' (h.2 id')) es.length
    · rw [List.append_nil]
      exact h.1.range id' (h.2 id')
  refine ⟨⟨⟨fun id' _ => hrange id', fun r hr => ?_⟩, fun id' => ?_⟩, funext fun id' => ?_⟩
  · rcases List.mem_append.mp hr with hr | hr
    · exact h.1.decodes r hr
    · exact decodes_new hnew r hr
  · rw [hrange id']
    exact List.nodup_range'
  · have htake := @List.take_length _ (stamp t (versions lines id).length 0 es)
    rw [length_stamp] at htake
    rw [(hbatch id').2, htake]
    by_cases hid : id' = id
    · subst hid
      rw [if_pos rfl, Function.update_self]
    · rw [if_neg hid, List.append_nil, Function.update_of_ne hid]

theorem stores : Stores (store serde) serde.RoundTrips (InOrder serde)
    (persisted (lawful serde)) where
  range lines h id := by
    rw [h.1.map_version, ← h.length]
    exact h.1.range id (h.2 id)
  read lines h id v := h.1.read (h.2 id) v
  latestVersion lines h id := by
    simp only [store, h.streamsOf]
    exact congrArg Except.ok (List.length_insertionSort ..)
  append lines h t id es hes := by
    have hrecords : ∀ r ∈ (stamp t (versions lines id).length 0 es).map (StoredEvent.record id),
        serde.RoundTrips r.payload := by
      intro r hr
      obtain ⟨e, he, rfl⟩ := List.mem_map.mp hr
      refine hes e.payload ?_
      rw [← @map_payload_stamp E t (versions lines id).length 0 es]
      exact List.mem_map.mpr ⟨e, he, rfl⟩
    obtain ⟨new, hwritten, hnew⟩ := appendLines_ok hrecords lines
    obtain ⟨horder, hcontents⟩ := h.write hnew
    rw [h.length] at hwritten hcontents
    refine ⟨lines ++ new, ?_, horder, hcontents⟩
    simp only [store, append, h.streamsOf, assignVersions_eq, List.length_insertionSort, hwritten]
    rfl

end File

namespace Sql

variable {serde : Serde E J}

theorem latest_eq {rows : Rows J} (h : Ordered (lawful serde) rows) (id : String) :
    latest rows id = (versions rows id).length := by
  refine le_antisymm (latest_le h id) ?_
  rcases Nat.eq_zero_or_pos (versions rows id).length with hzero | hpos
  · rw [hzero]
    exact Nat.zero_le _
  -- the last version is among those selected
  · have hmem : (versions rows id).length ∈ versions rows id := by
      rw [h.range id, List.length_range', List.mem_range'_1]
      omega
    obtain ⟨r, hr, hversion⟩ := List.mem_map.mp hmem
    refine List.le_max?_getD_of_mem (List.mem_map.mpr ⟨r, List.mem_filter.mpr ⟨hr, ?_⟩, hversion⟩)
    rw [hversion]
    exact decide_eq_true hpos

/-- The loop inserts the batch after what it has selected. -/
theorem insertRows_ok (t : ℕ) {id : String} {latest i : ℕ} (out : List (StoredEvent E))
    {es : List E} {rows : Rows J} (h : Ordered (lawful serde) rows)
    (hes : ∀ e ∈ es, serde.RoundTrips e) (hlatest : latest + i = (versions rows id).length) :
    ∃ rows', insertRows serde t id latest i out es rows
        = (.ok (out ++ stamp t (latest + i) i es), rows')
      ∧ Ordered (lawful serde) rows'
      ∧ persisted (lawful serde) rows' = Function.update (persisted (lawful serde) rows) id
          (persisted (lawful serde) rows id ++ stamp t (latest + i) i es) := by
  induction es generalizing i out rows with
  | nil =>
      refine ⟨rows, ?_, h, ?_⟩
      · rw [insertRows, stamp, List.append_nil]
      · rw [stamp, List.append_nil, Function.update_eq_self]
  | cons payload events ih =>
      obtain ⟨j, hj, -⟩ := hes payload (List.mem_cons_self ..)
      have hencode := encode_lawful (hes payload (List.mem_cons_self ..)) hj
      have hrow : (⟨latest + i + 1, (t, i), j⟩ : JournalRow J).version
          = (versions rows id).length + 1 := by rw [← hlatest]
      have hdecode := decodeRow_encoded hencode (latest + i + 1) (t, i)
      -- the row is the next one, so the loop goes on
      have hins := insertRow_append (h.range id) hrow
      have hnext : latest + (i + 1) = (versions (Function.update rows id
          (rows id ++ [⟨latest + i + 1, (t, i), j⟩])) id).length := by
        rw [versions, Function.update_self, List.map_append, List.length_append, ← versions,
          ← hlatest]
        rfl
      obtain ⟨rows', hloop, hrows', hcontents⟩ := ih (out ++ [⟨(t, i), latest + i + 1, payload⟩])
        (h.snoc hrow hdecode) (fun e he => hes e (List.mem_cons_of_mem _ he)) hnext
      refine ⟨rows', ?_, hrows', ?_⟩
      · simp only [insertRows, hj, hins, hloop]
        rw [stamp, List.append_assoc]
        rfl
      · rw [hcontents]
        funext id'
        by_cases hid : id' = id
        · subst hid
          rw [Function.update_self, Function.update_self, persisted_snoc hdecode, if_pos rfl, stamp,
            List.append_assoc]
          rfl
        · rw [Function.update_of_ne hid, Function.update_of_ne hid, persisted_snoc hdecode,
            if_neg hid, List.append_nil]

theorem map_version {rows : Rows J} (h : Ordered (lawful serde) rows) (id : String) :
    (persisted (lawful serde) rows id).map StoredEvent.version = versions rows id :=
  map_decoded (h.decodes id) fun _ _ => decodeRow_version

theorem stores : Stores (store serde) serde.RoundTrips (Ordered (lawful serde))
    (persisted (lawful serde)) where
  range rows h id := by
    have hversions := map_version h id
    rw [hversions, ← List.length_map StoredEvent.version, hversions]
    exact h.range id
  read rows h id v := h.read id v
  latestVersion rows h id := by
    simp only [store]
    rw [latest_eq h, ← map_version h, List.length_map]
  append rows h t id es hes := by
    obtain ⟨rows', hloop, hrows', hcontents⟩ := insertRows_ok t [] h hes
      (show latest rows id + 0 = _ from latest_eq h id)
    have hlength : latest rows id + 0 = (persisted (lawful serde) rows id).length := by
      rw [Nat.add_zero, latest_eq h, ← map_version h, List.length_map]
    rw [hlength] at hloop hcontents
    exact ⟨rows', hloop, hrows', hcontents⟩

end Sql

/-! ## Any store against the histories -/

theorem withVersions_of_range {b : ℕ} {l : List (StoredEvent E)}
    (h : l.map StoredEvent.version = List.range' b l.length) :
    withVersions l = numbered b (l.map StoredEvent.payload) := by
  induction l generalizing b with
  | nil => rfl
  | cons e l ih =>
      rw [List.map_cons, List.length_cons, List.range'_succ] at h
      obtain ⟨hversion, hrest⟩ := List.cons.inj h
      rw [List.map_cons, numbered, ← ih hrest, ← hversion]
      rfl

theorem withVersions_stamp (t base i : ℕ) (es : List E) :
    withVersions (stamp t base i es) = numbered (base + 1) es := by
  rw [@withVersions_of_range _ (base + 1), map_payload_stamp]
  rw [map_version_stamp, length_stamp]

theorem withVersions_fromVersionOn (v : ℕ) (l : List (StoredEvent E)) :
    withVersions (fromVersionOn v l) = (withVersions l).filter fun p => v ≤ p.1 := by
  rw [withVersions, withVersions, fromVersionOn, List.filter_map]
  rfl

/-- What was appended to a stream by a sequence of calls. -/
def appended (id : String) : List (Op E) → List E
  | [] => []
  | .append id' events :: ops => (if id' = id then events else []) ++ appended id ops
  | .read _ _ :: ops | .latestVersion _ :: ops => appended id ops

theorem exec_history (h : History E) (ops : List (Op E)) (id : String) :
    (exec History.call h ops).2 id = h id ++ appended id ops := by
  induction ops generalizing h with
  | nil => exact (List.append_nil _).symm
  | cons op ops ih =>
      cases op with
      | append id' events =>
          simp only [exec, ih, appended, History.call]
          by_cases hid : id' = id
          · subst hid
            rw [Function.update_self, if_pos rfl, List.append_assoc]
          · rw [Function.update_of_ne (Ne.symm hid), if_neg hid, List.nil_append]
      | read id' v =>
          rw [exec, ih, appended]
          rfl
      | latestVersion id' =>
          rw [exec, ih, appended]
          rfl

/-- What the state of a store after the calls `ops` answers: the latest version is the largest one
    that is read, projections fold what was appended, and so does the answer to a command, whose
    events are stored by one more append; a command that is rejected stores nothing. -/
structure Serves (store : EventStore S E) (ok : E → Prop) (ops : List (Op E)) (s : ℕ × S) :
    Prop where
  latestVersion : ∀ id, store.latestVersion id s.2
    = (store.read id 1 s.2).map fun l => (l.map StoredEvent.version).max?.getD 0
  projection : ∀ (St : Type) (p : Projection St E) (id : String),
    runProjectionFromStore store id 1 p s.2 = .ok ((appended id ops).foldl p.apply p.initial)
  dispatch : ∀ (St Cmd Err : Type) (p : Projection St E) (id : String)
    (handle : Cmd → Except Err (List E)) (command : Cmd) (events : List E),
    handle command = .ok events → (∀ e ∈ events, ok e) →
    ∃ st, dispatchCommand handle store s.1 id p command s.2
        = (.ok ((appended id ops ++ events).foldl p.apply p.initial), st)
      ∧ st = (store.call s (.append id events)).2.2
      ∧ runProjectionFromStore store id 1 p st
        = .ok ((appended id ops ++ events).foldl p.apply p.initial)
  rejected : ∀ (St Cmd Err : Type) (p : Projection St E) (id : String)
    (handle : Cmd → Except Err (List E)) (command : Cmd) (e : Err), handle command = .error e →
    dispatchCommand handle store s.1 id p command s.2 = (.error (.command e), s.2)

namespace Stores

variable {store : EventStore S E} {ok : E → Prop} {I : S → Prop} {contents : S → Streams E}

/-- The store holds the history. -/
def Holds (I : S → Prop) (contents : S → Streams E) (s : ℕ × S) (h : History E) : Prop :=
  I s.2 ∧ ∀ id, (contents s.2 id).map StoredEvent.payload = h id

/-- A store answers each call as the history does. -/
theorem simulates (hs : Stores store ok I contents) :
    SimulatesOn (fun op : Op E => ∀ e ∈ op.payloads, ok e) store.call History.call
      (Holds I contents) := by
  rintro ⟨t, st⟩ h op hop ⟨hI, hpayloads⟩
  have hlength : ∀ id, (contents st id).length = (h id).length := by
    intro id
    rw [← hpayloads, List.length_map]
  cases op with
  | append id events =>
      obtain ⟨st', happend, hI', hcontents⟩ := hs.append st hI t id events hop
      simp only [EventStore.call, History.call, happend]
      refine ⟨?_, hI', fun id' => ?_⟩
      · rw [← hlength, ← withVersions_stamp t _ 0]
        rfl
      · rw [hcontents]
        by_cases hid : id' = id
        · subst hid
          rw [Function.update_self, Function.update_self, List.map_append, hpayloads,
            map_payload_stamp]
        · rw [Function.update_of_ne hid, Function.update_of_ne hid, hpayloads]
  | read id v =>
      simp only [EventStore.call, History.call, hs.read st hI]
      refine ⟨?_, hI, hpayloads⟩
      rw [← hpayloads, ← withVersions_of_range (hs.range st hI id), ← withVersions_fromVersionOn]
      rfl
  | latestVersion id =>
      simp only [EventStore.call, History.call, hs.latestVersion st hI]
      exact ⟨by rw [hlength], hI, hpayloads⟩

/-- Reading from version 1 on leaves nothing out. -/
theorem read_one (hs : Stores store ok I contents) {st : S} (hI : I st) (id : String) :
    store.read id 1 st = .ok (contents st id) := by
  rw [hs.read st hI, fromVersionOn, List.filter_eq_self.mpr]
  intro e he
  have hmem : e.version ∈ (contents st id).map StoredEvent.version := List.mem_map.mpr ⟨e, he, rfl⟩
  rw [hs.range st hI, List.mem_range'_1] at hmem
  exact decide_eq_true hmem.1

theorem max_range (n : ℕ) : (List.range' 1 n).max?.getD 0 = n := by
  cases n with
  | zero => rfl
  | succ n =>
      have hmax : (List.range' 1 (n + 1)).max? = some (n + 1) := by
        refine List.max?_eq_some_iff.mpr ⟨List.mem_range'_1.mpr ?_, fun m hm => ?_⟩
        · omega
        · rw [List.mem_range'_1] at hm
          omega
      rw [hmax]
      rfl

theorem projection (hs : Stores store ok I contents) {s : ℕ × S} {h : History E}
    (hh : Holds I contents s h) {St : Type} (p : Projection St E) (id : String) :
    runProjectionFromStore store id 1 p s.2 = .ok ((h id).foldl p.apply p.initial) := by
  rw [runProjectionFromStore, hs.read_one hh.1, ← hh.2 id]
  rfl

theorem serves (hs : Stores store ok I contents) {ops : List (Op E)} {s : ℕ × S}
    (hh : Holds I contents s fun id => appended id ops) : Serves store ok ops s where
  latestVersion id := by
    rw [hs.latestVersion s.2 hh.1, hs.read_one hh.1, ← max_range (contents s.2 id).length,
      ← hs.range s.2 hh.1]
    rfl
  projection _ p id := hs.projection hh p id
  dispatch _ _ _ p id handle command events hhandle hevents := by
    -- the append leads to the history with the events of the command
    obtain ⟨-, hh'⟩ := hs.simulates s _ (.append id events) hevents hh
    have hproj := hs.projection hh' p id
    simp only [History.call, Function.update_self] at hproj
    obtain ⟨st', happend, -⟩ := hs.append s.2 hh.1 s.1 id events hevents
    refine ⟨_, ?_, rfl, hproj⟩
    simp only [EventStore.call, happend] at hproj ⊢
    simp only [dispatchCommand, hhandle, happend, hproj]
    rfl
  rejected _ _ _ p id handle command e hhandle := by
    simp only [dispatchCommand, hhandle]

/-- **A store against the histories**, from any state without events. -/
theorem answers (hs : Stores store ok I contents) {ops : List (Op E)} (st : S)
    (hI : I st) (hempty : ∀ id, contents st id = []) (hops : ∀ op ∈ ops, ∀ e ∈ op.payloads, ok e) :
    (exec store.call (0, st) ops).1 = (exec History.call (fun _ => []) ops).1
      ∧ Serves store ok ops (exec store.call (0, st) ops).2 := by
  have hinit : Holds I contents (0, st) fun _ => [] := ⟨hI, fun id => by rw [hempty]; rfl⟩
  obtain ⟨hreplies, hlast⟩ := hs.simulates.exec hinit hops
  refine ⟨hreplies, hs.serves ⟨hlast.1, fun id => ?_⟩⟩
  rw [hlast.2, exec_history, List.nil_append]

end Stores

/-! ## The three stores -/

/-- **Interchangeable.** As long as all payloads round-trip, the three stores give one caller the
    same versions and payloads at every call, and serve the same latest versions, projections and
    commands after it. -/
theorem stores_interchangeable (serde : Serde E J) (ops : List (Op E))
    (hops : ∀ op ∈ ops, ∀ e ∈ op.payloads, serde.RoundTrips e) :
    (exec (File.store serde).call (0, []) ops).1
        = (exec Memory.store.call (0, fun _ => []) ops).1
      ∧ (exec (Sql.store serde).call (0, fun _ => []) ops).1
        = (exec Memory.store.call (0, fun _ => []) ops).1
      ∧ (exec Memory.store.call (0, fun _ => []) ops).1 = (exec History.call (fun _ => []) ops).1
      ∧ Serves Memory.store serde.RoundTrips ops (exec Memory.store.call (0, fun _ => []) ops).2
      ∧ Serves (File.store serde) serde.RoundTrips ops
        (exec (File.store serde).call (0, []) ops).2
      ∧ Serves (Sql.store serde) serde.RoundTrips ops
        (exec (Sql.store serde).call (0, fun _ => []) ops).2 := by
  have hmemory := (Memory.stores serde.RoundTrips).answers (fun _ => [])
    (fun _ => rfl) (fun _ => rfl) hops
  have hfile := (@File.stores _ _ serde).answers []
    ⟨⟨fun _ _ => rfl, fun _ hr => absurd hr List.not_mem_nil⟩, fun _ => List.nodup_nil⟩
    (fun _ => rfl) hops
  have hsql := (@Sql.stores _ _ serde).answers (fun _ => [])
    ⟨fun _ => rfl, fun _ _ hr => absurd hr List.not_mem_nil⟩ (fun _ => rfl) hops
  exact ⟨hfile.1.trans hmemory.1.symm, hsql.1.trans hmemory.1.symm, hmemory.1, hmemory.2, hfile.2,
    hsql.2⟩

/-- A stream is read from the middle after an append of two events. -/
theorem stores_interchangeable_bool :
    (exec (File.store Serde.bool).call (0, [])
        [.append "s" [true, false], .append "t" [], .read "s" 2, .latestVersion "s"]).1
      = [.events (.ok [(1, true), (2, false)]), .events (.ok []), .events (.ok [(2, false)]),
          .version (.ok 2)] := by
  obtain ⟨hfile, -, hmemory, -⟩ := stores_interchangeable Serde.bool
    [.append "s" [true, false], .append "t" [], .read "s" 2, .latestVersion "s"]
    fun _ _ b _ => Serde.bool_roundTrips b
  rw [hfile, hmemory]
  simp [exec, History.call, numbered]

end IdEffect.Events
