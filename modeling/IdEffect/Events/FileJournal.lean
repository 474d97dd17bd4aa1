import IdEffect.Events.Versions

set_option autoImplicit false

/-! # The file journal under concurrent appends

An append reads the file and writes its lines in two steps. What it writes is a part of its batch,
from the front (`step_writing`); a stream without a doubled version has its versions in order
(`Ordered`), since what an append numbers comes after what it read. A version is doubled by the
first append that writes after another one has written to the stream it read: the versions are right
exactly in the runs where this does not happen (`Fresh`). -/

namespace IdEffect.Events

open Calls Transition

variable {E J : Type}

namespace File

variable {codec : Codec E J} {lines lines' : Lines J} {id : String}

/-! ## What is in the file -/

def linesOf (lines : Lines J) (id : String) : Lines J :=
  lines.filter fun r => r.streamId = id

def versions (lines : Lines J) (id : String) : List ℕ :=
  (linesOf lines id).map JournalRecord.version

def parseStored (codec : Codec E J) (line : JournalRecord J) :
    Except EventStoreError (StoredEvent E) :=
  (parseLine codec line).map JournalRecord.stored

/-- The events of a stream, in the order of the file. -/
def persisted (codec : Codec E J) (lines : Lines J) : Streams E :=
  fun id => decoded (parseStored codec) (linesOf lines id)

/-- The file can be read, and a stream without doubled versions is in order. -/
structure Ordered (codec : Codec E J) (lines : Lines J) : Prop where
  range : ∀ id, (versions lines id).Nodup →
    versions lines id = List.range' 1 (versions lines id).length
  decodes : ∀ r ∈ lines, ∃ e, parseLine codec r = .ok e

theorem parseLine_fields {r : JournalRecord J} {e : JournalRecord E}
    (h : parseLine codec r = .ok e) : e.streamId = r.streamId ∧ e.version = r.version := by
  rw [parseLine] at h
  split at h
  · rw [← Except.ok.inj h]
    exact ⟨rfl, rfl⟩
  · cases h

theorem decoded_map {X Y Z Err : Type} (f : X → Except Err Y) (g : Y → Z) (l : List X) :
    (decoded f l).map g = decoded (fun x => (f x).map g) l := by
  rw [decoded, decoded, List.map_filterMap]
  refine List.filterMap_congr fun x _ => ?_
  cases f x <;> rfl

/-- Reading sorts each stream. -/
theorem Ordered.readAll (h : Ordered codec lines) :
    readAll codec lines = .ok fun id =>
      (persisted codec lines id).insertionSort fun a b => a.version ≤ b.version := by
  -- selecting the records of a stream and decoding them commute
  rw [File.readAll, mapM_eq_decoded h.decodes]
  refine congrArg Except.ok (funext fun id => ?_)
  rw [filter_decoded h.decodes fun r e he => by rw [(parseLine_fields he).1], decoded_map]
  rfl

theorem Ordered.stored (h : Ordered codec lines) (id : String) :
    ∀ r ∈ linesOf lines id, ∃ e, parseStored codec r = .ok e := by
  intro r hr
  obtain ⟨e, he⟩ := h.decodes r (List.mem_of_mem_filter hr)
  exact ⟨e.stored, by rw [parseStored, he]; rfl⟩

theorem parseStored_version {r : JournalRecord J} {e : StoredEvent E}
    (h : parseStored codec r = .ok e) : e.version = r.version := by
  rw [parseStored] at h
  cases hp : parseLine codec r with
  | error err =>
      rw [hp] at h
      cases h
  | ok e' =>
      rw [hp] at h
      rw [← Except.ok.inj h]
      exact (parseLine_fields hp).2

theorem Ordered.map_version (h : Ordered codec lines) (id : String) :
    (persisted codec lines id).map StoredEvent.version = versions lines id :=
  map_decoded (h.stored id) fun _ _ => parseStored_version

/-- A stream in order is read as it is. -/
theorem Ordered.read (h : Ordered codec lines) (hid : (versions lines id).Nodup) (v : ℕ) :
    read codec lines id v = .ok (fromVersionOn v (persisted codec lines id)) := by
  have hle : ((persisted codec lines id).map StoredEvent.version).Pairwise (· ≤ ·) := by
    rw [h.map_version, h.range id hid]
    exact (List.pairwise_lt_range' ..).imp fun hab => hab.le
  rw [File.read, h.readAll]
  refine congrArg (fun l => Except.ok (fromVersionOn v l)) (List.Pairwise.insertionSort_eq ?_)
  exact List.pairwise_map.mp hle

/-! ## What a write adds -/

/-- The line of a record. -/
structure Encodes (codec : Codec E J) (r : JournalRecord E) (line : JournalRecord J) : Prop where
  streamId : line.streamId = r.streamId
  eventId : line.eventId = r.eventId
  version : line.version = r.version
  payload : codec.encode r.payload = .ok line.payload

/-- The record at place `i` of a batch can be encoded, and its line written. -/
def canWrite (codec : Codec E J) (disk : Disk) (i : ℕ) (r : JournalRecord E) : Bool :=
  (codec.encode r.payload).isOk && disk.writes i

/-- How many records are written before one fails. -/
def written (codec : Codec E J) (disk : Disk) : ℕ → List (JournalRecord E) → ℕ
  | _, [] => 0
  | i, r :: records =>
      if canWrite codec disk i r then written codec disk (i + 1) records + 1 else 0

def writtenBy (codec : Codec E J) (disk : Disk) (records : List (JournalRecord E)) : ℕ :=
  if disk.opens then written codec disk 0 records else 0

theorem written_le (codec : Codec E J) (disk : Disk) (i : ℕ) (records : List (JournalRecord E)) :
    written codec disk i records ≤ records.length := by
  induction records generalizing i with
  | nil => exact le_rfl
  | cons r records ih =>
      rw [written, List.length_cons]
      split_ifs
      · exact Nat.succ_le_succ (ih (i + 1))
      · exact Nat.zero_le _

theorem writtenBy_le (codec : Codec E J) (disk : Disk) (records : List (JournalRecord E)) :
    writtenBy codec disk records ≤ records.length := by
  rw [writtenBy]
  split_ifs
  · exact written_le codec disk 0 records
  · exact Nat.zero_le _

theorem writtenBy_cons_eq_zero {disk : Disk} {r : JournalRecord E}
    {records : List (JournalRecord E)} :
    writtenBy codec disk (r :: records) = 0
      ↔ ¬ (disk.opens = true ∧ canWrite codec disk 0 r = true) := by
  rw [writtenBy, written]
  split_ifs with ho hw
  · exact ⟨nofun, fun hnot => absurd ⟨ho, hw⟩ hnot⟩
  · exact ⟨fun _ h => hw h.2, fun _ => rfl⟩
  · exact ⟨fun _ h => ho h.1, fun _ => rfl⟩

theorem writeRecords_spec (disk : Disk) (i : ℕ) (records : List (JournalRecord E))
    (lines : Lines J) :
    (∃ new, (writeRecords codec disk i records lines).2 = lines ++ new
        ∧ List.Forall₂ (Encodes codec) (records.take (written codec disk i records)) new)
      ∧ ((writeRecords codec disk i records lines).1.isOk
        ↔ written codec disk i records = records.length) := by
  induction records generalizing i lines with
  | nil => exact ⟨⟨[], (List.append_nil _).symm, .nil⟩, ⟨fun _ => rfl, fun _ => rfl⟩⟩
  | cons r records ih =>
      -- a record that fails ends the loop with nothing more written
      have hstop : written codec disk i (r :: records) = 0 → ∀ e : EventStoreError,
          (∃ new, lines = lines ++ new ∧ List.Forall₂ (Encodes codec)
            ((r :: records).take (written codec disk i (r :: records))) new)
          ∧ ((Except.error e : Except EventStoreError Unit).isOk
            ↔ written codec disk i (r :: records) = (r :: records).length) := by
        intro hzero e
        rw [hzero]
        exact ⟨⟨[], (List.append_nil _).symm, .nil⟩, nofun, nofun⟩
      cases hjson : codec.encode r.payload with
      | error e =>
          rw [writeRecords, hjson]
          exact hstop (by rw [written, canWrite, hjson, if_neg nofun]) _
      | ok json =>
          by_cases hw : disk.writes i = true
          · have hcount : written codec disk i (r :: records)
                = written codec disk (i + 1) records + 1 := by
              rw [written, canWrite, hjson, hw]
              rfl
            obtain ⟨⟨new, hnew, hall⟩, hok⟩ :=
              ih (i + 1) (lines ++ [⟨r.streamId, r.eventId, r.version, json⟩])
            rw [writeRecords, hjson]
            simp only [if_pos hw]
            rw [hnew, hok, hcount, List.take_succ_cons, List.length_cons, List.append_assoc]
            exact ⟨⟨_, rfl, .cons ⟨rfl, rfl, rfl, hjson⟩ hall⟩, Nat.succ_inj.symm⟩
          · rw [writeRecords, hjson]
            simp only [if_neg hw]
            exact hstop (by rw [written, canWrite, Bool.eq_false_iff.mpr hw, Bool.and_false]; rfl) _

/-- The step that writes: lines for the front of the batch, and success if all of it is there. -/
theorem step_writing {t : ℕ} {records : List (JournalRecord E)} {out : List (StoredEvent E)}
    {disk : Disk} {x : Local E ⊕ Answer E}
    (h : (machine codec).step t (.writing records out) disk lines = some (x, lines')) :
    (∃ new, lines' = lines ++ new
        ∧ List.Forall₂ (Encodes codec) (records.take (writtenBy codec disk records)) new)
      ∧ ((x = .inr (.ok out) ∧ disk.opens = true ∧ writtenBy codec disk records = records.length)
        ∨ (∃ err, x = .inr (.error err))
          ∧ ¬ (disk.opens = true ∧ writtenBy codec disk records = records.length)) := by
  simp only [machine] at h
  by_cases ho : disk.opens = true
  -- the answer is that of the loop over the records
  · obtain ⟨hnew, hok⟩ := @writeRecords_spec E J codec disk 0 records lines
    rw [appendRecords, if_pos ho] at h
    rw [writtenBy, if_pos ho]
    cases hres : (writeRecords codec disk 0 records lines).1 with
    | ok u =>
        simp only [hres] at h
        obtain ⟨rfl, rfl⟩ := Prod.mk.inj (Option.some.inj h)
        exact ⟨hnew, .inl ⟨rfl, ho, hok.mp (by rw [hres]; rfl)⟩⟩
    | error err =>
        simp only [hres] at h
        obtain ⟨rfl, rfl⟩ := Prod.mk.inj (Option.some.inj h)
        refine ⟨hnew, .inr ⟨⟨_, rfl⟩, fun hall => ?_⟩⟩
        have hbad := hok.mpr hall.2
        rw [hres] at hbad
        cases hbad
  · rw [appendRecords, if_neg ho] at h
    obtain ⟨rfl, rfl⟩ := Prod.mk.inj (Option.some.inj h)
    rw [writtenBy, if_neg ho]
    exact ⟨⟨[], (List.append_nil _).symm, .nil⟩, .inr ⟨⟨_, rfl⟩, fun hall => ho hall.1⟩⟩

/-! ## Lines added to a stream -/

section Added

variable {records : List (JournalRecord E)} {new : Lines J}

theorem linesOf_append (id' : String) :
    linesOf (lines ++ new) id' = linesOf lines id' ++ linesOf new id' :=
  List.filter_append ..

theorem linesOf_new (h : List.Forall₂ (Encodes codec) records new)
    (hid : ∀ r ∈ records, r.streamId = id) (id' : String) :
    linesOf new id' = if id' = id then new else [] := by
  have hnew : ∀ line ∈ new, line.streamId = id := by
    induction h with
    | nil => nofun
    | cons hr _ ih =>
        intro line hline
        rcases List.mem_cons.mp hline with rfl | hline
        · rw [hr.streamId]
          exact hid _ (List.mem_cons_self ..)
        · exact ih (fun r hr => hid r (List.mem_cons_of_mem _ hr)) line hline
  rw [linesOf]
  split_ifs with heq
  · exact List.filter_eq_self.mpr fun line hline => by simp [hnew line hline, heq]
  · exact List.filter_eq_nil_iff.mpr fun line hline => by simp [hnew line hline, Ne.symm heq]

theorem versions_new (h : List.Forall₂ (Encodes codec) records new) :
    new.map JournalRecord.version = records.map JournalRecord.version := by
  induction h with
  | nil => rfl
  | cons hr _ ih => rw [List.map_cons, List.map_cons, hr.version, ih]

theorem parseLine_encoded {r : JournalRecord E} {line : JournalRecord J}
    (h : Encodes codec r line) : parseLine codec line = .ok r := by
  rw [parseLine, codec.decode_encode r.payload line.payload h.payload, h.streamId, h.eventId,
    h.version]

theorem decodes_new (h : List.Forall₂ (Encodes codec) records new) :
    ∀ line ∈ new, ∃ e, parseLine codec line = .ok e := by
  induction h with
  | nil => nofun
  | cons hr _ ih =>
      intro line hline
      rcases List.mem_cons.mp hline with rfl | hline
      · exact ⟨_, parseLine_encoded hr⟩
      · exact ih line hline

theorem persisted_new (h : List.Forall₂ (Encodes codec) records new) :
    decoded (parseStored codec) new = records.map JournalRecord.stored := by
  induction h with
  | nil => rfl
  | @cons r line records new hr _ ih =>
      have hparse : parseStored codec line = .ok r.stored := by
        rw [parseStored, parseLine_encoded hr]
        rfl
      rw [decoded_cons hparse, List.map_cons, ih]

end Added

/-! ## Batches -/

theorem streamId_of_mem_batch {t base k : ℕ} {es : List E} :
    ∀ r ∈ ((stamp t base 0 es).map (StoredEvent.record id)).take k, r.streamId = id := by
  intro r hr
  obtain ⟨e, -, rfl⟩ := List.mem_map.mp (List.mem_of_mem_take hr)
  rfl

theorem versions_batch {t base k : ℕ} {es : List E} (hk : k ≤ es.length) :
    (((stamp t base 0 es).map (StoredEvent.record id)).take k).map JournalRecord.version
      = List.range' (base + 1) k := by
  rw [← List.map_take, List.map_map]
  have hmap : (JournalRecord.version ∘ StoredEvent.record id : StoredEvent E → ℕ)
      = StoredEvent.version := rfl
  rw [hmap, List.map_take, map_version_stamp, List.take_range'_of_length_ge hk]

theorem stored_batch {t base k : ℕ} {es : List E} :
    (((stamp t base 0 es).map (StoredEvent.record id)).take k).map JournalRecord.stored
      = (stamp t base 0 es).take k := by
  rw [← List.map_take, List.map_map]
  exact List.map_id _

/-- The file after a write of the first `k` events of a batch. -/
theorem written_batch {t base k : ℕ} {es : List E} {new : Lines J} (hk : k ≤ es.length)
    (h : List.Forall₂ (Encodes codec)
      (((stamp t base 0 es).map (StoredEvent.record id)).take k) new) (id' : String) :
    versions (lines ++ new) id'
        = versions lines id' ++ (if id' = id then List.range' (base + 1) k else [])
      ∧ persisted codec (lines ++ new) id'
        = persisted codec lines id' ++ (if id' = id then (stamp t base 0 es).take k else []) := by
  rw [versions, persisted, linesOf_append, linesOf_new h streamId_of_mem_batch, List.map_append,
    decoded_append]
  split_ifs with heq
  · rw [versions_new h, versions_batch hk, persisted_new h, stored_batch]
    exact ⟨rfl, rfl⟩
  · exact ⟨rfl, rfl⟩

/-! ## What the calls know -/

/-- An append that is about to write has numbered its batch after something it read. -/
def Progress (t : ℕ) (q : Request E) (l : Local E) (lines : Lines J) : Prop :=
  match l with
  | .requested q' => q' = q
  | .writing records out => ∃ id es base, q = .append id es ∧ out = stamp t base 0 es
      ∧ records = out.map (StoredEvent.record id) ∧ base ≤ (versions lines id).length

theorem Progress.mono {t : ℕ} {q : Request E} {l : Local E} (h : Progress t q l lines)
    (hlength : ∀ id, (versions lines id).length ≤ (versions lines' id).length) :
    Progress t q l lines' := by
  cases l with
  | requested q' => exact h
  | writing records out =>
      obtain ⟨id, es, base, hq, hout, hrecords, hbase⟩ := h
      exact ⟨id, es, base, hq, hout, hrecords, hbase.trans (hlength id)⟩

/-- A stream gets a doubled version if it had one, or if its writer has not read all of it. -/
theorem nodup_append_range_iff {vs : List ℕ} {base k : ℕ}
    (hvs : vs.Nodup → vs = List.range' 1 vs.length) (hbase : base ≤ vs.length) :
    (vs ++ List.range' (base + 1) k).Nodup ↔ vs.Nodup ∧ (k = 0 ∨ base = vs.length) := by
  constructor
  · intro h
    have hnodup : vs.Nodup := (List.nodup_append.mp h).1
    refine ⟨hnodup, ?_⟩
    by_contra hne
    -- the version after `base` is there already, and the batch begins with it
    have hmem : base + 1 ∈ vs := by
      rw [hvs hnodup, List.mem_range'_1]
      omega
    have hmem' : base + 1 ∈ List.range' (base + 1) k := by
      rw [List.mem_range'_1]
      omega
    exact (List.nodup_append.mp h).2.2 _ hmem _ hmem' rfl
  · rintro ⟨hnodup, rfl | rfl⟩
    · rwa [List.range'_zero, List.append_nil]
    · rw [range_append (hvs hnodup) k]
      exact List.nodup_range'

/-- Without one, the stream stays in order. -/
theorem range_of_nodup_append {vs : List ℕ} {base k : ℕ}
    (hvs : vs.Nodup → vs = List.range' 1 vs.length) (hbase : base ≤ vs.length)
    (h : (vs ++ List.range' (base + 1) k).Nodup) :
    vs ++ List.range' (base + 1) k
      = List.range' 1 (vs ++ List.range' (base + 1) k).length := by
  obtain ⟨hnodup, rfl | rfl⟩ := (nodup_append_range_iff hvs hbase).mp h
  · rw [List.range'_zero, List.append_nil]
    exact hvs hnodup
  · exact range_append (hvs hnodup) k

/-! ## The steps of a call -/

/-- An append that cannot open the file fails; else it numbers its batch after what it reads. -/
theorem step_append {t : ℕ} {es : List E} {disk : Disk} {x : Local E ⊕ Answer E}
    (hI : Ordered codec lines)
    (h : (machine codec).step t (.requested (.append id es)) disk lines = some (x, lines')) :
    lines' = lines ∧ ((∃ err, x = .inr (.error err))
      ∨ x = .inl (.writing ((stamp t (versions lines id).length 0 es).map (StoredEvent.record id))
          (stamp t (versions lines id).length 0 es))) := by
  simp only [machine, opened] at h
  by_cases ho : disk.opens = true
  · simp only [if_pos ho, hI.readAll, assignVersions_eq] at h
    obtain ⟨rfl, rfl⟩ := Prod.mk.inj (Option.some.inj h)
    rw [List.length_insertionSort, ← hI.map_version, List.length_map]
    exact ⟨rfl, .inr rfl⟩
  · simp only [if_neg ho] at h
    obtain ⟨rfl, rfl⟩ := Prod.mk.inj (Option.some.inj h)
    exact ⟨rfl, .inl ⟨_, rfl⟩⟩

/-- The file after a write, with what the writer knows. -/
structure Wrote (codec : Codec E J) (t : ℕ) (disk : Disk) (records : List (JournalRecord E))
    (lines lines' : Lines J) (id : String) (es : List E) (base : ℕ) : Prop where
  batch : records = (stamp t base 0 es).map (StoredEvent.record id)
  base_le : base ≤ (versions lines id).length
  ordered : Ordered codec lines'
  versions_eq : ∀ id', versions lines' id' = versions lines id'
    ++ if id' = id then List.range' (base + 1) (writtenBy codec disk records) else []
  persisted_eq : ∀ id', persisted codec lines' id' = persisted codec lines id'
    ++ if id' = id then (stamp t base 0 es).take (writtenBy codec disk records) else []

theorem step_write {t : ℕ} {q : Request E} {records : List (JournalRecord E)}
    {out : List (StoredEvent E)} {disk : Disk} {x : Local E ⊕ Answer E} (hI : Ordered codec lines)
    (hl : Progress t q (.writing records out) lines)
    (h : (machine codec).step t (.writing records out) disk lines = some (x, lines')) :
    ∃ id es base, q = .append id es ∧ out = stamp t base 0 es
      ∧ Wrote codec t disk records lines lines' id es base := by
  obtain ⟨id, es, base, rfl, rfl, rfl, hbase⟩ := hl
  obtain ⟨⟨new, rfl, hnew⟩, -⟩ := step_writing h
  have hk : writtenBy codec disk ((stamp t base 0 es).map (StoredEvent.record id)) ≤ es.length := by
    have hle := writtenBy_le codec disk ((stamp t base 0 es).map (StoredEvent.record id))
    rwa [List.length_map, length_stamp] at hle
  have hwritten := @written_batch _ _ _ lines _ _ _ _ _ _ hk hnew
  refine ⟨id, es, base, rfl, rfl, rfl, hbase, ⟨fun id' hnodup => ?_, ?_⟩,
    fun id' => (hwritten id').1, fun id' => (hwritten id').2⟩
  -- a stream that has no doubled version now had none before, and its writer had read all of it
  · rw [(hwritten id').1] at hnodup ⊢
    by_cases hid : id' = id
    · subst hid
      rw [if_pos rfl] at hnodup ⊢
      exact range_of_nodup_append (hI.range id') hbase hnodup
    · rw [if_neg hid, List.append_nil] at hnodup ⊢
      exact hI.range id' hnodup
  · intro r hr
    rcases List.mem_append.mp hr with hr | hr
    · exact hI.decodes r hr
    · exact decodes_new hnew r hr

theorem Wrote.mem_persisted {t base : ℕ} {disk : Disk} {records : List (JournalRecord E)}
    {es : List E} {e : StoredEvent E} {id' : String}
    (h : Wrote codec t disk records lines lines' id es base)
    (he : e ∈ persisted codec lines id') : e ∈ persisted codec lines' id' := by
  rw [h.persisted_eq]
  exact List.mem_append_left _ he

theorem keeps : (machine codec).Keeps (Ordered codec)
    (Knowing (persisted codec) Progress) := by
  refine ⟨fun t q st _ => rfl, fun t q l disk x st st' hI hl hstep => ?_⟩
  match l with
  | .requested (.read id v) =>
      obtain rfl : .read id v = q := hl
      obtain ⟨rfl, rfl⟩ := Prod.mk.inj (Option.some.inj hstep)
      exact ⟨hI, trivial, fun u c _ hc => hc⟩
  | .requested (.append id es) =>
      obtain rfl : .append id es = q := hl
      obtain ⟨rfl, ⟨err, rfl⟩ | rfl⟩ := step_append hI hstep
      · exact ⟨hI, trivial, fun u c _ hc => hc⟩
      · exact ⟨hI, ⟨id, es, _, rfl, rfl, rfl, le_rfl⟩, fun u c _ hc => hc⟩
  | .writing records out =>
      -- the file only grows, so the other calls have numbered after something that is still there
      obtain ⟨id, es, base, rfl, rfl, hwrote⟩ := step_write hI hl hstep
      have hlength : ∀ id', (versions st id').length ≤ (versions st' id').length := by
        intro id'
        rw [hwrote.versions_eq, List.length_append]
        exact Nat.le_add_right ..
      refine ⟨hwrote.ordered, ?_, fun u c _ hc =>
        hc.mono (fun _ _ => hwrote.mem_persisted) fun q l hl => Progress.mono hl hlength⟩
      obtain ⟨-, ⟨rfl, -, hall⟩ | ⟨⟨err, rfl⟩, -⟩⟩ := step_writing hstep
      · intro e he
        refine ⟨?_, eventId_of_mem_stamp he⟩
        rw [hwrote.persisted_eq, if_pos rfl, hall, hwrote.batch, List.length_map, List.take_length]
        exact List.mem_append_right _ he
      · trivial

/-! ## Which runs keep the versions -/

/-- An append that can write its first line has numbered its batch after all of its stream. -/
def Fresh (codec : Codec E J) (lines : Lines J) (_ : ℕ) (l : Local E) (disk : Disk) : Prop :=
  match l with
  | .requested _ => True
  | .writing records _ => disk.opens = true → ∀ r ∈ records.head?,
      canWrite codec disk 0 r = true → r.version = (versions lines r.streamId).length + 1

instance (codec : Codec E J) (lines : Lines J) (t : ℕ) (l : Local E) (disk : Disk) :
    Decidable (Fresh codec lines t l disk) :=
  match l with
  | .requested _ => inferInstanceAs (Decidable True)
  | .writing _ _ => inferInstanceAs (Decidable (_ → _))

theorem Wrote.fresh_iff {t base : ℕ} {disk : Disk} {records : List (JournalRecord E)}
    {out : List (StoredEvent E)} {es : List E}
    (h : Wrote codec t disk records lines lines' id es base) :
    Fresh codec lines t (.writing records out) disk
      ↔ writtenBy codec disk records = 0 ∨ base = (versions lines id).length := by
  rw [Fresh]
  obtain rfl := h.batch
  cases es with
  | nil =>
      have hzero : writtenBy codec disk ((stamp t base 0 ([] : List E)).map (StoredEvent.record id))
          = 0 := Nat.le_zero.mp (writtenBy_le ..)
      exact ⟨fun _ => .inl hzero, fun _ _ _ hr => by cases hr⟩
  | cons payload es =>
      rw [stamp, List.map_cons, writtenBy_cons_eq_zero]
      constructor
      · intro hfresh
        by_contra hnot
        rw [not_or, not_not] at hnot
        exact hnot.2 (Nat.succ.inj (hfresh hnot.1.1 _ rfl hnot.1.2))
      · rintro hor ho r hr hw
        obtain rfl := Option.some.inj hr
        exact congrArg Nat.succ (hor.resolve_left fun hnot => hnot ⟨ho, hw⟩)

/-- A step doubles no version exactly when it is fresh. -/
theorem nodup_step_iff {t : ℕ} {q : Request E} {l : Local E} {disk : Disk} {x : Local E ⊕ Answer E}
    (hI : Ordered codec lines) (hl : Knowing (persisted codec) Progress t (.running q l) lines)
    (hstep : (machine codec).step t l disk lines = some (x, lines')) :
    (∀ id, (versions lines' id).Nodup)
      ↔ (∀ id, (versions lines id).Nodup) ∧ Fresh codec lines t l disk := by
  match l with
  | .requested (.read id v) =>
      obtain ⟨-, rfl⟩ := Prod.mk.inj (Option.some.inj hstep)
      exact (and_iff_left trivial).symm
  | .requested (.append id es) =>
      obtain ⟨rfl, -⟩ := step_append hI hstep
      exact (and_iff_left trivial).symm
  | .writing records out =>
      obtain ⟨id, es, base, rfl, rfl, hwrote⟩ := step_write hI hl hstep
      rw [hwrote.fresh_iff]
      -- only the stream of the append changes
      have hid : (versions lines' id).Nodup ↔ (versions lines id).Nodup
          ∧ (writtenBy codec disk records = 0 ∨ base = (versions lines id).length) := by
        rw [hwrote.versions_eq, if_pos rfl]
        exact nodup_append_range_iff (hI.range id) hwrote.base_le
      have hother : ∀ id', id' ≠ id → versions lines' id' = versions lines id' := by
        intro id' hne
        rw [hwrote.versions_eq, if_neg hne, List.append_nil]
      constructor
      · intro h
        refine ⟨fun id' => ?_, (hid.mp (h id)).2⟩
        by_cases hne : id' = id
        · rw [hne]
          exact (hid.mp (h id)).1
        · rw [← hother id' hne]
          exact h id'
      · rintro ⟨h, hfresh⟩ id'
        by_cases hne : id' = id
        · rw [hne]
          exact hid.mpr ⟨h id, hfresh⟩
        · rw [hother id' hne]
          exact h id'

/-- **The file journal** keeps its versions exactly in the runs whose writes are fresh. -/
theorem versioned_iff {ls : List (Label (Request E) Disk)}
    {s : Sys (Lines J) (Request E) (Local E) (Answer E)}
    (hrun : run (machine codec).sysStep (Sys.init []) ls = some s) :
    Versioned (versions s.store) (persisted codec s.store) (read codec s.store) s.calls
      ↔ Along (machine codec).sysStep (Machine.guardOf (Fresh codec)) (Sys.init []) ls := by
  have hinit : Machine.Knows (Ordered codec) (Knowing (persisted codec) Progress)
      (Sys.init [] : Sys (Lines J) (Request E) (Local E) (Answer E)) :=
    ⟨⟨fun _ _ => rfl, nofun⟩, fun _ => trivial⟩
  have hs := keeps.run hinit hrun
  have hiff := keeps.run_iff_store (J := fun lines => ∀ id, (versions lines id).Nodup)
    (fun _ _ _ _ _ _ _ => nodup_step_iff) hinit hrun
  -- the empty file has no doubled version, so it comes down to the steps
  rw [← hiff.trans (and_iff_right fun _ => List.nodup_nil)]
  constructor
  · exact fun h id => (h.exact id).1
  · intro h
    exact versioned_of_ascending hs.store.map_version (fun id => hs.store.range id (h id))
      (fun id v => hs.store.read (h id) v) fun t => (hs.calls t).returned

end File

/-! ## All stores -/

/-- **Versions**, for payloads that are decoded as they were encoded (`Codec.decode_encode`). In
    every interleaving the memory store and the SQL journal have the versions of their streams
    right; the file journal has them right exactly when every append that writes has numbered its
    batch after all of the stream, that is, when no other append has written to the stream since it
    read the file. -/
theorem stores_versioned_iff (codec : Codec E J) :
    (∀ ls s, run (Memory.machine (E := E)).sysStep (Sys.init fun _ => []) ls = some s →
      Versioned (Memory.versions s.store) s.store (Memory.read s.store) s.calls)
    ∧ (∀ ls s, run (Sql.machine codec).sysStep (Sys.init fun _ => []) ls = some s →
      Versioned (Sql.versions s.store) (Sql.persisted codec s.store) (Sql.read codec s.store)
        s.calls)
    ∧ ∀ ls s, run (File.machine codec).sysStep (Sys.init []) ls = some s →
      (Versioned (File.versions s.store) (File.persisted codec s.store) (File.read codec s.store)
          s.calls
        ↔ Along (File.machine codec).sysStep (Machine.guardOf (File.Fresh codec)) (Sys.init [])
          ls) :=
  ⟨fun _ _ => Memory.versioned, fun _ _ => Sql.versioned, fun _ _ => File.versioned_iff⟩

/-- `serde_json` on booleans. -/
def boolCodec : Codec Bool String where
  encode b := .ok (if b then "true" else "false")
  decode s := if s = "true" then .ok true else if s = "false" then .ok false
    else .error "invalid type"
  decode_encode := by
    rintro (_ | _) j h <;> obtain rfl := Except.ok.inj h <;> rfl

/-- Nothing goes wrong. -/
def goodDisk : Disk := ⟨true, fun _ => true, ""⟩

/-- Two appends to one stream, both reading before either writes. -/
def overlapping : List (Label (Request Bool) Disk) :=
  [.call 0 (.append "s" [true]), .call 1 (.append "s" [false]), .step 0 goodDisk,
    .step 1 goodDisk, .step 0 goodDisk, .step 1 goodDisk]

/-- Both get version 1. -/
theorem file_versions_doubled :
    ∃ s, run (File.machine boolCodec).sysStep (Sys.init []) overlapping = some s
      ∧ File.versions s.store "s" = [1, 1]
      ∧ ¬ Versioned (File.versions s.store) (File.persisted boolCodec s.store)
        (File.read boolCodec s.store) s.calls := by
  have hlast : (run (File.machine boolCodec).sysStep (Sys.init []) overlapping).map
      (fun s => File.versions s.store "s") = some [1, 1] := by decide +kernel
  obtain ⟨s, hrun, hversions⟩ := exists_run _ hlast
  refine ⟨s, hrun, hversions, fun h => ?_⟩
  have hnodup := (h.exact "s").1
  rw [hversions] at hnodup
  exact absurd hnodup (by decide)

/-- The same appends, one after the other. -/
def inTurn : List (Label (Request Bool) Disk) :=
  [.call 0 (.append "s" [true]), .call 1 (.append "s" [false]), .step 0 goodDisk,
    .step 0 goodDisk, .step 1 goodDisk, .step 1 goodDisk]

theorem stores_versioned_iff_inTurn :
    ∃ s, run (File.machine boolCodec).sysStep (Sys.init []) inTurn = some s
      ∧ File.versions s.store "s" = [1, 2]
      ∧ Versioned (File.versions s.store) (File.persisted boolCodec s.store)
        (File.read boolCodec s.store) s.calls := by
  have hlast : (run (File.machine boolCodec).sysStep (Sys.init []) inTurn).map
      (fun s => File.versions s.store "s") = some [1, 2] := by decide +kernel
  obtain ⟨s, hrun, hversions⟩ := exists_run _ hlast
  exact ⟨s, hrun, hversions,
    ((stores_versioned_iff boolCodec).2.2 inTurn s hrun).mpr (by decide +kernel)⟩

end IdEffect.Events
