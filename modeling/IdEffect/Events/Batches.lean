import IdEffect.Events.FileJournal

set_option autoImplicit false

/-! # Batches of events

An append that answers `Ok` should have stored its whole batch, one that answers `Err` nothing of
it. The memory store cannot fail half way. The other two write inside their loops and undo nothing:
a file append stops at the first line that cannot be encoded or written, an SQL append at the first
event that cannot be encoded or whose version another append has taken meanwhile. What is stored by
then stays, so the batch is broken exactly if this is not the first event of it. -/

namespace IdEffect.Events

open Calls Transition

variable {E J L : Type}

/-! ## The events of one call -/

section Mine

variable {t u : ℕ} {persisted persisted' : Streams E} {new : Streams E}

/-- What the call `t` has in a stream. -/
def mine (t : ℕ) (persisted : Streams E) (id : String) : List (StoredEvent E) :=
  (persisted id).filter fun e => e.eventId.1 = t

/-- An append that succeeded has exactly its batch in its stream, with consecutive versions; one
    that failed has nothing. -/
def AllOrNothing (t : ℕ) (persisted : Streams E) : Status (Request E) L (Answer E) → Prop
  | .done (.append id es) (.ok out) => out.map StoredEvent.payload = es
      ∧ (∃ base, out.map StoredEvent.version = List.range' (base + 1) es.length)
      ∧ ∀ id', mine t persisted id' = if id' = id then out else []
  | .done (.append _ _) (.error _) => ∀ id, mine t persisted id = []
  | _ => True

theorem allOrNothing_congr (h : ∀ id, mine t persisted' id = mine t persisted id)
    (c : Status (Request E) L (Answer E)) :
    AllOrNothing t persisted' c ↔ AllOrNothing t persisted c := by
  match c with
  | .idle => exact Iff.rfl
  | .running _ _ => exact Iff.rfl
  | .done (.read _ _) _ => exact Iff.rfl
  | .done (.append _ _) (.ok _) => simp only [AllOrNothing, h]
  | .done (.append _ _) (.error _) => simp only [AllOrNothing, h]

/-- A batch with its versions, all of it there. -/
theorem allOrNothing_stamp {base : ℕ} {id : String} {es : List E}
    (h : ∀ id', mine t persisted id' = if id' = id then stamp t base 0 es else []) :
    AllOrNothing (L := L) t persisted (.done (.append id es) (.ok (stamp t base 0 es))) :=
  ⟨map_payload_stamp .., ⟨base, map_version_stamp ..⟩, h⟩

theorem not_allOrNothing_of_error {id id' : String} {es : List E} {err : EventStoreError}
    {c : Status (Request E) L (Answer E)} {e : StoredEvent E}
    (hc : c = .done (.append id es) (.error err)) (he : e ∈ persisted id') (ht : e.eventId.1 = t) :
    ¬ AllOrNothing t persisted c := by
  rw [hc]
  intro hnone
  have hmem : e ∈ mine t persisted id' := List.mem_filter.mpr ⟨he, decide_eq_true ht⟩
  rw [hnone] at hmem
  cases hmem

/-- Events of the call `t` are added. -/
structure Adds (t : ℕ) (persisted persisted' new : Streams E) : Prop where
  eq : ∀ id, persisted' id = persisted id ++ new id
  own : ∀ id, ∀ e ∈ new id, e.eventId.1 = t

theorem Adds.mine_self (h : Adds t persisted persisted' new) (id : String) :
    mine t persisted' id = mine t persisted id ++ new id := by
  rw [mine, h.eq, List.filter_append, ← mine,
    List.filter_eq_self.mpr fun e he => decide_eq_true (h.own id e he)]

theorem Adds.mine_of_ne (h : Adds t persisted persisted' new) (hu : u ≠ t) (id : String) :
    mine u persisted' id = mine u persisted id := by
  rw [mine, h.eq, List.filter_append, ← mine, List.filter_eq_nil_iff.mpr, List.append_nil]
  intro e he hid
  exact hu ((of_decide_eq_true hid).symm.trans (h.own id e he))

theorem adds_nil : Adds t persisted persisted fun _ => [] :=
  ⟨fun _ => (List.append_nil _).symm, fun _ => nofun⟩

end Mine

/-- What a call has in the store: nothing before it runs, then `R`. -/
def Owning {Store : Type} (persisted : Store → Streams E)
    (R : ℕ → Request E → L → Store → Prop) (t : ℕ) (c : Status (Request E) L (Answer E))
    (st : Store) : Prop :=
  match c with
  | .idle => ∀ id, mine t (persisted st) id = []
  | .running q l => R t q l st
  | .done _ _ => True

theorem Owning.congr {Store : Type} {persisted : Store → Streams E}
    {R : ℕ → Request E → L → Store → Prop} {t : ℕ} {c : Status (Request E) L (Answer E)}
    {st st' : Store} (h : Owning persisted R t c st)
    (hmine : ∀ id, mine t (persisted st') id = mine t (persisted st) id)
    (hR : ∀ q l, R t q l st → R t q l st') : Owning persisted R t c st' := by
  cases c with
  | idle => exact fun id => (hmine id).trans (h id)
  | running q l => exact hR q l h
  | done q r => trivial

/-! ## In memory -/

namespace Memory

/-- Nothing is there of a request. -/
def Untouched (t : ℕ) (q l : Request E) (streams : Streams E) : Prop :=
  l = q ∧ ∀ id, mine t streams id = []

theorem adds_append (streams : Streams E) (t : ℕ) (id : String) (events : List E) :
    Adds t streams
      (Function.update streams id (streams id ++ stamp t (streams id).length 0 events))
      fun id' => if id' = id then stamp t (streams id).length 0 events else [] := by
  refine ⟨fun id' => ?_, fun id' e he => ?_⟩
  · by_cases hid : id' = id
    · rw [hid, Function.update_self, if_pos rfl]
    · rw [Function.update_of_ne hid, if_neg hid, List.append_nil]
  · split_ifs at he
    · exact eventId_of_mem_stamp he
    · cases he

theorem keeps_batches : (machine (E := E)).Keeps (fun _ => True) fun t c streams =>
    Owning (fun streams => streams) Untouched t c streams ∧ AllOrNothing t streams c := by
  refine ⟨fun t q st h => ⟨⟨rfl, h.1⟩, trivial⟩, ?_⟩
  rintro t q l e x st st' - ⟨⟨rfl, hnone⟩, -⟩ hstep
  cases l with
  | read id v =>
      obtain ⟨rfl, rfl⟩ := Prod.mk.inj (Option.some.inj hstep)
      exact ⟨trivial, ⟨trivial, trivial⟩, fun u c _ hc => hc⟩
  | append id events =>
      obtain ⟨rfl, rfl⟩ := Prod.mk.inj (Option.some.inj hstep)
      rw [assignVersions_eq]
      have hadds := adds_append st t id events
      refine ⟨trivial, ⟨trivial, allOrNothing_stamp fun id' => ?_⟩, fun u c hu hc => ?_⟩
      · rw [hadds.mine_self, hnone, List.nil_append]
      · have hmine := hadds.mine_of_ne hu
        refine ⟨hc.1.congr hmine fun q l hl => ⟨hl.1, fun id => (hmine id).trans (hl.2 id)⟩, ?_⟩
        exact (allOrNothing_congr hmine c).mpr hc.2

/-- **The memory store** stores whole batches. -/
theorem batches {ls : List (Label (Request E) Unit)}
    {s : Sys (Streams E) (Request E) (Request E) (Answer E)}
    (hrun : run machine.sysStep (Sys.init fun _ => []) ls = some s) (t : ℕ) :
    AllOrNothing t s.store (s.calls t) := by
  have hinit : Machine.Knows (fun _ => True) (fun t c streams =>
      Owning (fun streams => streams) Untouched t c streams ∧ AllOrNothing t streams c)
      (Sys.init (fun _ => []) : Sys (Streams E) (Request E) (Request E) (Answer E)) :=
    ⟨trivial, fun _ => ⟨fun _ => rfl, trivial⟩⟩
  exact ((keeps_batches.run hinit hrun).calls t).2

end Memory

/-! ## In a file -/

namespace File

variable {codec : Codec E J} {lines lines' : Lines J} {id : String}

/-- If the first line of a batch can be written, all of them can. -/
def Whole (codec : Codec E J) (_ : Lines J) (_ : ℕ) (l : Local E) (disk : Disk) : Prop :=
  match l with
  | .requested _ => True
  | .writing records _ => disk.opens = true →
      (∀ r ∈ records.head?, canWrite codec disk 0 r = true) →
        ∀ p ∈ records.zipIdx, canWrite codec disk p.2 p.1 = true

instance (codec : Codec E J) (lines : Lines J) (t : ℕ) (l : Local E) (disk : Disk) :
    Decidable (Whole codec lines t l disk) :=
  match l with
  | .requested _ => inferInstanceAs (Decidable True)
  | .writing _ _ => inferInstanceAs (Decidable (_ → _))

theorem written_eq_length_iff (disk : Disk) (i : ℕ) (records : List (JournalRecord E)) :
    written codec disk i records = records.length
      ↔ ∀ p ∈ records.zipIdx i, canWrite codec disk p.2 p.1 = true := by
  induction records generalizing i with
  | nil => exact ⟨fun _ p hp => absurd hp List.not_mem_nil, fun _ => rfl⟩
  | cons r records ih =>
      rw [written, List.zipIdx_cons, List.forall_mem_cons, List.length_cons, ← ih]
      split_ifs with hw
      · exact ⟨fun h => ⟨hw, Nat.succ.inj h⟩, fun h => congrArg Nat.succ h.2⟩
      · exact ⟨False.elim, fun h => absurd h.1 hw⟩

theorem whole_iff {t : ℕ} {disk : Disk} {records : List (JournalRecord E)}
    {out : List (StoredEvent E)} :
    Whole codec lines t (.writing records out) disk
      ↔ writtenBy codec disk records = 0
        ∨ disk.opens = true ∧ writtenBy codec disk records = records.length := by
  rw [Whole]
  cases records with
  | nil => exact ⟨fun _ => .inl (Nat.le_zero.mp (writtenBy_le ..)), fun _ _ _ _ => nofun⟩
  | cons r records =>
      rw [writtenBy_cons_eq_zero]
      constructor
      · intro h
        by_cases hfirst : disk.opens = true ∧ canWrite codec disk 0 r = true
        · refine .inr ⟨hfirst.1, ?_⟩
          rw [writtenBy, if_pos hfirst.1, written_eq_length_iff]
          exact h hfirst.1 fun r' hr' => by rw [← Option.some.inj hr']; exact hfirst.2
        · exact .inl hfirst
      · rintro (hnot | ⟨ho, hall⟩)
        · exact fun ho hhead => absurd ⟨ho, hhead r rfl⟩ hnot
        · rw [writtenBy, if_pos ho, written_eq_length_iff] at hall
          exact fun _ _ => hall

/-- Before it writes, nothing is there of an append. -/
def Unwritten (codec : Codec E J) (t : ℕ) (_ : Request E) (_ : Local E) (lines : Lines J) : Prop :=
  ∀ id, mine t (persisted codec lines) id = []

theorem Wrote.adds {t base : ℕ} {disk : Disk} {records : List (JournalRecord E)} {es : List E}
    (h : Wrote codec t disk records lines lines' id es base) :
    Adds t (persisted codec lines) (persisted codec lines')
      fun id' => if id' = id then (stamp t base 0 es).take (writtenBy codec disk records)
        else [] := by
  refine ⟨h.persisted_eq, fun id' e he => ?_⟩
  split_ifs at he
  · exact eventId_of_mem_stamp (List.mem_of_mem_take he)
  · cases he

/-- Whichever step a call takes, it adds events of its own. -/
theorem step_adds {t : ℕ} {q : Request E} {l : Local E} {disk : Disk} {x : Local E ⊕ Answer E}
    (hI : Ordered codec lines) (hl : Progress t q l lines)
    (hstep : (machine codec).step t l disk lines = some (x, lines')) :
    ∃ new, Adds t (persisted codec lines) (persisted codec lines') new := by
  match l with
  | .requested (.read id v) =>
      obtain ⟨-, rfl⟩ := Prod.mk.inj (Option.some.inj hstep)
      exact ⟨_, adds_nil⟩
  | .requested (.append id es) =>
      obtain ⟨rfl, -⟩ := step_append hI hstep
      exact ⟨_, adds_nil⟩
  | .writing records out =>
      obtain ⟨id, es, base, -, -, hwrote⟩ := step_write hI hl hstep
      exact ⟨_, hwrote.adds⟩

theorem keeps_batches : (machine codec).Keeps (Ordered codec) fun t c lines =>
    Knowing (persisted codec) Progress t c lines
      ∧ Owning (persisted codec) (Unwritten codec) t c lines := by
  refine keeps.and (fun t q st h => h) fun t q l disk x st st' hI hl hnone hstep => ⟨?_, ?_⟩
  · match l with
    | .requested (.read id v) =>
        obtain ⟨rfl, rfl⟩ := Prod.mk.inj (Option.some.inj hstep)
        trivial
    | .requested (.append id es) =>
        obtain ⟨rfl, ⟨err, rfl⟩ | rfl⟩ := step_append hI hstep
        · trivial
        · exact hnone
    | .writing records out =>
        obtain ⟨-, ⟨rfl, -⟩ | ⟨⟨err, rfl⟩, -⟩⟩ := step_writing hstep
        · trivial
        · trivial
  · intro u c hu hc
    obtain ⟨new, hadds⟩ := step_adds hI hl hstep
    have hmine := hadds.mine_of_ne hu
    exact hc.congr hmine fun q l hl id => (hmine id).trans (hl id)

/-- A failed write leaves nothing behind exactly if its first line failed. -/
theorem Wrote.nothing_iff {t base : ℕ} {disk : Disk} {records : List (JournalRecord E)}
    {es : List E} (h : Wrote codec t disk records lines lines' id es base)
    (hnone : ∀ id, mine t (persisted codec lines) id = []) :
    (∀ id', mine t (persisted codec lines') id' = []) ↔ writtenBy codec disk records = 0 := by
  have hmine : ∀ id', mine t (persisted codec lines') id' = if id' = id then
      (stamp t base 0 es).take (writtenBy codec disk records) else [] := by
    intro id'
    rw [h.adds.mine_self, hnone, List.nil_append]
  have hle : writtenBy codec disk records ≤ (stamp t base 0 es).length := by
    have hle := writtenBy_le codec disk records
    rwa [h.batch, List.length_map, ← h.batch] at hle
  constructor
  -- the batch itself is at least as long as what is written of it
  · intro hall
    have hid := hall id
    rw [hmine, if_pos rfl] at hid
    have hlength := congrArg List.length hid
    rwa [List.length_take, Nat.min_eq_left hle] at hlength
  · intro hzero id'
    rw [hmine, hzero, List.take_zero, ite_self]

theorem decides_batches : (machine codec).Decides (Whole codec) (Ordered codec)
    (fun t c lines => Knowing (persisted codec) Progress t c lines
      ∧ Owning (persisted codec) (Unwritten codec) t c lines)
    fun t c lines => AllOrNothing t (persisted codec lines) c := by
  refine ⟨fun _ _ => trivial, fun _ _ _ _ => trivial, ?_⟩
  rintro t q l disk x st st' hI ⟨hl, hnone⟩ hstep
  obtain ⟨new, hadds⟩ := step_adds hI hl hstep
  refine ⟨?_, fun u c hu => allOrNothing_congr (hadds.mine_of_ne hu) c⟩
  match l with
  | .requested (.read id v) =>
      obtain rfl : .read id v = q := hl
      obtain ⟨rfl, rfl⟩ := Prod.mk.inj (Option.some.inj hstep)
      exact Iff.rfl
  | .requested (.append id es) =>
      obtain rfl : .append id es = q := hl
      obtain ⟨rfl, ⟨err, rfl⟩ | rfl⟩ := step_append hI hstep
      · exact iff_of_true hnone trivial
      · exact Iff.rfl
  | .writing records out =>
      obtain ⟨id, es, base, rfl, rfl, hwrote⟩ := step_write hI hl hstep
      rw [whole_iff]
      -- it answers `Ok` if all lines are written, and the lines before a failure stay
      obtain ⟨-, ⟨rfl, ho, hall⟩ | ⟨⟨err, rfl⟩, hnot⟩⟩ := step_writing hstep
      · refine iff_of_true (allOrNothing_stamp fun id' => ?_) (.inr ⟨ho, hall⟩)
        rw [hwrote.adds.mine_self, hnone, List.nil_append, hall, hwrote.batch, List.length_map,
          List.take_length]
      · rw [or_iff_left hnot]
        exact hwrote.nothing_iff hnone

/-- **The file journal** stores whole batches exactly if no append fails after its first line. -/
theorem batches_iff {ls : List (Label (Request E) Disk)}
    {s : Sys (Lines J) (Request E) (Local E) (Answer E)}
    (hrun : run (machine codec).sysStep (Sys.init []) ls = some s) :
    (∀ t, AllOrNothing t (persisted codec s.store) (s.calls t))
      ↔ Along (machine codec).sysStep (Machine.guardOf (Whole codec)) (Sys.init []) ls :=
  decides_batches.run_iff keeps_batches
    ⟨⟨fun _ _ => rfl, nofun⟩, fun _ => ⟨trivial, fun _ => rfl⟩⟩ hrun

end File

/-! ## Over the SQL journal -/

namespace Sql

variable {codec : Codec E J} {rows rows' : Rows J} {id : String}

/-- After the first event of a batch, the next one can be encoded and its version is free. -/
def Unbroken (codec : Codec E J) (rows : Rows J) (_ : ℕ) (l : Local E) (_ : Unit) : Prop :=
  match l with
  | .requested _ => True
  | .inserting id latest i payload _ _ => 0 < i →
      (codec.encode payload).isOk = true ∧ latest + i + 1 ∉ versions rows id

instance (codec : Codec E J) (rows : Rows J) (t : ℕ) (l : Local E) (e : Unit) :
    Decidable (Unbroken codec rows t l e) :=
  match l with
  | .requested _ => inferInstanceAs (Decidable True)
  | .inserting _ _ _ _ _ _ => inferInstanceAs (Decidable (_ → _))

/-- What is there of an append is what it has inserted. -/
def Inserted (codec : Codec E J) (t : ℕ) (q : Request E) (l : Local E) (rows : Rows J) : Prop :=
  match l with
  | .requested _ => ∀ id, mine t (persisted codec rows) id = []
  | .inserting id latest i payload events out => ∃ before,
      q = .append id (before ++ payload :: events) ∧ i = before.length
        ∧ out = stamp t latest 0 before
        ∧ ∀ id', mine t (persisted codec rows) id' = if id' = id then out else []

theorem Inserted.congr {t : ℕ} {q : Request E} {l : Local E} (h : Inserted codec t q l rows)
    (hmine : ∀ id, mine t (persisted codec rows') id = mine t (persisted codec rows) id) :
    Inserted codec t q l rows' := by
  cases l with
  | requested q' => exact fun id => (hmine id).trans (h id)
  | inserting id latest i payload events out =>
      obtain ⟨before, hq, hi, hout, hall⟩ := h
      exact ⟨before, hq, hi, hout, fun id' => (hmine id').trans (hall id')⟩

theorem taken_iff (v : ℕ) :
    ((rows id).any fun r => r.version = v) = true ↔ v ∈ versions rows id := by
  rw [List.any_eq_true, versions, List.mem_map]
  simp only [decide_eq_true_eq]

theorem insertRow_ok_free {row : JournalRow J} (h : insertRow rows id row = .ok rows') :
    row.version ∉ versions rows id := by
  rw [insertRow] at h
  split_ifs at h with hany
  rwa [taken_iff] at hany

/-- An insert that is not refused adds one event. -/
theorem insertRow_adds (h : Ordered codec rows) {t latest i : ℕ} {payload : E} {json : J}
    (hlatest : latest + i ≤ (versions rows id).length) (hjson : codec.encode payload = .ok json)
    (hins : insertRow rows id ⟨latest + i + 1, (t, i), json⟩ = .ok rows') :
    Adds t (persisted codec rows) (persisted codec rows')
      fun id' => if id' = id then [⟨(t, i), latest + i + 1, payload⟩] else [] := by
  refine ⟨(insertRow_encoded h hlatest hjson hins).2.2.2, fun id' e he => ?_⟩
  split_ifs at he
  · rw [List.mem_singleton.mp he]
  · cases he

theorem step_adds {t : ℕ} {q : Request E} {l : Local E} {e : Unit} {x : Local E ⊕ Answer E}
    (hI : Ordered codec rows) (hl : Progress codec t q l rows)
    (hstep : (machine codec).step t l e rows = some (x, rows')) :
    ∃ new, Adds t (persisted codec rows) (persisted codec rows') new := by
  match l with
  | .requested (.read id v) =>
      obtain ⟨-, rfl⟩ := Prod.mk.inj (Option.some.inj hstep)
      exact ⟨_, adds_nil⟩
  | .requested (.append id es) =>
      obtain ⟨-, rfl⟩ := Prod.mk.inj (Option.some.inj hstep)
      exact ⟨_, adds_nil⟩
  | .inserting id latest i payload events out =>
      obtain ⟨-, hlatest, -⟩ := hl
      rcases step_inserting hstep with ⟨-, rfl, -⟩ | ⟨json, hjson, hins, -⟩
      · exact ⟨_, adds_nil⟩
      · exact ⟨_, insertRow_adds hI hlatest hjson hins⟩

/-- An append that goes on after its events `before`, or answers with them. -/
theorem inserted_continue {t latest : ℕ} (before events : List E)
    (hmine : ∀ id', mine t (persisted codec rows) id'
      = if id' = id then stamp t latest 0 before else []) :
    Owning (persisted codec) (Inserted codec) t
        (.next (.append id (before ++ events))
          (continue_ id latest before.length (stamp t latest 0 before) events)) rows
      ∧ AllOrNothing t (persisted codec rows)
        (.next (.append id (before ++ events))
          (continue_ id latest before.length (stamp t latest 0 before) events)) := by
  cases events with
  | nil =>
      rw [List.append_nil]
      exact ⟨trivial, allOrNothing_stamp hmine⟩
  | cons payload events => exact ⟨⟨before, rfl, rfl, rfl, hmine⟩, trivial⟩

/-- The step of an insert, with what is there of the batch afterwards. -/
theorem step_insert {t latest i : ℕ} {q : Request E} {payload : E} {events : List E}
    {out : List (StoredEvent E)} {e : Unit} {x : Local E ⊕ Answer E} (hI : Ordered codec rows)
    (hl : Progress codec t q (.inserting id latest i payload events out) rows)
    (hown : Inserted codec t q (.inserting id latest i payload events out) rows)
    (hstep : (machine codec).step t (.inserting id latest i payload events out) e rows
      = some (x, rows')) :
    Owning (persisted codec) (Inserted codec) t (.next q x) rows'
      ∧ (AllOrNothing t (persisted codec rows') (.next q x)
        ↔ Unbroken codec rows t (.inserting id latest i payload events out) e) := by
  obtain ⟨before, rfl, rfl, rfl, hmine⟩ := hown
  -- a failed insert stores nothing; what the batch has in the store then is what it had before
  rcases step_inserting hstep with ⟨⟨err, rfl⟩, rfl, htaken⟩ | ⟨json, hjson, hins, rfl⟩
  · refine ⟨trivial, ?_⟩
    cases before with
    | nil =>
        refine iff_of_true (fun id' => ?_) nofun
        rw [hmine, stamp, ite_self]
    | cons payload' before =>
        refine iff_of_false (fun hnone => ?_) fun hun => ?_
        · have hid := hnone id
          rw [hmine, if_pos rfl] at hid
          cases hid
        · obtain ⟨hok, hfree⟩ := hun (Nat.succ_pos _)
          cases hjson : codec.encode payload with
          | error err =>
              rw [hjson] at hok
              cases hok
          | ok json => exact hfree ((taken_iff _).mp (htaken json hjson))
  -- a row that goes in is the next event of the batch
  · have hadds := insertRow_adds hI hl.2.1 hjson hins
    have hsnoc := stamp_snoc t latest 0 before payload
    rw [Nat.zero_add] at hsnoc
    have hmine' : ∀ id', mine t (persisted codec rows') id'
        = if id' = id then stamp t latest 0 (before ++ [payload]) else [] := by
      intro id'
      rw [hadds.mine_self, hmine, hsnoc]
      split_ifs
      · rfl
      · rfl
    have hnext := inserted_continue _ events hmine'
    rw [List.append_assoc, List.singleton_append, List.length_append, List.length_singleton,
      hsnoc] at hnext
    exact ⟨hnext.1, iff_of_true hnext.2 fun _ => ⟨by rw [hjson]; rfl, insertRow_ok_free hins⟩⟩

theorem keeps_batches : (machine codec).Keeps (Ordered codec) fun t c rows =>
    Knowing (persisted codec) (Progress codec) t c rows
      ∧ Owning (persisted codec) (Inserted codec) t c rows := by
  refine keeps.and (fun t q st h => h) fun t q l e x st st' hI hl hown hstep => ⟨?_, ?_⟩
  · match l with
    | .requested (.read id v) =>
        obtain ⟨rfl, rfl⟩ := Prod.mk.inj (Option.some.inj hstep)
        trivial
    | .requested (.append id es) =>
        obtain rfl : .append id es = q := hl
        obtain ⟨rfl, rfl⟩ := Prod.mk.inj (Option.some.inj hstep)
        exact (inserted_continue [] _ fun id' => by rw [hown, stamp, ite_self]).1
    | .inserting id latest i payload events out => exact (step_insert hI hl hown hstep).1
  · intro u c hu hc
    obtain ⟨new, hadds⟩ := step_adds hI hl hstep
    have hmine := hadds.mine_of_ne hu
    exact hc.congr hmine fun q l hl => hl.congr hmine

theorem decides_batches : (machine codec).Decides (Unbroken codec) (Ordered codec)
    (fun t c rows => Knowing (persisted codec) (Progress codec) t c rows
      ∧ Owning (persisted codec) (Inserted codec) t c rows)
    fun t c rows => AllOrNothing t (persisted codec rows) c := by
  refine ⟨fun _ _ => trivial, fun _ _ _ _ => trivial, ?_⟩
  rintro t q l e x st st' hI ⟨hl, hown⟩ hstep
  obtain ⟨new, hadds⟩ := step_adds hI hl hstep
  refine ⟨?_, fun u c hu => allOrNothing_congr (hadds.mine_of_ne hu) c⟩
  match l with
  | .requested (.read id v) =>
      obtain rfl : .read id v = q := hl
      obtain ⟨rfl, rfl⟩ := Prod.mk.inj (Option.some.inj hstep)
      exact Iff.rfl
  | .requested (.append id es) =>
      obtain rfl : .append id es = q := hl
      obtain ⟨rfl, rfl⟩ := Prod.mk.inj (Option.some.inj hstep)
      exact iff_of_true
        (inserted_continue [] _ fun id' => by rw [hown, stamp, ite_self]).2 trivial
  | .inserting id latest i payload events out => exact (step_insert hI hl hown hstep).2

/-- **The SQL journal** stores whole batches exactly if no append fails after its first row. -/
theorem batches_iff {ls : List (Label (Request E) Unit)}
    {s : Sys (Rows J) (Request E) (Local E) (Answer E)}
    (hrun : run (machine codec).sysStep (Sys.init fun _ => []) ls = some s) :
    (∀ t, AllOrNothing t (persisted codec s.store) (s.calls t))
      ↔ Along (machine codec).sysStep (Machine.guardOf (Unbroken codec))
        (Sys.init fun _ => []) ls :=
  decides_batches.run_iff keeps_batches
    ⟨⟨fun _ => rfl, nofun⟩, fun _ => ⟨trivial, fun _ => rfl⟩⟩ hrun

end Sql

/-! ## All stores -/

/-- **Batches**, for payloads that are decoded as they were encoded (`Codec.decode_encode`). In
    every interleaving an append to the memory store has stored its whole batch if it answers `Ok`,
    and nothing if it answers `Err`. For the file journal this holds exactly if in no append a line
    after the first fails to be encoded or written, for the SQL journal exactly if in no append an
    event after the first fails to be encoded or finds its version taken. -/
theorem stores_all_or_nothing_iff (codec : Codec E J) :
    (∀ ls s, run (Memory.machine (E := E)).sysStep (Sys.init fun _ => []) ls = some s →
      ∀ t, AllOrNothing t s.store (s.calls t))
    ∧ (∀ ls s, run (File.machine codec).sysStep (Sys.init []) ls = some s →
      ((∀ t, AllOrNothing t (File.persisted codec s.store) (s.calls t))
        ↔ Along (File.machine codec).sysStep (Machine.guardOf (File.Whole codec)) (Sys.init [])
          ls))
    ∧ ∀ ls s, run (Sql.machine codec).sysStep (Sys.init fun _ => []) ls = some s →
      ((∀ t, AllOrNothing t (Sql.persisted codec s.store) (s.calls t))
        ↔ Along (Sql.machine codec).sysStep (Machine.guardOf (Sql.Unbroken codec))
          (Sys.init fun _ => []) ls) :=
  ⟨fun _ _ => Memory.batches, fun _ _ => File.batches_iff, fun _ _ => Sql.batches_iff⟩

/-- An untagged enum: a boolean, or a map whose keys are pairs. -/
inductive Payload where
  | flag (b : Bool)
  | pairs
  deriving DecidableEq, Repr

/-- `serde_json` cannot encode the map. -/
def payloadCodec : Codec Payload String where
  encode
    | .flag b => .ok (if b then "true" else "false")
    | .pairs => .error "key must be a string"
  decode s := if s = "true" then .ok (.flag true) else if s = "false" then .ok (.flag false)
    else .error "data did not match any variant"
  decode_encode := by
    rintro (⟨_ | _⟩ | _) j h
    · obtain rfl := Except.ok.inj h
      rfl
    · obtain rfl := Except.ok.inj h
      rfl
    · cases h

/-- One append of two events, the second of which cannot be encoded: it fails, and the first event
    stays. -/
theorem stores_keep_broken_batch :
    (∃ s, run (File.machine payloadCodec).sysStep (Sys.init [])
        [.call 0 (.append "s" [.flag true, .pairs]), .step 0 goodDisk, .step 0 goodDisk] = some s
      ∧ s.calls 0 = .done (.append "s" [.flag true, .pairs])
        (.error (.serde "key must be a string"))
      ∧ File.persisted payloadCodec s.store "s" = [⟨(0, 0), 1, .flag true⟩]
      ∧ ¬ AllOrNothing 0 (File.persisted payloadCodec s.store) (s.calls 0))
    ∧ ∃ s, run (Sql.machine payloadCodec).sysStep (Sys.init fun _ => [])
        [.call 0 (.append "s" [.flag true, .pairs]), .step 0 (), .step 0 (), .step 0 ()] = some s
      ∧ s.calls 0 = .done (.append "s" [.flag true, .pairs]) (.error (.io "key must be a string"))
      ∧ Sql.persisted payloadCodec s.store "s" = [⟨(0, 0), 1, .flag true⟩]
      ∧ ¬ AllOrNothing 0 (Sql.persisted payloadCodec s.store) (s.calls 0) := by
  constructor
  · have hlast : (run (File.machine payloadCodec).sysStep (Sys.init [])
        [.call 0 (.append "s" [.flag true, .pairs]), .step 0 goodDisk, .step 0 goodDisk]).map
        (fun s => (s.calls 0, File.persisted payloadCodec s.store "s"))
        = some (.done (.append "s" [.flag true, .pairs])
          (.error (.serde "key must be a string")), [⟨(0, 0), 1, .flag true⟩]) := by
      decide +kernel
    obtain ⟨s, hrun, hboth⟩ := exists_run _ hlast
    obtain ⟨hcall, hstored⟩ := Prod.mk.inj hboth
    have hmem : ⟨(0, 0), 1, .flag true⟩ ∈ File.persisted payloadCodec s.store "s" := by
      rw [hstored]
      exact List.mem_singleton.mpr rfl
    exact ⟨s, hrun, hcall, hstored, not_allOrNothing_of_error hcall hmem rfl⟩
  · have hlast : (run (Sql.machine payloadCodec).sysStep (Sys.init fun _ => [])
        [.call 0 (.append "s" [.flag true, .pairs]), .step 0 (), .step 0 (), .step 0 ()]).map
        (fun s => (s.calls 0, Sql.persisted payloadCodec s.store "s"))
        = some (.done (.append "s" [.flag true, .pairs])
          (.error (.io "key must be a string")), [⟨(0, 0), 1, .flag true⟩]) := by
      decide +kernel
    obtain ⟨s, hrun, hboth⟩ := exists_run _ hlast
    obtain ⟨hcall, hstored⟩ := Prod.mk.inj hboth
    have hmem : ⟨(0, 0), 1, .flag true⟩ ∈ Sql.persisted payloadCodec s.store "s" := by
      rw [hstored]
      exact List.mem_singleton.mpr rfl
    exact ⟨s, hrun, hcall, hstored, not_allOrNothing_of_error hcall hmem rfl⟩

/-- Two appends to one stream, the second refused before it has stored anything. -/
theorem stores_all_or_nothing_iff_refused :
    ∃ s, run (Sql.machine payloadCodec).sysStep (Sys.init fun _ => [])
        [.call 0 (.append "s" [.flag true, .flag false]), .call 1 (.append "s" [.flag true]),
          .step 0 (), .step 1 (), .step 0 (), .step 0 (), .step 1 ()] = some s
      ∧ s.calls 1 = .done (.append "s" [.flag true]) (.error (.versionConflict "s" 0 1))
      ∧ ∀ t, AllOrNothing t (Sql.persisted payloadCodec s.store) (s.calls t) := by
  have hlast : (run (Sql.machine payloadCodec).sysStep (Sys.init fun _ => [])
      [.call 0 (.append "s" [.flag true, .flag false]), .call 1 (.append "s" [.flag true]),
        .step 0 (), .step 1 (), .step 0 (), .step 0 (), .step 1 ()]).map (fun s => s.calls 1)
      = some (.done (.append "s" [.flag true]) (.error (.versionConflict "s" 0 1))) := by
    decide +kernel
  obtain ⟨s, hrun, hcall⟩ := exists_run _ hlast
  exact ⟨s, hrun, hcall,
    ((stores_all_or_nothing_iff payloadCodec).2.2 _ s hrun).mpr (by decide +kernel)⟩

end IdEffect.Events
