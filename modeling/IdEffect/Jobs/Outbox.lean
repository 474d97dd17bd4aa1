import Mathlib.Data.List.Sort
import Mathlib.Data.List.TakeWhile
import Mathlib.Data.String.Basic
import IdEffect.Lib.Assoc
import IdEffect.Lib.Transition

set_option autoImplicit false

/-! # The outbox and its relay

`relay_outbox` fetches a batch of unpublished rows, publishes them one by one, and marks the whole
batch afterwards. If a row cannot be published it returns at once, and the rows that were published
before it are left unmarked: the next relay publishes them again. `mark_published` stops at the
first id it does not know, with the rows before it marked. So the relay keeps its word as long as
the rows that fail are the first of their batches. -/

namespace IdEffect.Jobs

open Transition

structure OutboxRecord where
  id : String
  aggregateId : String
  eventType : String
  payload : List UInt8
  createdMs : ℤ
  published : Bool
  deriving DecidableEq, Repr

inductive OutboxError where
  | lock (message : String)
  | notFound (id : String)
  | storage (message : String)
  deriving DecidableEq, Repr

def OutboxRecord.mark (row : OutboxRecord) : OutboxRecord := { row with published := true }

@[simp] theorem OutboxRecord.mark_id (row : OutboxRecord) : row.mark.id = row.id := rfl

/-- The rows, each under its id. -/
structure MemoryOutbox where
  rows : Assoc.Map String OutboxRecord
  keyed : ∀ p ∈ rows.entries, p.2.id = p.1

namespace MemoryOutbox

def new : MemoryOutbox := ⟨.empty, fun _ hp => absurd hp List.not_mem_nil⟩

def row (o : MemoryOutbox) (id : String) : Option OutboxRecord := o.rows.get id

def insert (o : MemoryOutbox) (record : OutboxRecord) : MemoryOutbox where
  rows := o.rows.insert record.id record
  keyed := by
    intro p hp
    rcases Assoc.mem_insert hp with rfl | hp
    · rfl
    · exact o.keyed p hp

/-- The unpublished rows in the order they were created in, by ids where they were created at the
    same time. -/
def fetchUnpublished (o : MemoryOutbox) (limit : ℕ) : List OutboxRecord :=
  (((o.rows.entries.map Prod.snd).filter fun row => !row.published).insertionSort
    fun row row' => row.createdMs ≤ row'.createdMs).take limit

/-- The ids are gone through in turn, up to the first that is not there. -/
def markPublished : MemoryOutbox → List String → Except OutboxError Unit × MemoryOutbox
  | o, [] => (.ok (), o)
  | o, id :: ids =>
      match o.row id with
      | none => (.error (.notFound id), o)
      | some row => (o.insert row.mark).markPublished ids

end MemoryOutbox

/-- The calls of `publish`, each with whether it was answered `Ok`, and the ids to be marked. -/
def publishAll (publish : OutboxRecord → Except OutboxError Unit) :
    List OutboxRecord → List (String × Bool) × Except OutboxError (List String)
  | [] => ([], .ok [])
  | row :: rows =>
      match publish row with
      | .error e => ([(row.id, false)], .error e)
      | .ok () =>
          let rest := publishAll publish rows
          ((row.id, true) :: rest.1, rest.2.map fun ids => row.id :: ids)

/-- What a relay returns, what it leaves behind, and the calls of `publish` it has made. -/
structure Relay where
  result : Except OutboxError ℕ
  outbox : MemoryOutbox
  calls : List (String × Bool)

def relayOutbox (o : MemoryOutbox) (limit : ℕ) (publish : OutboxRecord → Except OutboxError Unit) :
    Relay :=
  let batch := o.fetchUnpublished limit
  if batch.isEmpty then ⟨.ok 0, o, []⟩
  else
    match publishAll publish batch with
    | (calls, .error e) => ⟨.error e, o, calls⟩
    | (calls, .ok ids) =>
        match o.markPublished ids with
        | (.error e, o) => ⟨.error e, o, calls⟩
        | (.ok (), o) => ⟨.ok ids.length, o, calls⟩

namespace MemoryOutbox

variable {o : MemoryOutbox} {id : String} {ids : List String} {record : OutboxRecord} {limit : ℕ}

theorem row_insert (o : MemoryOutbox) (record : OutboxRecord) (id : String) :
    (o.insert record).row id = if id = record.id then some record else o.row id :=
  Assoc.get_insert ..

theorem id_of_row (h : o.row id = some record) : record.id = id :=
  o.keyed (id, record) (Assoc.mem_of_get h)

/-- Rows that are there stay there, and no others come. -/
theorem row_mark (h : o.row id = some record) (id' : String) :
    (o.insert record.mark).row id' = if id' = id then (o.row id').map .mark else o.row id' := by
  rw [row_insert, OutboxRecord.mark_id, id_of_row h]
  split
  · next heq => rw [heq, h, Option.map_some]
  · rfl

def known (o : MemoryOutbox) (id : String) : Bool := (o.row id).isSome

theorem known_mark (h : o.row id = some record) (id' : String) :
    (o.insert record.mark).known id' = o.known id' := by
  rw [known, row_mark h, known]
  split
  · rw [Option.isSome_map]
  · rfl

/-- An id that is not there is found at the first place it is named. -/
theorem markPublished_fst (o : MemoryOutbox) (ids : List String) :
    (o.markPublished ids).1 = match ids.find? fun id => !o.known id with
      | none => .ok ()
      | some id => .error (.notFound id) := by
  induction ids generalizing o with
  | nil => rfl
  | cons id ids ih =>
      rw [markPublished]
      cases h : o.row id with
      | none =>
          have hk : o.known id = false := by rw [known, h]; rfl
          rw [List.find?_cons, hk]
          rfl
      | some record =>
          have hk : o.known id = true := by rw [known, h]; rfl
          simp only [ih, known_mark h]
          rw [List.find?_cons, hk]
          rfl

theorem mark_mark (row : Option OutboxRecord) :
    (row.map OutboxRecord.mark).map OutboxRecord.mark = row.map OutboxRecord.mark := by
  rw [Option.map_map]
  rfl

/-- The ids before that are marked. -/
theorem row_markPublished (o : MemoryOutbox) (ids : List String) (id : String) :
    (o.markPublished ids).2.row id
      = if id ∈ ids.takeWhile o.known then (o.row id).map .mark else o.row id := by
  induction ids generalizing o with
  | nil => rfl
  | cons id' ids ih =>
      rw [markPublished]
      cases h : o.row id' with
      | none =>
          have hk : o.known id' = false := by rw [known, h]; rfl
          rw [List.takeWhile_cons, hk]
          rfl
      | some record =>
          have hk : o.known id' = true := by rw [known, h]; rfl
          have hknown : (o.insert record.mark).known = o.known := funext (known_mark h)
          simp only [ih, hknown, row_mark h]
          rw [List.takeWhile_cons, hk, if_pos rfl]
          by_cases heq : id = id'
          · subst heq
            rw [if_pos rfl, if_pos (List.mem_cons_self ..), mark_mark, ite_self]
          · rw [if_neg heq]
            simp only [List.mem_cons, heq, false_or]

/-! ## The batch -/

theorem mem_fetchUnpublished (h : record ∈ o.fetchUnpublished limit) :
    o.row record.id = some record ∧ record.published = false := by
  have hmem := (List.mem_insertionSort _).1 (List.mem_of_mem_take h)
  obtain ⟨hrow, hpub⟩ := List.mem_filter.1 hmem
  obtain ⟨⟨id, _⟩, hp, rfl⟩ := List.mem_map.1 hrow
  refine ⟨?_, by simpa using hpub⟩
  rw [o.keyed _ hp]
  exact o.rows.ascending.get_of_mem hp

theorem nodup_fetchUnpublished (o : MemoryOutbox) (limit : ℕ) :
    ((o.fetchUnpublished limit).map OutboxRecord.id).Nodup := by
  have hids : (o.rows.entries.map Prod.snd).map OutboxRecord.id = o.rows.entries.map Prod.fst := by
    rw [List.map_map]
    exact List.map_congr_left fun p hp => o.keyed p hp
  have hkeys : ((o.rows.entries.map Prod.snd).map OutboxRecord.id).Nodup := by
    rw [hids, List.nodup_iff_pairwise_ne, List.pairwise_map]
    exact o.rows.ascending.imp fun hlt => ne_of_lt hlt
  have hsorted := ((List.perm_insertionSort (fun row row' => row.createdMs ≤ row'.createdMs)
    ((o.rows.entries.map Prod.snd).filter fun row => !row.published)).map OutboxRecord.id).nodup_iff
  refine ((List.take_sublist _ _).map _).nodup (hsorted.2 ?_)
  exact ((List.filter_sublist).map _).nodup hkeys

/-- The batch can be marked, and nothing else is. -/
theorem markPublished_batch (o : MemoryOutbox) (limit : ℕ) :
    (o.markPublished ((o.fetchUnpublished limit).map OutboxRecord.id)).1 = .ok ()
      ∧ ∀ id, (o.markPublished ((o.fetchUnpublished limit).map OutboxRecord.id)).2.row id
        = if id ∈ (o.fetchUnpublished limit).map OutboxRecord.id then (o.row id).map .mark
          else o.row id := by
  have hknown : ∀ id ∈ (o.fetchUnpublished limit).map OutboxRecord.id, o.known id = true := by
    intro id hid
    obtain ⟨record, hrecord, rfl⟩ := List.mem_map.1 hid
    rw [known, (mem_fetchUnpublished hrecord).1]
    rfl
  refine ⟨?_, fun id => ?_⟩
  · rw [markPublished_fst, List.find?_eq_none.2 fun id hid => by rw [hknown id hid]; simp]
  · rw [row_markPublished, List.takeWhile_eq_self_iff.2 hknown]

/-- What is asked of `mark_published`: with an id that is not there it returns `NotFound` and
    changes no row. -/
def MarksAllOrNone (o : MemoryOutbox) (ids : List String) : Prop :=
  (∃ id ∈ ids, o.row id = none) →
    (∃ id ∈ ids, (o.markPublished ids).1 = .error (.notFound id))
      ∧ ∀ id, (o.markPublished ids).2.row id = o.row id

/-- The rows that are named before the first id that is not there are published already. -/
def MarksNothing (o : MemoryOutbox) (ids : List String) : Prop :=
  (∃ id ∈ ids, o.row id = none) →
    ∀ id ∈ ids.takeWhile o.known, ∀ row ∈ o.row id, row.published = true

theorem mark_eq_self_iff (row : OutboxRecord) : row.mark = row ↔ row.published = true := by
  obtain ⟨id, aggregateId, eventType, payload, createdMs, published⟩ := row
  simp [OutboxRecord.mark, eq_comm]

theorem marksAllOrNone_iff (o : MemoryOutbox) (ids : List String) :
    o.MarksAllOrNone ids ↔ o.MarksNothing ids := by
  refine imp_congr_right fun ⟨missing, hmem, hmissing⟩ => ?_
  -- the error is there in any case
  have herror : ∃ id ∈ ids, (o.markPublished ids).1 = .error (.notFound id) := by
    rw [markPublished_fst]
    cases hfind : ids.find? fun id => !o.known id with
    | some id => exact ⟨id, List.mem_of_find?_eq_some hfind, rfl⟩
    | none =>
        have hknown := List.find?_eq_none.1 hfind missing hmem
        rw [known, hmissing] at hknown
        exact absurd rfl hknown
  rw [and_iff_right herror]
  refine ⟨fun h id hid row hrow => ?_, fun h id => ?_⟩
  · have hsame := h id
    rw [row_markPublished, if_pos hid, Option.mem_def.1 hrow, Option.map_some,
      Option.some.injEq] at hsame
    exact (mark_eq_self_iff row).1 hsame
  · rw [row_markPublished]
    split
    · next hid =>
        cases hrow : o.row id with
        | none => rfl
        | some row =>
            rw [Option.map_some, (mark_eq_self_iff row).2 (h id hid row hrow)]
    · rfl

end MemoryOutbox

/-! ## One relay -/

section Relays

variable {publish : OutboxRecord → Except OutboxError Unit} {rows : List OutboxRecord}

theorem publishAll_of_ok (h : ∀ row ∈ rows, publish row = .ok ()) :
    publishAll publish rows
      = (rows.map fun row => (row.id, true), .ok (rows.map OutboxRecord.id)) := by
  induction rows with
  | nil => rfl
  | cons row rows ih =>
      rw [publishAll, h row (List.mem_cons_self ..), ih fun r hr => h r (List.mem_cons_of_mem _ hr)]
      rfl

/-- A row that fails ends the loop. -/
theorem publishAll_of_error (h : ∃ row ∈ rows, publish row ≠ .ok ()) :
    ∃ e, (publishAll publish rows).2 = .error e := by
  induction rows with
  | nil =>
      obtain ⟨row, hrow, -⟩ := h
      cases hrow
  | cons row rows ih =>
      rw [publishAll]
      cases hrow : publish row with
      | error e => exact ⟨e, rfl⟩
      | ok _ =>
          obtain ⟨bad, hbad, herr⟩ := h
          rcases List.mem_cons.1 hbad with rfl | hbad
          · exact absurd hrow herr
          · obtain ⟨e, he⟩ := ih ⟨bad, hbad, herr⟩
            exact ⟨e, by simp only [he]; rfl⟩

end Relays

/-- The outbox, and all calls of `publish` so far, each with whether it was answered `Ok`. -/
structure Relaying where
  outbox : MemoryOutbox
  log : List (String × Bool)

namespace Relaying

/-- A call of `relay_outbox`, by its limit and what `publish` answers for each row. -/
structure Label where
  limit : ℕ
  publish : OutboxRecord → Except OutboxError Unit

def step (s : Relaying) (l : Label) : Option Relaying :=
  let relay := relayOutbox s.outbox l.limit l.publish
  some ⟨relay.outbox, s.log ++ relay.calls⟩

/-- What was published is marked, and is not published again; what was not is as it was at the
    beginning. -/
structure Faithful (o : MemoryOutbox) (s : Relaying) : Prop where
  delivered : ∀ id, (id, true) ∈ s.log → ∃ row, s.outbox.row id = some row ∧ row.published = true
  once : s.log.Pairwise fun call later => call.1 = later.1 → call.2 = false
  undelivered : ∀ id, (id, true) ∉ s.log → s.outbox.row id = o.row id

/-- All rows of the batch can be published, or the first one cannot. -/
def FailsFirst (s : Relaying) (l : Label) : Prop :=
  (∀ row ∈ s.outbox.fetchUnpublished l.limit, l.publish row = .ok ())
    ∨ ∀ row ∈ (s.outbox.fetchUnpublished l.limit).head?, l.publish row ≠ .ok ()

variable {o : MemoryOutbox} {s s' : Relaying} {l : Label}

/-- What a relay can come to: there is nothing to do, the whole batch is published and marked, or
    nothing is marked. -/
inductive Step (s : Relaying) (l : Label) : Relaying → Prop where
  | done (hall : ∀ row ∈ s.outbox.fetchUnpublished l.limit, l.publish row = .ok ())
      (outbox : MemoryOutbox)
      (hrow : ∀ id, outbox.row id
        = if id ∈ (s.outbox.fetchUnpublished l.limit).map OutboxRecord.id
          then (s.outbox.row id).map .mark else s.outbox.row id) :
      Step s l
        ⟨outbox, s.log ++ (s.outbox.fetchUnpublished l.limit).map fun row => (row.id, true)⟩
  | refused {row : OutboxRecord} {rows : List OutboxRecord}
      (hbatch : s.outbox.fetchUnpublished l.limit = row :: rows) (hrow : l.publish row ≠ .ok ()) :
      Step s l ⟨s.outbox, s.log ++ [(row.id, false)]⟩
  | broken {row : OutboxRecord} {rows : List OutboxRecord}
      (hbatch : s.outbox.fetchUnpublished l.limit = row :: rows) (hrow : l.publish row = .ok ())
      (hrows : ∃ row ∈ rows, l.publish row ≠ .ok ()) (calls : List (String × Bool)) :
      Step s l ⟨s.outbox, s.log ++ (row.id, true) :: calls⟩

theorem Step.of_step (h : step s l = some s') : Step s l s' := by
  obtain rfl := Option.some.inj h
  obtain ⟨hmark, hmarked⟩ := s.outbox.markPublished_batch l.limit
  by_cases hall : ∀ row ∈ s.outbox.fetchUnpublished l.limit, l.publish row = .ok ()
  · rw [relayOutbox, publishAll_of_ok hall]
    split
    · next hempty =>
        rw [List.isEmpty_iff] at hempty
        have hdone := Step.done hall s.outbox (by rw [hempty]; exact fun id => rfl)
        rw [hempty] at hdone
        exact hdone
    · have heq : s.outbox.markPublished ((s.outbox.fetchUnpublished l.limit).map OutboxRecord.id)
          = (.ok (), (s.outbox.markPublished
            ((s.outbox.fetchUnpublished l.limit).map OutboxRecord.id)).2) := by
        rw [← hmark]
      simp only
      rw [heq]
      exact .done hall _ hmarked
  · push Not at hall
    obtain ⟨e, he⟩ := publishAll_of_error hall
    cases hbatch : s.outbox.fetchUnpublished l.limit with
    | nil =>
        rw [hbatch] at hall
        obtain ⟨row, hrow, -⟩ := hall
        cases hrow
    | cons row rows =>
        rw [hbatch] at hall he
        have hpublish : publishAll l.publish (row :: rows)
            = ((publishAll l.publish (row :: rows)).1, .error e) := by rw [← he]
        have hrelay : relayOutbox s.outbox l.limit l.publish
            = ⟨.error e, s.outbox, (publishAll l.publish (row :: rows)).1⟩ := by
          rw [relayOutbox, hbatch, List.isEmpty_cons, if_neg Bool.false_ne_true, hpublish]
        simp only [hrelay, publishAll]
        cases hrow : l.publish row with
        | error e => exact .refused hbatch (by rw [hrow]; exact fun heq => by cases heq)
        | ok _ =>
            refine .broken hbatch hrow ?_ _
            obtain ⟨bad, hbad, herr⟩ := hall
            rcases List.mem_cons.1 hbad with rfl | hbad
            · exact absurd hrow herr
            · exact ⟨bad, hbad, herr⟩

/-- The rows of a batch have not been delivered before. -/
theorem Faithful.fresh (h : Faithful o s) {limit : ℕ} {row : OutboxRecord}
    (hrow : row ∈ s.outbox.fetchUnpublished limit) : (row.id, true) ∉ s.log := by
  intro hlog
  obtain ⟨hfound, hpub⟩ := MemoryOutbox.mem_fetchUnpublished hrow
  obtain ⟨row', hrow', hpub'⟩ := h.delivered row.id hlog
  rw [hfound, Option.some.injEq] at hrow'
  rw [← hrow', hpub] at hpub'
  cases hpub'

theorem Faithful.once_of_fresh (h : Faithful o s) (limit : ℕ) {calls : List (String × Bool)}
    (hcalls : calls.Pairwise fun call later => call.1 = later.1 → call.2 = false)
    (hbatch : ∀ call ∈ calls, ∃ row ∈ s.outbox.fetchUnpublished limit, row.id = call.1) :
    (s.log ++ calls).Pairwise fun call later => call.1 = later.1 → call.2 = false := by
  refine List.pairwise_append.2 ⟨h.once, hcalls, fun call hcall later hlater heq => ?_⟩
  obtain ⟨row, hrow, hid⟩ := hbatch later hlater
  obtain ⟨id, delivered⟩ := call
  cases delivered with
  | false => rfl
  | true =>
      have hmem : (row.id, true) ∈ s.log := hid.trans heq.symm ▸ hcall
      exact absurd hmem (h.fresh hrow)

/-- A relay keeps its word exactly when the row that fails is the first of the batch. -/
theorem Step.faithful_iff (hstep : Step s l s') (h : Faithful o s) :
    Faithful o s' ↔ FailsFirst s l := by
  cases hstep with
  | done hall outbox hrow =>
      have hmem : ∀ id,
          (id, true) ∈ (s.outbox.fetchUnpublished l.limit).map (fun row => (row.id, true))
            ↔ id ∈ (s.outbox.fetchUnpublished l.limit).map OutboxRecord.id := by
        intro id
        simp only [List.mem_map, Prod.mk.injEq, and_true]
      refine iff_of_true ⟨fun id hid => ?_, h.once_of_fresh l.limit ?_ fun call hcall => ?_,
        fun id hid => ?_⟩ (Or.inl hall)
      · rw [hrow]
        split
        · next hbatch =>
            obtain ⟨row, hmem, rfl⟩ := List.mem_map.1 hbatch
            rw [(MemoryOutbox.mem_fetchUnpublished hmem).1]
            exact ⟨row.mark, rfl, rfl⟩
        · next hbatch =>
            exact h.delivered id ((List.mem_append.1 hid).resolve_right
              fun hnew => hbatch ((hmem id).1 hnew))
      · rw [List.pairwise_map]
        have hnodup := s.outbox.nodup_fetchUnpublished l.limit
        rw [List.nodup_iff_pairwise_ne, List.pairwise_map] at hnodup
        exact hnodup.imp fun hne heq => absurd heq hne
      · obtain ⟨row, hrow, rfl⟩ := List.mem_map.1 hcall
        exact ⟨row, hrow, rfl⟩
      · rw [List.mem_append, not_or, hmem] at hid
        rw [hrow, if_neg hid.2]
        exact h.undelivered id hid.1
  | @refused row rows hbatch hrow =>
      have hfirst : row ∈ s.outbox.fetchUnpublished l.limit := hbatch ▸ List.mem_cons_self ..
      have hlog : ∀ id, (id, true) ∈ s.log ++ [(row.id, false)] ↔ (id, true) ∈ s.log := by simp
      refine iff_of_true ⟨fun id hid => h.delivered id ((hlog id).1 hid),
        h.once_of_fresh l.limit (List.pairwise_singleton ..) fun call hcall => ?_,
        fun id hid => h.undelivered id (mt (hlog id).2 hid)⟩ (Or.inr fun first hhead => ?_)
      · obtain rfl := List.mem_singleton.1 hcall
        exact ⟨row, hfirst, rfl⟩
      · rw [hbatch, List.head?_cons, Option.mem_def, Option.some.injEq] at hhead
        exact hhead ▸ hrow
  | @broken row rows hbatch hrow hrows calls =>
      have hfirst : row ∈ s.outbox.fetchUnpublished l.limit := hbatch ▸ List.mem_cons_self ..
      refine iff_of_false (fun h' => ?_) ?_
      · exact h'.fresh hfirst (List.mem_append_right _ (List.mem_cons_self ..))
      · rintro (hall | hhead)
        · obtain ⟨bad, hbad, herr⟩ := hrows
          exact herr (hall bad (hbatch ▸ List.mem_cons_of_mem _ hbad))
        · exact hhead row (by rw [hbatch]; rfl) hrow

/-- **The relay does not republish what it has delivered as long as in every batch the row that
    fails is the first one**, and does so once another one fails. An id that is not there keeps
    `mark_published` from marking rows exactly when those named before it are marked already. -/
theorem faithful_iff_failsFirst (o : MemoryOutbox) (ls : List Label) :
    (Throughout step (Faithful o) ⟨o, []⟩ ls ↔ Along step FailsFirst ⟨o, []⟩ ls)
      ∧ ∀ (o : MemoryOutbox) (ids : List String), o.MarksAllOrNone ids ↔ o.MarksNothing ids := by
  refine ⟨?_, MemoryOutbox.marksAllOrNone_iff⟩
  obtain ⟨s', hrun⟩ := exists_run_of_total (fun s l => ⟨_, rfl⟩) (⟨o, []⟩ : Relaying) ls
  refine throughout_iff_along (I := fun _ => True) (fun _ _ _ _ _ _ _ => trivial)
    (fun _ _ _ _ h hstep => (Step.of_step hstep).faithful_iff h) trivial ?_ hrun
  exact ⟨fun _ hid => absurd hid List.not_mem_nil, .nil, fun _ _ => rfl⟩

def sample (id : String) : OutboxRecord := ⟨id, "order", "OrderPlaced", [], 0, false⟩

/-- The second of two rows cannot be published, and the first is published twice. -/
theorem not_always_faithful :
    ¬ ∀ (o : MemoryOutbox) (ls : List Label), Throughout step (Faithful o) ⟨o, []⟩ ls := by
  intro h
  have hfaithful := (h ((MemoryOutbox.new.insert (sample "a")).insert (sample "b"))
    [⟨10, fun row => if row.id = "b" then .error (.lock "relay fail") else .ok ()⟩]).2 _ rfl
  obtain ⟨row, hrow, hpub⟩ := hfaithful.delivered "a" (by decide +kernel)
  obtain rfl : sample "a" = row := by
    have hsome : some (sample "a") = some row := by rw [← hrow]; decide +kernel
    exact Option.some.inj hsome
  cases hpub

end Relaying

end IdEffect.Jobs
