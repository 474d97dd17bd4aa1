import IdEffect.Jobs.Outbox
import IdEffect.Lib.Ranked

set_option autoImplicit false

/-! # The order of the relay

`MemoryOutbox` keeps its rows under their ids and sorts those it fetches by `created_ms`. Rows that
were created in the same millisecond come in the order of their ids, which are random, so that a
relay publishes in the order of insertion only where the ids happen to agree with it
(`inOrder_iff_tiesInOrder`). -/

namespace IdEffect.Jobs

open Transition Ranked

/-- `now_ms`, by the milliseconds since the epoch. -/
def nowMs (time : ℤ) : ℤ := if time < 0 then 0 else min time 9223372036854775807

theorem nowMs_mono {time time' : ℤ} (h : time ≤ time') : nowMs time ≤ nowMs time' := by
  unfold nowMs
  split_ifs <;> omega

/-- The generated id and the time are parameters. -/
def OutboxRecord.new (id aggregateId eventType : String) (payload : List UInt8) (time : ℤ) :
    OutboxRecord :=
  ⟨id, aggregateId, eventType, payload, nowMs time, false⟩

/-! ## The system -/

/-- `inserted` are the rows in the order they were inserted in, `published` the ids of the rows in
    the order `publish` was called. -/
structure Feed where
  outbox : MemoryOutbox
  time : ℤ
  inserted : List OutboxRecord
  published : List String

namespace Feed

/-- A record is made and inserted, or the relay is called; every `publish` succeeds. -/
inductive Label where
  | insert (id aggregateId eventType : String) (payload : List UInt8) (time : ℤ)
  | relay (limit : ℕ)

def start (time : ℤ) : Feed := ⟨.new, time, [], []⟩

def ids (s : Feed) : List String := s.inserted.map OutboxRecord.id

/-- Ids are generated once, and the clock does not go backwards. -/
def step (s : Feed) : Label → Option Feed
  | .insert id aggregateId eventType payload time =>
      if id ∈ s.ids ∨ time < s.time then none
      else
        let record := .new id aggregateId eventType payload time
        some { s with
          outbox := s.outbox.insert record
          time
          inserted := s.inserted ++ [record] }
  | .relay limit =>
      let relay := relayOutbox s.outbox limit fun _ => .ok ()
      some { s with
        outbox := relay.outbox
        published := s.published ++ relay.calls.map Prod.fst }

/-- The rows are published in the order they were inserted in, none left out. -/
def InOrder (s : Feed) : Prop := s.published <+: s.ids

/-- The rows that are not published yet, as they were inserted. -/
def pending (s : Feed) : List OutboxRecord := s.inserted.filter fun row => row.id ∉ s.published

/-- Each of the first `limit` pending rows has a smaller id than those behind it that were created
    in the same millisecond. -/
def TiesInOrder (s : Feed) : Label → Prop
  | .insert .. => True
  | .relay limit =>
      LeastFirst (fun row later => row.createdMs = later.createdMs → row.id < later.id) limit
        s.pending

/-! ## What is kept -/

/-- The outbox holds the rows that were inserted, marked where they are published. -/
structure Kept (s : Feed) : Prop where
  nodup : s.ids.Nodup
  fresh : ∀ r ∈ s.inserted, r.published = false
  known : ∀ id ∈ s.published, id ∈ s.ids
  row : ∀ id record, s.outbox.row id = some record ↔
    ∃ r ∈ s.inserted, r.id = id ∧ record = if id ∈ s.published then r.mark else r
  stamps : s.inserted.Pairwise fun r r' => r.createdMs ≤ r'.createdMs
  bound : ∀ r ∈ s.inserted, r.createdMs ≤ nowMs s.time

variable {s s' : Feed}

theorem kept_start (time : ℤ) : Kept (start time) where
  nodup := .nil
  fresh := fun _ hr => absurd hr List.not_mem_nil
  known := fun _ hid => absurd hid List.not_mem_nil
  row := fun id record => by simp [start, MemoryOutbox.row, MemoryOutbox.new, Assoc.Map.get,
    Assoc.Map.empty]
  stamps := .nil
  bound := fun _ hr => absurd hr List.not_mem_nil

def added (s : Feed) (record : OutboxRecord) (time : ℤ) : Feed :=
  { s with outbox := s.outbox.insert record, time, inserted := s.inserted ++ [record] }

theorem Kept.added (h : Kept s) {record : OutboxRecord} {time : ℤ} (hid : record.id ∉ s.ids)
    (hpub : record.published = false) (htime : nowMs s.time ≤ record.createdMs)
    (hbound : record.createdMs ≤ nowMs time) : Kept (s.added record time) where
  nodup := by
    rw [ids, Feed.added, List.map_append]
    refine List.nodup_append.2 ⟨h.nodup, List.nodup_singleton _, fun i hi j hj => ?_⟩
    rintro rfl
    exact hid (List.mem_singleton.1 hj ▸ hi)
  fresh := by
    intro r hr
    rcases List.mem_append.1 hr with hr | hr
    · exact h.fresh r hr
    · rw [List.mem_singleton.1 hr, hpub]
  known := by
    intro i hi
    rw [ids, Feed.added, List.map_append]
    exact List.mem_append_left _ (h.known i hi)
  row := by
    intro i row
    have hnew : record.id ∉ s.published := fun hp => hid (h.known _ hp)
    have hrow : (s.added record time).outbox.row i
        = if i = record.id then some record else s.outbox.row i := MemoryOutbox.row_insert ..
    have hins : (s.added record time).inserted = s.inserted ++ [record] := rfl
    have hpubs : (s.added record time).published = s.published := rfl
    rw [hrow, hins, hpubs]
    by_cases hi : i = record.id
    · subst hi
      simp only [if_pos, if_neg hnew, Option.some.injEq]
      constructor
      · rintro rfl
        exact ⟨record, List.mem_append_right _ (List.mem_singleton_self _), rfl, rfl⟩
      · rintro ⟨r, hr, hrid, rfl⟩
        rcases List.mem_append.1 hr with hr | hr
        · exact absurd (hrid ▸ List.mem_map_of_mem hr) hid
        · exact (List.mem_singleton.1 hr).symm
    · rw [if_neg hi, h.row]
      refine exists_congr fun r => and_congr_left fun hr => ?_
      rw [List.mem_append, or_iff_left]
      intro hmem
      rw [List.mem_singleton.1 hmem] at hr
      exact hi hr.1.symm
  stamps := by
    refine List.pairwise_append.2 ⟨h.stamps, List.pairwise_singleton .., fun r hr r' hr' => ?_⟩
    rw [List.mem_singleton.1 hr']
    exact (h.bound r hr).trans htime
  bound := by
    intro r hr
    rcases List.mem_append.1 hr with hr | hr
    · exact (h.bound r hr).trans (htime.trans hbound)
    · rw [List.mem_singleton.1 hr]
      exact hbound

theorem Kept.insert (h : Kept s) {id aggregateId eventType : String} {payload : List UInt8}
    {time : ℤ} (hstep : step s (.insert id aggregateId eventType payload time) = some s') :
    Kept s' := by
  rw [step] at hstep
  split_ifs at hstep with hno
  obtain ⟨hid, htime⟩ := not_or.1 hno
  obtain rfl := Option.some.inj hstep
  exact h.added hid rfl (nowMs_mono (not_lt.1 htime)) le_rfl

/-- What a relay publishes, and marks. -/
theorem relay_spec (o : MemoryOutbox) (limit : ℕ) :
    (relayOutbox o limit fun _ => .ok ()).calls.map Prod.fst
        = (o.fetchUnpublished limit).map OutboxRecord.id
      ∧ ∀ id, (relayOutbox o limit fun _ => .ok ()).outbox.row id
        = if id ∈ (o.fetchUnpublished limit).map OutboxRecord.id then (o.row id).map .mark
          else o.row id := by
  have hstep : Relaying.Step ⟨o, []⟩ ⟨limit, fun _ => .ok ()⟩
      ⟨(relayOutbox o limit fun _ => .ok ()).outbox,
        (relayOutbox o limit fun _ => .ok ()).calls⟩ := .of_step rfl
  generalize relayOutbox o limit (fun _ => .ok ()) = relay at hstep ⊢
  obtain ⟨result, outbox, calls⟩ := relay
  cases hstep with
  | done hall outbox hrow =>
      refine ⟨?_, hrow⟩
      rw [List.map_map]
      rfl
  | refused hbatch hrow => exact absurd rfl hrow
  | broken hbatch hrow hrows calls =>
      obtain ⟨row, -, hrow⟩ := hrows
      exact absurd rfl hrow

/-! ## A relay -/

theorem mem_pending {row : OutboxRecord} :
    row ∈ s.pending ↔ row ∈ s.inserted ∧ row.id ∉ s.published := by
  rw [pending, List.mem_filter, decide_eq_true_iff]

theorem mem_rows {o : MemoryOutbox} {row : OutboxRecord} :
    row ∈ o.rows.entries.map Prod.snd ↔ o.row row.id = some row := by
  constructor
  · intro h
    obtain ⟨p, hp, rfl⟩ := List.mem_map.1 h
    rw [o.keyed p hp]
    exact o.rows.ascending.get_of_mem hp
  · exact fun h => List.mem_map.2 ⟨(row.id, row), Assoc.mem_of_get h, rfl⟩

/-- The unpublished rows of an outbox, in the order of their ids. -/
theorem pairwise_unpublished (o : MemoryOutbox) :
    ((o.rows.entries.map Prod.snd).filter fun row => !row.published).Pairwise
      (OutboxRecord.id · < OutboxRecord.id ·) := by
  refine List.Pairwise.filter _ (List.pairwise_map.2 (o.rows.ascending.imp_of_mem ?_))
  intro p q hp hq hlt
  rwa [o.keyed p hp, o.keyed q hq]

theorem Kept.unpublished_perm (h : Kept s) :
    ((s.outbox.rows.entries.map Prod.snd).filter fun row => !row.published).Perm s.pending := by
  have hnodup : ((s.outbox.rows.entries.map Prod.snd).filter fun row => !row.published).Nodup := by
    refine (pairwise_unpublished s.outbox).imp ?_
    rintro r _ hlt rfl
    exact lt_irrefl _ hlt
  have hpending : s.pending.Nodup := (h.nodup.of_map _).filter _
  refine (List.perm_ext_iff_of_nodup hnodup hpending).2 fun r => ?_
  rw [List.mem_filter, mem_rows, h.row, mem_pending]
  constructor
  · rintro ⟨⟨r₀, hr₀, hid, hr⟩, hpub⟩
    split_ifs at hr with hmem
    · rw [hr] at hpub
      cases hpub
    · exact ⟨hr ▸ hr₀, hmem⟩
  · rintro ⟨hr, hid⟩
    refine ⟨⟨r, hr, rfl, by rw [if_neg hid]⟩, ?_⟩
    rw [h.fresh r hr]
    rfl

/-- The batch is that of the rows inserted first exactly if the ties among them are in order. -/
theorem Kept.fetchUnpublished_eq_iff (h : Kept s) (limit : ℕ) :
    s.outbox.fetchUnpublished limit = s.pending.take limit ↔ TiesInOrder s (.relay limit) := by
  have hsorted := pairwise_insertionSort (f := OutboxRecord.createdMs)
    (pairwise_unpublished s.outbox)
  have hperm := (List.perm_insertionSort (fun row row' => row.createdMs ≤ row'.createdMs) _).trans
    h.unpublished_perm
  rw [MemoryOutbox.fetchUnpublished, take_eq_take_iff (fun _ _ => Before.asymm) hperm hsorted]
  refine leastFirst_congr (fun r r' hle => ?_) (h.stamps.filter _) limit
  constructor
  · rintro (hlt | ⟨-, hid⟩) heq
    · exact absurd heq hlt.ne
    · exact hid
  · intro hties
    rcases lt_or_eq_of_le hle with hlt | heq
    · exact .inl hlt
    · exact .inr ⟨heq, hties heq⟩

theorem mem_fetchUnpublished (h : Kept s) {limit : ℕ} {row : OutboxRecord}
    (hrow : row ∈ s.outbox.fetchUnpublished limit) : row ∈ s.pending :=
  h.unpublished_perm.mem_iff.1 ((List.mem_insertionSort _).1 (List.mem_of_mem_take hrow))

theorem Kept.relay (h : Kept s) {limit : ℕ} (hstep : step s (.relay limit) = some s') :
    Kept s' := by
  obtain rfl := Option.some.inj hstep
  obtain ⟨hcalls, hrow⟩ := relay_spec s.outbox limit
  rw [hcalls]
  refine ⟨h.nodup, h.fresh, fun id hid => ?_, fun id record => ?_, h.stamps, h.bound⟩
  · rcases List.mem_append.1 hid with hid | hid
    · exact h.known id hid
    · obtain ⟨row, hmem, rfl⟩ := List.mem_map.1 hid
      exact List.mem_map_of_mem (mem_pending.1 (mem_fetchUnpublished h hmem)).1
  · dsimp only
    rw [hrow]
    by_cases hid : id ∈ (s.outbox.fetchUnpublished limit).map OutboxRecord.id
    · have hpub := List.mem_append_right s.published hid
      obtain ⟨row, hmem, rfl⟩ := List.mem_map.1 hid
      obtain ⟨hins, hnew⟩ := mem_pending.1 (mem_fetchUnpublished h hmem)
      have hfound : s.outbox.row row.id = some row :=
        (h.row _ _).2 ⟨row, hins, rfl, by rw [if_neg hnew]⟩
      simp only [if_pos hid, if_pos hpub, hfound, Option.map_some, Option.some.injEq]
      constructor
      · rintro rfl
        exact ⟨row, hins, rfl, rfl⟩
      · rintro ⟨row', hins', heq, rfl⟩
        rw [List.inj_on_of_nodup_map h.nodup hins' hins heq]
    · rw [if_neg hid, h.row]
      simp only [List.mem_append, or_iff_left hid]

/-- Rows of one outbox are told apart by their ids. -/
theorem eq_of_map_id_eq {l l₁ l₂ : List OutboxRecord} (hl : (l.map OutboxRecord.id).Nodup)
    (h₁ : ∀ r ∈ l₁, r ∈ l) (h₂ : ∀ r ∈ l₂, r ∈ l)
    (h : l₁.map OutboxRecord.id = l₂.map OutboxRecord.id) : l₁ = l₂ := by
  induction l₁ generalizing l₂ with
  | nil => exact (List.map_eq_nil_iff.1 h.symm).symm
  | cons r l₁ ih =>
      cases l₂ with
      | nil => cases h
      | cons r' l₂ =>
          rw [List.map_cons, List.map_cons, List.cons.injEq] at h
          rw [List.forall_mem_cons] at h₁ h₂
          rw [List.inj_on_of_nodup_map hl h₁.1 h₂.1 h.1, ih h₁.2 h₂.2 h.2]

theorem InOrder.pending_ids (hs : InOrder s) (h : Kept s) :
    s.published ++ s.pending.map OutboxRecord.id = s.ids := by
  obtain ⟨rest, hrest⟩ := hs
  have hfilter : s.pending.map OutboxRecord.id = s.ids.filter fun id => id ∉ s.published := by
    rw [pending, ids, List.filter_map]
    rfl
  have hnodup := h.nodup
  rw [← hrest] at hfilter hnodup
  have hpublished : (s.published.filter fun id => id ∉ s.published) = [] :=
    List.filter_eq_nil_iff.2 fun id hid => by simpa using hid
  have hpend : (rest.filter fun id => id ∉ s.published) = rest :=
    List.filter_eq_self.2 fun id hid => by
      have hne := (List.nodup_append.1 hnodup).2.2
      simpa using fun hpub => hne id hpub id hid rfl
  rw [← hrest, hfilter, List.filter_append, hpublished, hpend, List.nil_append]

theorem Kept.inOrder_relay_iff (h : Kept s) (hs : InOrder s) {limit : ℕ}
    (hstep : step s (.relay limit) = some s') : InOrder s' ↔ TiesInOrder s (.relay limit) := by
  obtain rfl := Option.some.inj hstep
  rw [← h.fetchUnpublished_eq_iff]
  have hids : ∀ outbox published,
      ids { s with outbox, published } = s.published ++ s.pending.map OutboxRecord.id :=
    fun _ _ => (hs.pending_ids h).symm
  rw [InOrder, hids, (relay_spec s.outbox limit).1, List.prefix_append_right_inj]
  have hlen : (s.outbox.fetchUnpublished limit).length = min limit s.pending.length := by
    rw [MemoryOutbox.fetchUnpublished, List.length_take, List.length_insertionSort,
      h.unpublished_perm.length_eq]
  constructor
  · intro hpre
    have hnodup : (s.pending.map OutboxRecord.id).Nodup := by
      have hids := h.nodup
      rw [← hs.pending_ids h] at hids
      exact (List.nodup_append.1 hids).2.1
    refine eq_of_map_id_eq hnodup (fun r hr => mem_fetchUnpublished h hr)
      (fun r hr => List.mem_of_mem_take hr) ?_
    rw [List.prefix_iff_eq_take.1 hpre, List.length_map, hlen, List.map_take,
      List.take_eq_take_min (i := limit), List.length_map]
  · intro htake
    rw [htake, List.map_take]
    exact List.take_prefix ..

/-! ## Runs -/

theorem Kept.next (h : Kept s) {l : Label} (hstep : step s l = some s') : Kept s' := by
  cases l with
  | insert id aggregateId eventType payload time => exact h.insert hstep
  | relay limit => exact h.relay hstep

/-- A step goes on in order exactly if the ties it meets are in order. -/
theorem Kept.inOrder_iff (h : Kept s) (hs : InOrder s) {l : Label} (hstep : step s l = some s') :
    InOrder s' ↔ TiesInOrder s l := by
  cases l with
  | insert id aggregateId eventType payload time =>
      rw [step] at hstep
      split_ifs at hstep
      obtain rfl := Option.some.inj hstep
      refine iff_of_true ?_ trivial
      rw [InOrder, ids, List.map_append]
      exact hs.trans (List.prefix_append ..)
  | relay limit => exact h.inOrder_relay_iff hs hstep

/-- **The outbox is relayed in the order of insertion exactly as long as every relay finds the rows
    created in one millisecond in the order of their ids.** -/
theorem inOrder_iff_tiesInOrder (time : ℤ) (ls : List Label) {s' : Feed}
    (hrun : run step (start time) ls = some s') :
    Throughout step InOrder (start time) ls ↔ Along step TiesInOrder (start time) ls :=
  throughout_iff_along (I := Kept) (fun _ _ _ h _ _ hstep => h.next hstep)
    (fun _ _ _ h hs hstep => h.inOrder_iff hs hstep) (kept_start time) (List.nil_prefix ..) hrun

instance decidableInOrder (s : Feed) : Decidable (InOrder s) :=
  inferInstanceAs (Decidable (s.published <+: s.ids))

instance decidableTiesInOrder (s : Feed) : (l : Label) → Decidable (TiesInOrder s l)
  | .insert .. => .isTrue trivial
  | .relay _ => decidableLeastFirst ..

/-- Two rows of one millisecond whose ids ascend, relayed one at a time. -/
theorem inOrder_ascending :
    Throughout step InOrder (start 5)
      [.insert "a" "order" "OrderPlaced" [] 5, .insert "b" "order" "OrderPaid" [] 5, .relay 1,
        .relay 1] := by
  refine (inOrder_iff_tiesInOrder 5 _ rfl).2 ?_
  decide +kernel

/-- The ids descend, and the order is paid for before it is placed. -/
theorem not_inOrder_descending :
    ¬ ∀ (time : ℤ) (ls : List Label) (s' : Feed), run step (start time) ls = some s' →
      Throughout step InOrder (start time) ls := by
  intro h
  have hlast := (h 5 [.insert "b" "order" "OrderPlaced" [] 5, .insert "a" "order" "OrderPaid" [] 5,
    .relay 10] _ rfl).last rfl
  revert hlast
  decide +kernel

end Feed

end IdEffect.Jobs
