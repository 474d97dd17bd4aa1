import Mathlib.Data.List.Nodup
import Mathlib.Data.List.Range
import IdEffect.Events.Store

set_option autoImplicit false

/-! # Versions of a stream

The events of a stream are to carry the versions 1, 2, ..., n once each. A store that computes the
next version and stores the event in one step keeps this in any case. The SQL journal computes it in
one step and stores in another, but refuses a version that is taken: as everything below the version
it tries is there, what is not refused is the next version. The file journal refuses nothing, and a
version it computed is still the next one only if no other append wrote to the stream in
between. -/

namespace IdEffect.Events

open Calls Transition

variable {E J L : Type}

/-! ## Batches -/

/-- The events of a batch with the versions after `base`. -/
def stamp (t base : ℕ) : ℕ → List E → List (StoredEvent E)
  | _, [] => []
  | i, payload :: events => ⟨(t, i), base + 1, payload⟩ :: stamp t (base + 1) (i + 1) events

theorem assignVersions_eq (t i : ℕ) (stream : List (StoredEvent E)) (events : List E) :
    assignVersions t i stream events
      = (stream ++ stamp t stream.length i events, stamp t stream.length i events) := by
  induction events generalizing i stream with
  | nil => rw [assignVersions, stamp, List.append_nil]
  | cons payload events ih =>
      rw [assignVersions, ih, stamp, List.append_assoc, List.singleton_append, List.length_append,
        List.length_singleton]

theorem length_stamp (t base i : ℕ) (events : List E) :
    (stamp t base i events).length = events.length := by
  induction events generalizing base i with
  | nil => rfl
  | cons payload events ih => rw [stamp, List.length_cons, List.length_cons, ih]

theorem map_version_stamp (t base i : ℕ) (events : List E) :
    (stamp t base i events).map StoredEvent.version = List.range' (base + 1) events.length := by
  induction events generalizing base i with
  | nil => rfl
  | cons payload events ih => rw [stamp, List.map_cons, ih, List.length_cons, List.range'_succ]

theorem map_payload_stamp (t base i : ℕ) (events : List E) :
    (stamp t base i events).map StoredEvent.payload = events := by
  induction events generalizing base i with
  | nil => rfl
  | cons payload events ih => rw [stamp, List.map_cons, ih]

theorem stamp_snoc (t base i : ℕ) (events : List E) (payload : E) :
    stamp t base i (events ++ [payload])
      = stamp t base i events
        ++ [⟨(t, i + events.length), base + events.length + 1, payload⟩] := by
  induction events generalizing base i with
  | nil => rfl
  | cons e events ih =>
      rw [List.cons_append, stamp, ih, stamp, List.cons_append, List.length_cons,
        Nat.add_right_comm base 1, Nat.add_right_comm i 1]
      rfl

theorem eventId_of_mem_stamp {t base i : ℕ} {events : List E} {e : StoredEvent E}
    (h : e ∈ stamp t base i events) : e.eventId.1 = t := by
  induction events generalizing base i with
  | nil => cases h
  | cons payload events ih =>
      rcases List.mem_cons.mp h with rfl | h
      · rfl
      · exact ih h

/-! ## What is to be shown of every store -/

/-- The versions from 1 to the number of events, once each. -/
def Exactly (vs : List ℕ) : Prop :=
  vs.Nodup ∧ ∀ v, v ∈ vs ↔ 1 ≤ v ∧ v ≤ vs.length

theorem exactly_of_eq_range {vs : List ℕ} (h : vs = List.range' 1 vs.length) : Exactly vs := by
  rw [Exactly, h, List.length_range']
  refine ⟨List.nodup_range', fun v => ?_⟩
  rw [List.mem_range'_1]
  omega

/-- Continued with the versions that come next. -/
theorem range_append {vs : List ℕ} (h : vs = List.range' 1 vs.length) (k : ℕ) :
    vs ++ List.range' (vs.length + 1) k
      = List.range' 1 (vs ++ List.range' (vs.length + 1) k).length := by
  rw [List.length_append, List.length_range', ← List.range'_append_1, ← h, Nat.add_comm 1]

/-- A store, its readers and the appends that have their answer: every stream has exactly its
    versions, a read answers with the events from its version on in ascending order, and no two
    appends have answered with the same version of the same stream. -/
structure Versioned (versions : String → List ℕ) (persisted : Streams E)
    (read : String → ℕ → Answer E) (calls : ℕ → Status (Request E) L (Answer E)) : Prop where
  exact : ∀ id, Exactly (versions id)
  read : ∀ id v, ∃ l, read id v = .ok l ∧ l.Pairwise (fun a b => a.version < b.version)
    ∧ ∀ e, e ∈ l ↔ e ∈ persisted id ∧ v ≤ e.version
  unique : ∀ t u id es es' out out', t ≠ u → calls t = .done (.append id es) (.ok out) →
    calls u = .done (.append id es') (.ok out') → ∀ e ∈ out, ∀ e' ∈ out', e.version ≠ e'.version

/-- What an append has answered with is persisted, under its number. -/
def Returned (t : ℕ) (persisted : Streams E) : Status (Request E) L (Answer E) → Prop
  | .done (.append id _) (.ok out) => ∀ e ∈ out, e ∈ persisted id ∧ e.eventId.1 = t
  | _ => True

theorem Returned.mono {t : ℕ} {persisted persisted' : Streams E}
    {c : Status (Request E) L (Answer E)} (h : Returned t persisted c)
    (hmono : ∀ id e, e ∈ persisted id → e ∈ persisted' id) : Returned t persisted' c := by
  match c, h with
  | .done (.append id es) (.ok out), h => exact fun e he => ⟨hmono id e (h e he).1, (h e he).2⟩
  | .done (.append _ _) (.error _), _ => trivial
  | .done (.read _ _) _, _ => trivial
  | .running _ _, _ => trivial
  | .idle, _ => trivial

/-- What a call knows: `R` while it runs, and in the end that its answer is persisted. -/
def Knowing {Store : Type} (persisted : Store → Streams E)
    (R : ℕ → Request E → L → Store → Prop) (t : ℕ) (c : Status (Request E) L (Answer E))
    (st : Store) : Prop :=
  match c with
  | .running q l => R t q l st
  | c => Returned t (persisted st) c

section Knowing

variable {Store : Type} {persisted : Store → Streams E}
variable {R : ℕ → Request E → L → Store → Prop}
variable {t : ℕ} {c : Status (Request E) L (Answer E)} {st st' : Store}

theorem Knowing.returned (h : Knowing persisted R t c st) : Returned t (persisted st) c := by
  cases c with
  | idle => trivial
  | running q l => trivial
  | done q r => exact h

/-- Stores only grow, so what a call knows of its answer stays true. -/
theorem Knowing.mono (h : Knowing persisted R t c st)
    (hmono : ∀ id e, e ∈ persisted st id → e ∈ persisted st' id)
    (hR : ∀ q l, R t q l st → R t q l st') : Knowing persisted R t c st' := by
  cases c with
  | idle => trivial
  | running q l => exact hR q l h
  | done q r => exact Returned.mono (c := .done q r) h hmono

end Knowing

/-- Streams in ascending order, read from, with nothing answered that is not persisted. -/
theorem versioned_of_ascending {versions : String → List ℕ} {persisted : Streams E}
    {read : String → ℕ → Answer E} {calls : ℕ → Status (Request E) L (Answer E)}
    (hversions : ∀ id, (persisted id).map StoredEvent.version = versions id)
    (hrange : ∀ id, versions id = List.range' 1 (versions id).length)
    (hread : ∀ id v, read id v = .ok (fromVersionOn v (persisted id)))
    (hreturned : ∀ t, Returned t persisted (calls t)) :
    Versioned versions persisted read calls := by
  have hsorted : ∀ id, (persisted id).Pairwise (fun a b => a.version < b.version) := by
    intro id
    have hlt : ((persisted id).map StoredEvent.version).Pairwise (· < ·) := by
      rw [hversions, hrange]
      exact List.pairwise_lt_range' ..
    exact List.pairwise_map.mp hlt
  -- a read filters a stream that is sorted already
  refine ⟨fun id => exactly_of_eq_range (hrange id), fun id v => ?_, ?_⟩
  · refine ⟨_, hread id v, (hsorted id).filter _, fun e => ?_⟩
    rw [fromVersionOn, List.mem_filter, decide_eq_true_eq]
  · intro t u id es es' out out' hne ht hu e he e' he' hversion
    have hrt := hreturned t
    have hru := hreturned u
    rw [ht] at hrt
    rw [hu] at hru
    obtain ⟨hmem, hid⟩ := hrt e he
    obtain ⟨hmem', hid'⟩ := hru e' he'
    -- one version belongs to one event, and an event to one call
    have hsame : e = e' := by
      have hinj := List.inj_on_of_nodup_map
        (show ((persisted id).map StoredEvent.version).Nodup by
          rw [hversions, hrange]
          exact List.nodup_range')
      exact hinj hmem hmem' hversion
    rw [hsame, hid'] at hid
    exact hne hid.symm

/-! ## In memory -/

namespace Memory

def versions (streams : Streams E) (id : String) : List ℕ :=
  (streams id).map StoredEvent.version

/-- Every stream is in order. -/
def Ordered (streams : Streams E) : Prop :=
  ∀ id, versions streams id = List.range' 1 (versions streams id).length

theorem Ordered.append {streams : Streams E} (h : Ordered streams) (t : ℕ) (id : String)
    (events : List E) :
    Ordered (Function.update streams id
      (streams id ++ stamp t (streams id).length 0 events)) := by
  intro id'
  by_cases hid : id' = id
  · subst hid
    have hlen : (streams id').length = (versions streams id').length := by
      rw [versions, List.length_map]
    rw [versions, Function.update_self, List.map_append, map_version_stamp, ← versions, hlen]
    exact range_append (h id') events.length
  · rw [versions, Function.update_of_ne hid]
    exact h id'

/-- What is written to one stream is added to it. -/
theorem mem_update_append {streams : Streams E} {id id' : String} {new : List (StoredEvent E)}
    {e : StoredEvent E} (he : e ∈ streams id') :
    e ∈ Function.update streams id (streams id ++ new) id' := by
  by_cases hid : id' = id
  · subst hid
    rw [Function.update_self]
    exact List.mem_append_left _ he
  · rwa [Function.update_of_ne hid]

theorem keeps :
    (machine (E := E)).Keeps Ordered (Knowing (fun streams => streams) fun _ q l _ => l = q) := by
  refine ⟨fun t q st _ => rfl, fun t q l e x st st' hI hl hstep => ?_⟩
  obtain rfl : l = q := hl
  cases l with
  | read id v =>
      obtain ⟨rfl, rfl⟩ := Prod.mk.inj (Option.some.inj hstep)
      exact ⟨hI, trivial, fun u c _ hc => hc⟩
  | append id events =>
      obtain ⟨rfl, rfl⟩ := Prod.mk.inj (Option.some.inj hstep)
      rw [assignVersions_eq]
      refine ⟨hI.append t id events, fun e he => ⟨?_, eventId_of_mem_stamp he⟩, fun u c _ hc => ?_⟩
      · simp only [Function.update_self]
        exact List.mem_append_right _ he
      · exact hc.mono (fun _ _ => mem_update_append) fun _ _ h => h

/-- **The memory store** keeps its versions in every interleaving. -/
theorem versioned {ls : List (Label (Request E) Unit)}
    {s : Sys (Streams E) (Request E) (Request E) (Answer E)}
    (hrun : run machine.sysStep (Sys.init fun _ => []) ls = some s) :
    Versioned (versions s.store) s.store (read s.store) s.calls := by
  have hinit : Machine.Knows Ordered (Knowing (fun streams => streams) fun _ q l _ => l = q)
      (Sys.init (fun _ => []) : Sys (Streams E) (Request E) (Request E) (Answer E)) :=
    ⟨fun _ => rfl, fun _ => trivial⟩
  have hs := keeps.run hinit hrun
  exact versioned_of_ascending (fun _ => rfl) hs.store (fun _ _ => rfl)
    fun t => (hs.calls t).returned

end Memory

/-! ## Decoding what was encoded -/

section Decoding

variable {X Y Z Err : Type} {f : X → Except Err Y}

/-- The values of the entries that can be decoded. -/
def decoded (f : X → Except Err Y) (l : List X) : List Y :=
  l.filterMap fun x => (f x).toOption

theorem decoded_cons {x : X} {y : Y} (h : f x = .ok y) (l : List X) :
    decoded f (x :: l) = y :: decoded f l :=
  List.filterMap_cons_some (by rw [h]; rfl)

theorem decoded_append (l l' : List X) : decoded f (l ++ l') = decoded f l ++ decoded f l' :=
  List.filterMap_append

theorem mapM_eq_decoded {l : List X} (h : ∀ x ∈ l, ∃ y, f x = .ok y) :
    l.mapM f = .ok (decoded f l) := by
  induction l with
  | nil => rfl
  | cons x l ih =>
      obtain ⟨y, hy⟩ := h x (List.mem_cons_self ..)
      rw [List.mapM_cons, hy, ih fun z hz => h z (List.mem_cons_of_mem _ hz), decoded_cons hy]
      rfl

/-- Decoding keeps a field that it copies. -/
theorem map_decoded {l : List X} (h : ∀ x ∈ l, ∃ y, f x = .ok y) {g : Y → Z} {k : X → Z}
    (hg : ∀ x y, f x = .ok y → g y = k x) : (decoded f l).map g = l.map k := by
  induction l with
  | nil => rfl
  | cons x l ih =>
      obtain ⟨y, hy⟩ := h x (List.mem_cons_self ..)
      rw [decoded_cons hy, List.map_cons, List.map_cons, hg x y hy,
        ih fun z hz => h z (List.mem_cons_of_mem _ hz)]

/-- So filtering by that field may be done before or after. -/
theorem filter_decoded {l : List X} (h : ∀ x ∈ l, ∃ y, f x = .ok y) {p : Y → Bool} {q : X → Bool}
    (hp : ∀ x y, f x = .ok y → p y = q x) :
    (decoded f l).filter p = decoded f (l.filter q) := by
  induction l with
  | nil => rfl
  | cons x l ih =>
      obtain ⟨y, hy⟩ := h x (List.mem_cons_self ..)
      have hrest := ih fun z hz => h z (List.mem_cons_of_mem _ hz)
      rw [decoded_cons hy]
      by_cases hq : q x = true
      · rw [List.filter_cons_of_pos hq, List.filter_cons_of_pos (by rw [hp x y hy]; exact hq),
          decoded_cons hy, hrest]
      · rw [List.filter_cons_of_neg hq, List.filter_cons_of_neg (by rw [hp x y hy]; exact hq),
          hrest]

end Decoding

/-! ## Over the SQL journal -/

namespace Sql

variable {codec : Codec E J} {rows rows' : Rows J} {id : String}

def versions (rows : Rows J) (id : String) : List ℕ := (rows id).map JournalRow.version

def persisted (codec : Codec E J) (rows : Rows J) : Streams E :=
  fun id => decoded (decodeRow codec) (rows id)

/-- Every stream is in order, and its rows can be decoded. -/
structure Ordered (codec : Codec E J) (rows : Rows J) : Prop where
  range : ∀ id, versions rows id = List.range' 1 (versions rows id).length
  decodes : ∀ id, ∀ r ∈ rows id, ∃ e, decodeRow codec r = .ok e

/-- An append that inserts has everything below the version it tries. -/
def Progress (codec : Codec E J) (t : ℕ) (q : Request E) (l : Local E) (rows : Rows J) : Prop :=
  match l with
  | .requested q' => q' = q
  | .inserting id latest i _ _ out =>
      (∃ es, q = .append id es) ∧ latest + i ≤ (versions rows id).length
        ∧ ∀ e ∈ out, e ∈ persisted codec rows id ∧ e.eventId.1 = t

theorem decodeRow_version {r : JournalRow J} {e : StoredEvent E} (h : decodeRow codec r = .ok e) :
    e.version = r.version := by
  rw [decodeRow] at h
  split at h
  · rw [← Except.ok.inj h]
  · cases h

theorem Ordered.read (h : Ordered codec rows) (id : String) (v : ℕ) :
    read codec rows id v = .ok (fromVersionOn v (persisted codec rows id)) := by
  have hselected : ∀ r ∈ selectFrom rows id v, ∃ e, decodeRow codec r = .ok e :=
    fun r hr => h.decodes id r (List.mem_of_mem_filter hr)
  rw [Sql.read, mapM_eq_decoded hselected, fromVersionOn, persisted,
    filter_decoded (h.decodes id) fun r e he => by rw [decodeRow_version he]]
  rfl

theorem latest_le (h : Ordered codec rows) (id : String) :
    latest rows id ≤ (versions rows id).length := by
  rw [latest]
  cases hmax : ((selectFrom rows id 1).map JournalRow.version).max? with
  | none => exact Nat.zero_le _
  | some m =>
      obtain ⟨r, hr, rfl⟩ := List.mem_map.mp (List.max?_mem hmax)
      have hmem : r.version ∈ versions rows id :=
        List.mem_map.mpr ⟨r, List.mem_of_mem_filter hr, rfl⟩
      rw [h.range id, List.mem_range'_1] at hmem
      exact Nat.lt_one_add_iff.mp hmem.2

/-- The row with the next version goes to the end of its stream. -/
theorem insertRow_append {n : ℕ} {row : JournalRow J} (hrange : versions rows id = List.range' 1 n)
    (hrow : row.version = n + 1) :
    insertRow rows id row = .ok (Function.update rows id (rows id ++ [row])) := by
  have hfree : ¬ (rows id).any (fun r => r.version = row.version) = true := by
    intro hany
    obtain ⟨r, hr, hversion⟩ := List.any_eq_true.mp hany
    have hmem : row.version ∈ versions rows id :=
      List.mem_map.mpr ⟨r, hr, of_decide_eq_true hversion⟩
    rw [hrange, List.mem_range'_1] at hmem
    omega
  rw [insertRow, if_neg hfree]
  -- the new row is the largest, so sorting moves nothing
  refine congrArg (fun l => Except.ok (Function.update rows id l))
    (List.Pairwise.insertionSort_eq ?_)
  have hle : ((rows id ++ [row]).map JournalRow.version).Pairwise (· ≤ ·) := by
    rw [List.map_append, ← versions, List.map_singleton, hrow, hrange, Nat.add_comm n 1,
      ← List.range'_1_concat]
    exact (List.pairwise_lt_range' ..).imp fun hab => hab.le
  exact List.pairwise_map.mp hle

/-- A row with everything below it in place is refused, or is the next one. -/
theorem insertRow_next (h : Ordered codec rows) {row : JournalRow J} {k : ℕ}
    (hk : k ≤ (versions rows id).length) (hrow : row.version = k + 1)
    (hins : insertRow rows id row = .ok rows') :
    k = (versions rows id).length ∧ rows' = Function.update rows id (rows id ++ [row]) := by
  -- with all versions up to `k` in place, a version that is free is the next one
  have hnext : k = (versions rows id).length := by
    rw [insertRow] at hins
    split_ifs at hins with hany
    by_contra hne
    have hmem : row.version ∈ versions rows id := by
      rw [h.range id, List.mem_range'_1]
      omega
    obtain ⟨r, hr, hversion⟩ := List.mem_map.mp hmem
    exact hany (List.any_eq_true.mpr ⟨r, hr, decide_eq_true hversion⟩)
  rw [insertRow_append (h.range id) (by rw [hrow, hnext])] at hins
  exact ⟨hnext, (Except.ok.inj hins).symm⟩

theorem Ordered.snoc (h : Ordered codec rows) {row : JournalRow J} {e : StoredEvent E}
    (hrow : row.version = (versions rows id).length + 1) (he : decodeRow codec row = .ok e) :
    Ordered codec (Function.update rows id (rows id ++ [row])) := by
  refine ⟨fun id' => ?_, fun id' r hr => ?_⟩
  · by_cases hid : id' = id
    · subst hid
      have hrange := range_append (h.range id') 1
      rw [List.range'_one] at hrange
      rw [versions, Function.update_self, List.map_append, ← versions, List.map_singleton, hrow]
      exact hrange
    · rw [versions, Function.update_of_ne hid]
      exact h.range id'
  · by_cases hid : id' = id
    · subst hid
      rw [Function.update_self] at hr
      rcases List.mem_append.mp hr with hr | hr
      · exact h.decodes id' r hr
      · exact ⟨e, by rw [List.mem_singleton.mp hr]; exact he⟩
    · rw [Function.update_of_ne hid] at hr
      exact h.decodes id' r hr

/-- A new row is persisted, and what was persisted still is. -/
theorem persisted_snoc {row : JournalRow J} {e : StoredEvent E} (he : decodeRow codec row = .ok e)
    (id' : String) :
    persisted codec (Function.update rows id (rows id ++ [row])) id'
      = persisted codec rows id' ++ if id' = id then [e] else [] := by
  by_cases hid : id' = id
  · subst hid
    rw [if_pos rfl, persisted, Function.update_self, decoded_append, decoded_cons he]
    rfl
  · rw [if_neg hid, persisted, Function.update_of_ne hid, List.append_nil]
    rfl

theorem length_versions_snoc (row : JournalRow J) (id' : String) :
    (versions rows id').length
      ≤ (versions (Function.update rows id (rows id ++ [row])) id').length := by
  by_cases hid : id' = id
  · subst hid
    rw [versions, versions, Function.update_self, List.map_append, List.length_append]
    exact Nat.le_add_right ..
  · rw [versions, versions, Function.update_of_ne hid]

theorem decodeRow_encoded {payload : E} {json : J} (h : codec.encode payload = .ok json)
    (version : ℕ) (eventId : ℕ × ℕ) :
    decodeRow codec ⟨version, eventId, json⟩ = .ok ⟨eventId, version, payload⟩ := by
  rw [decodeRow, codec.decode_encode payload json h]

/-- What an append knows once it goes on, or answers. -/
theorem knowing_continue {t latest i : ℕ} {es events : List E} {out : List (StoredEvent E)}
    (hlatest : latest + i ≤ (versions rows id).length)
    (hout : ∀ e ∈ out, e ∈ persisted codec rows id ∧ e.eventId.1 = t) :
    Knowing (persisted codec) (Progress codec) t
      (.next (.append id es) (continue_ id latest i out events)) rows := by
  cases events with
  | nil => exact hout
  | cons payload events => exact ⟨⟨es, rfl⟩, hlatest, hout⟩

/-- The step of an insert: it fails with nothing done, or stores its row. -/
theorem step_inserting {t latest i : ℕ} {payload : E} {events : List E}
    {out : List (StoredEvent E)} {x : Local E ⊕ Answer E} {e : Unit}
    (h : (machine codec).step t (.inserting id latest i payload events out) e rows
      = some (x, rows')) :
    ((∃ err, x = .inr (.error err)) ∧ rows' = rows
        ∧ ∀ json, codec.encode payload = .ok json →
          (rows id).any fun r => r.version = latest + i + 1)
      ∨ ∃ json, codec.encode payload = .ok json
        ∧ insertRow rows id ⟨latest + i + 1, (t, i), json⟩ = .ok rows'
        ∧ x = continue_ id latest (i + 1) (out ++ [⟨(t, i), latest + i + 1, payload⟩]) events := by
  simp only [machine] at h
  cases hjson : codec.encode payload with
  | error err =>
      rw [hjson] at h
      obtain ⟨rfl, rfl⟩ := Prod.mk.inj (Option.some.inj h)
      exact .inl ⟨⟨_, rfl⟩, rfl, nofun⟩
  | ok json =>
      rw [hjson] at h
      cases hins : insertRow rows id ⟨latest + i + 1, (t, i), json⟩ with
      | error err =>
          simp only [hins] at h
          obtain ⟨rfl, rfl⟩ := Prod.mk.inj (Option.some.inj h)
          refine .inl ⟨⟨_, rfl⟩, rfl, fun _ _ => ?_⟩
          rw [insertRow] at hins
          split_ifs at hins with hany
          exact hany
      | ok rows'' =>
          simp only [hins] at h
          obtain ⟨rfl, rfl⟩ := Prod.mk.inj (Option.some.inj h)
          exact .inr ⟨json, rfl, hins, rfl⟩

/-- An insert that is not refused appends its row. -/
theorem insertRow_encoded (h : Ordered codec rows) {t latest i : ℕ} {payload : E} {json : J}
    (hlatest : latest + i ≤ (versions rows id).length) (hjson : codec.encode payload = .ok json)
    (hins : insertRow rows id ⟨latest + i + 1, (t, i), json⟩ = .ok rows') :
    Ordered codec rows' ∧ (∀ id', (versions rows id').length ≤ (versions rows' id').length)
      ∧ latest + (i + 1) ≤ (versions rows' id).length
      ∧ ∀ id', persisted codec rows' id' = persisted codec rows id'
        ++ if id' = id then [⟨(t, i), latest + i + 1, payload⟩] else [] := by
  obtain ⟨hnext, rfl⟩ := insertRow_next h hlatest rfl hins
  have hdecode := decodeRow_encoded hjson (latest + i + 1) (t, i)
  refine ⟨h.snoc (by rw [hnext]) hdecode, length_versions_snoc _, ?_, persisted_snoc hdecode⟩
  rw [versions, Function.update_self, List.map_append, List.length_append, ← versions, ← hnext]
  exact le_rfl

theorem keeps : (machine codec).Keeps (Ordered codec)
    (Knowing (persisted codec) (Progress codec)) := by
  refine ⟨fun t q st _ => rfl, fun t q l e x st st' hI hl hstep => ?_⟩
  match l with
  | .requested (.read id v) =>
      obtain rfl : .read id v = q := hl
      obtain ⟨rfl, rfl⟩ := Prod.mk.inj (Option.some.inj hstep)
      exact ⟨hI, trivial, fun u c _ hc => hc⟩
  | .requested (.append id events) =>
      obtain rfl : .append id events = q := hl
      obtain ⟨rfl, rfl⟩ := Prod.mk.inj (Option.some.inj hstep)
      exact ⟨hI, knowing_continue (latest_le hI id) nofun, fun u c _ hc => hc⟩
  | .inserting id latest i payload events out =>
      -- everything up to `latest + i` is in the stream, whatever other appends have done since
      obtain ⟨⟨es, rfl⟩, hlatest, hout⟩ := hl
      rcases step_inserting hstep with ⟨⟨err, rfl⟩, rfl, -⟩ | ⟨json, hjson, hins, rfl⟩
      · exact ⟨hI, trivial, fun u c _ hc => hc⟩
      · obtain ⟨hordered, hlength, hnext, hpersisted⟩ := insertRow_encoded hI hlatest hjson hins
        have hmono : ∀ id' e, e ∈ persisted codec st id' → e ∈ persisted codec st' id' := by
          intro id' e he
          rw [hpersisted]
          exact List.mem_append_left _ he
        refine ⟨hordered, knowing_continue hnext fun e he => ?_, fun u c _ hc => ?_⟩
        · rcases List.mem_append.mp he with he | he
          · exact ⟨hmono id e (hout e he).1, (hout e he).2⟩
          · rw [List.mem_singleton.mp he, hpersisted, if_pos rfl]
            exact ⟨List.mem_append_right _ (List.mem_singleton.mpr rfl), rfl⟩
        · refine hc.mono hmono fun q l hl => ?_
          cases l with
          | requested q' => exact hl
          | inserting id' latest' i' payload' events' out' =>
              exact ⟨hl.1, hl.2.1.trans (hlength id'), fun e he =>
                ⟨hmono id' e (hl.2.2 e he).1, (hl.2.2 e he).2⟩⟩

/-- **The SQL journal** keeps its versions in every interleaving. -/
theorem versioned {ls : List (Label (Request E) Unit)}
    {s : Sys (Rows J) (Request E) (Local E) (Answer E)}
    (hrun : run (machine codec).sysStep (Sys.init fun _ => []) ls = some s) :
    Versioned (versions s.store) (persisted codec s.store) (read codec s.store) s.calls := by
  have hinit : Machine.Knows (Ordered codec) (Knowing (persisted codec) (Progress codec))
      (Sys.init (fun _ => []) : Sys (Rows J) (Request E) (Local E) (Answer E)) :=
    ⟨⟨fun _ => rfl, nofun⟩, fun _ => trivial⟩
  have hs := keeps.run hinit hrun
  refine versioned_of_ascending (fun id => ?_) hs.store.range (hs.store.read ·)
    fun t => (hs.calls t).returned
  exact map_decoded (hs.store.decodes id) fun _ _ => decodeRow_version

end Sql

end IdEffect.Events
