import IdEffect.Coordination.Deferred
import Mathlib.Data.List.Forall2
import Mathlib.Data.List.Nodup

set_option autoImplicit false

/-! # Batched requests: `coordination/request_resolver.rs`

Each batch is fetched with its distinct keys, and its entries are completed from the map that comes
back. A fetch that fails ends the whole run with a panic (`expect`), and the entries of this batch
and of those behind it stay as they are. So all entries are completed with their answers exactly if
every fetch succeeds and no cell is asked to hold two answers (`fulfilled_iff`).

`W` is what the fetches depend on. The deferreds are cells of a memory, which entries may share. -/

namespace IdEffect

/-- The key that a batch fetch has left out. -/
structure MissingKey (K : Type) where
  key : K
deriving DecidableEq

structure RequestEntry (K : Type) where
  key : K
  deferred : ℕ

namespace RequestResolver

variable {W K V E : Type}

abbrev Cells (K V : Type) : Type := ℕ → Deferred V (MissingKey K)

/-- A run of `run_all`, with the calls of `fetch` so far and their results. -/
structure Run (W K V E : Type) where
  world : W
  cells : Cells K V
  fetched : List (List K × Except E (K → Option V))

/-- `try_succeed` or `try_fail_cause` for one entry. -/
def resolveEntry (map : K → Option V) (cells : Cells K V) (entry : RequestEntry K) : Cells K V :=
  let deferred := cells entry.deferred
  Function.update cells entry.deferred
    (match map entry.key with
    | some v => (deferred.succeed v).2
    | none => (deferred.complete (.failure (.fail ⟨entry.key⟩))).2)

section

variable [DecidableEq K]

/-- The body of the `for` that collects the keys of a batch. -/
def collectKey (keys : List K) (entry : RequestEntry K) : List K :=
  if !keys.any (fun k => k == entry.key) then keys ++ [entry.key] else keys

def distinctKeys (batch : List (RequestEntry K)) : List K := batch.foldl collectKey []

/-- `batching(fetch).run_all(batches)`. It answers `false` where `expect` panics. -/
def runAll (fetch : List K → W → Except E (K → Option V) × W) :
    List (List (RequestEntry K)) → Run W K V E → Bool × Run W K V E
  | [], run => (true, run)
  | batch :: batches, run =>
      let keys := distinctKeys batch
      let (out, world) := fetch keys run.world
      let run := { run with world, fetched := run.fetched ++ [(keys, out)] }
      match out with
      | .error _ => (false, run)
      | .ok map =>
          runAll fetch batches { run with cells := batch.foldl (resolveEntry map) run.cells }

end

/-! ## The keys of a batch -/

section

variable [DecidableEq K]

theorem collectKey_eq (keys : List K) (entry : RequestEntry K) :
    collectKey keys entry = if entry.key ∈ keys then keys else keys ++ [entry.key] := by
  unfold collectKey
  by_cases h : entry.key ∈ keys <;> simp [h]

theorem mem_foldl_collectKey {batch : List (RequestEntry K)} {keys : List K} {k : K} :
    k ∈ batch.foldl collectKey keys ↔ k ∈ keys ∨ ∃ entry ∈ batch, entry.key = k := by
  induction batch generalizing keys with
  | nil => simp
  | cons entry batch ih =>
      rw [List.foldl_cons, ih, collectKey_eq]
      split_ifs with h
      · simp only [List.mem_cons, exists_eq_or_imp]
        constructor
        · exact Or.imp_right .inr
        · rintro (hk | rfl | hk)
          exacts [.inl hk, .inl h, .inr hk]
      · simp [or_assoc, eq_comm]

theorem nodup_foldl_collectKey {batch : List (RequestEntry K)} {keys : List K} (h : keys.Nodup) :
    (batch.foldl collectKey keys).Nodup := by
  induction batch generalizing keys with
  | nil => exact h
  | cons entry batch ih =>
      rw [List.foldl_cons, collectKey_eq]
      split_ifs with hmem
      · exact ih h
      · exact ih (List.concat_eq_append ▸ h.concat hmem)

theorem mem_distinctKeys {batch : List (RequestEntry K)} {k : K} :
    k ∈ distinctKeys batch ↔ ∃ entry ∈ batch, entry.key = k := by
  simp [distinctKeys, mem_foldl_collectKey]

theorem nodup_distinctKeys (batch : List (RequestEntry K)) : (distinctKeys batch).Nodup :=
  nodup_foldl_collectKey List.nodup_nil

end

/-! ## Completing cells -/

/-- What an entry has to be completed with. -/
def exitOf (map : K → Option V) (key : K) : Exit V (MissingKey K) :=
  match map key with
  | some v => .success v
  | none => .failure (.fail ⟨key⟩)

/-- The answers for a batch, with the cells they are for. -/
def answers (batch : List (RequestEntry K)) (map : K → Option V) :
    List (ℕ × Exit V (MissingKey K)) :=
  batch.map fun entry => (entry.deferred, exitOf map entry.key)

def completeOne (cells : Cells K V) (answer : ℕ × Exit V (MissingKey K)) : Cells K V :=
  Function.update cells answer.1 ((cells answer.1).complete answer.2).2

theorem resolveEntry_eq (map : K → Option V) (cells : Cells K V) (entry : RequestEntry K) :
    resolveEntry map cells entry = completeOne cells (entry.deferred, exitOf map entry.key) := by
  unfold resolveEntry completeOne exitOf
  cases map entry.key <;> rfl

theorem foldl_resolveEntry (map : K → Option V) (cells : Cells K V)
    (batch : List (RequestEntry K)) :
    batch.foldl (resolveEntry map) cells = (answers batch map).foldl completeOne cells := by
  unfold answers
  rw [List.foldl_map]
  congr
  funext cells entry
  exact resolveEntry_eq map cells entry

theorem completeOne_slot (cells : Cells K V) (answer : ℕ × Exit V (MissingKey K)) (d : ℕ) :
    (completeOne cells answer d).slot =
      (cells d).slot.or (if answer.1 = d then some answer.2 else none) := by
  unfold completeOne
  by_cases hd : answer.1 = d
  · subst hd
    rw [Function.update_self, Deferred.complete_slot, if_pos rfl]
    cases (cells answer.1).slot <;> rfl
  · rw [Function.update_of_ne (Ne.symm hd), if_neg hd, Option.or_none]

/-- The first answer for a cell that is still empty is the one it keeps. -/
theorem foldl_completeOne_slot (l : List (ℕ × Exit V (MissingKey K))) (cells : Cells K V) (d : ℕ) :
    (l.foldl completeOne cells d).slot =
      (cells d).slot.or ((l.find? fun answer => answer.1 = d).map Prod.snd) := by
  induction l generalizing cells with
  | nil => simp
  | cons answer l ih =>
      rw [List.foldl_cons, ih, completeOne_slot, Option.or_assoc, List.find?_cons]
      by_cases hd : answer.1 = d <;> simp [hd]

/-- Every cell is empty or has its answer already, and is asked to hold one answer only. -/
def Agreeing (cells : Cells K V) (l : List (ℕ × Exit V (MissingKey K))) : Prop :=
  (∀ answer ∈ l, (cells answer.1).slot = none ∨ (cells answer.1).slot = some answer.2) ∧
    ∀ answer ∈ l, ∀ other ∈ l, answer.1 = other.1 → answer.2 = other.2

theorem completes_iff (cells : Cells K V) (l : List (ℕ × Exit V (MissingKey K))) :
    (∀ answer ∈ l, (l.foldl completeOne cells answer.1).slot = some answer.2) ↔
      Agreeing cells l := by
  constructor
  · intro h
    constructor
    · intro answer hanswer
      have hslot := h answer hanswer
      rw [foldl_completeOne_slot] at hslot
      cases hcell : (cells answer.1).slot with
      | none => exact .inl rfl
      | some exit =>
          rw [hcell, Option.some_or] at hslot
          exact .inr hslot
    · intro answer hanswer other hother heq
      have hslot := h answer hanswer
      rw [heq, h other hother] at hslot
      exact (Option.some.inj hslot).symm
  · rintro ⟨hcells, hsame⟩ answer hanswer
    rw [foldl_completeOne_slot]
    rcases hcells answer hanswer with hcell | hcell
    · rw [hcell, Option.none_or]
      cases hfind : l.find? fun other => other.1 = answer.1 with
      | none =>
          have hno := List.find?_eq_none.1 hfind answer hanswer
          simp at hno
      | some other =>
          have heq : other.1 = answer.1 := by simpa using List.find?_some hfind
          rw [Option.map_some, hsame other (List.mem_of_find?_eq_some hfind) answer hanswer heq]
    · rw [hcell, Option.some_or]

/-! ## A run -/

section

variable [DecidableEq K] {fetch : List K → W → Except E (K → Option V) × W}
  {batches : List (List (RequestEntry K))} {maps : List (K → Option V)} {w w' : W}

/-- The fetches for the batches succeed one after the other, from `w` to `w'`. -/
inductive Supplies (fetch : List K → W → Except E (K → Option V) × W) :
    List (List (RequestEntry K)) → W → List (K → Option V) → W → Prop
  | nil {w : W} : Supplies fetch [] w [] w
  | cons {batch : List (RequestEntry K)} {batches : List (List (RequestEntry K))} {w w' w'' : W}
      {map : K → Option V} {maps : List (K → Option V)}
      (hfetch : fetch (distinctKeys batch) w = (.ok map, w'))
      (h : Supplies fetch batches w' maps w'') :
      Supplies fetch (batch :: batches) w (map :: maps) w''

/-- All answers, in the order they are given. -/
def allAnswers (batches : List (List (RequestEntry K))) (maps : List (K → Option V)) :
    List (ℕ × Exit V (MissingKey K)) :=
  (List.zipWith answers batches maps).flatten

/-- One call for each batch, with its keys. -/
def calls (E : Type) (batches : List (List (RequestEntry K))) (maps : List (K → Option V)) :
    List (List K × Except E (K → Option V)) :=
  List.zipWith (fun batch map => (distinctKeys batch, .ok map)) batches maps

/-- The run goes through the batches that are supplied and on with those behind them. -/
theorem runAll_append (h : Supplies fetch batches w maps w') (rest : List (List (RequestEntry K)))
    (cells : Cells K V) (fetched : List (List K × Except E (K → Option V))) :
    runAll fetch (batches ++ rest) ⟨w, cells, fetched⟩ =
      runAll fetch rest ⟨w', (allAnswers batches maps).foldl completeOne cells,
        fetched ++ calls E batches maps⟩ := by
  induction h generalizing cells fetched with
  | nil => simp [allAnswers, calls]
  | cons hfetch _ ih =>
      rw [List.cons_append, runAll]
      simp only [hfetch]
      rw [ih, foldl_resolveEntry]
      simp [allAnswers, calls]

/-- Either all batches are supplied, or the run ends at the first one that is not. -/
theorem supplies_or_fails (fetch : List K → W → Except E (K → Option V) × W)
    (batches : List (List (RequestEntry K))) (w : W) :
    (∃ maps w', Supplies fetch batches w maps w') ∨
      ∃ done batch rest maps w' e w'', batches = done ++ batch :: rest ∧
        Supplies fetch done w maps w' ∧ fetch (distinctKeys batch) w' = (.error e, w'') := by
  induction batches generalizing w with
  | nil => exact .inl ⟨[], w, .nil⟩
  | cons batch batches ih =>
      rcases hfetch : fetch (distinctKeys batch) w with ⟨_ | map, w'⟩
      · exact .inr ⟨[], batch, batches, [], w, _, w', rfl, .nil, hfetch⟩
      · rcases ih w' with ⟨maps, w'', h⟩ | ⟨done, last, rest, maps, v, e, v', rfl, h, hfail⟩
        · exact .inl ⟨map :: maps, w'', .cons hfetch h⟩
        · exact .inr ⟨batch :: done, last, rest, map :: maps, v, e, v', rfl, .cons hfetch h, hfail⟩

theorem runAll_of_supplies (h : Supplies fetch batches w maps w') (cells : Cells K V) :
    runAll fetch batches ⟨w, cells, []⟩ =
      (true, ⟨w', (allAnswers batches maps).foldl completeOne cells, calls E batches maps⟩) := by
  have hrun := runAll_append h [] cells []
  rw [List.append_nil] at hrun
  rw [hrun]
  rfl

/-- A fetch that fails takes the entries of its batch with it, and those behind them. -/
theorem runAll_of_fails {done rest : List (List (RequestEntry K))} {batch : List (RequestEntry K)}
    {e : E} {w'' : W} (h : Supplies fetch done w maps w')
    (hfail : fetch (distinctKeys batch) w' = (.error e, w'')) (cells : Cells K V) :
    (runAll fetch (done ++ batch :: rest) ⟨w, cells, []⟩).1 = false ∧
      (runAll fetch (done ++ batch :: rest) ⟨w, cells, []⟩).2.cells =
        (allAnswers done maps).foldl completeOne cells := by
  rw [runAll_append h, runAll]
  simp only [hfail]
  exact ⟨trivial, trivial⟩

/-! ## When every request is fulfilled -/

/-- The run comes back, every batch has been fetched once with its keys, each entry is completed,
    and where the fetch has come with a map with what this has for its key. -/
structure Fulfilled (batches : List (List (RequestEntry K))) (out : Bool × Run W K V E) :
    Prop where
  returned : out.1 = true
  fetched : List.Forall₂ (fun batch call => call.1.Nodup ∧
    (∀ k, k ∈ call.1 ↔ ∃ entry ∈ batch, entry.key = k) ∧
    ∀ map, call.2 = .ok map → ∀ entry ∈ batch,
      (out.2.cells entry.deferred).slot = some (exitOf map entry.key)) batches out.2.fetched
  completed : ∀ batch ∈ batches, ∀ entry ∈ batch, (out.2.cells entry.deferred).slot ≠ none

/-- The log of a run without a failure says of each batch that it is answered. -/
theorem forall₂_calls (h : Supplies fetch batches w maps w') (cells : Cells K V) :
    List.Forall₂ (fun batch (call : List K × Except E (K → Option V)) => call.1.Nodup ∧
      (∀ k, k ∈ call.1 ↔ ∃ entry ∈ batch, entry.key = k) ∧
      ∀ map, call.2 = .ok map → ∀ entry ∈ batch,
        (cells entry.deferred).slot = some (exitOf map entry.key)) batches (calls E batches maps) ↔
      ∀ answer ∈ allAnswers batches maps, (cells answer.1).slot = some answer.2 := by
  induction h with
  | nil => simp [calls, allAnswers]
  | @cons batch batches w w' w'' map maps hfetch _ ih =>
      have hmap : (∀ m, (Except.ok map : Except E (K → Option V)) = .ok m → ∀ entry ∈ batch,
          (cells entry.deferred).slot = some (exitOf m entry.key)) ↔
          ∀ answer ∈ answers batch map, (cells answer.1).slot = some answer.2 := by
        simp only [Except.ok.injEq, forall_eq', answers, List.forall_mem_map]
      have hall : (∀ answer ∈ allAnswers (batch :: batches) (map :: maps),
          (cells answer.1).slot = some answer.2) ↔
          (∀ answer ∈ answers batch map, (cells answer.1).slot = some answer.2) ∧
          ∀ answer ∈ allAnswers batches maps, (cells answer.1).slot = some answer.2 := by
        unfold allAnswers
        rw [List.zipWith_cons_cons, List.flatten_cons, List.forall_mem_append]
      rw [hall, calls, List.zipWith_cons_cons, List.forall₂_cons, hmap]
      have hkeys := nodup_distinctKeys batch
      simp only [hkeys, mem_distinctKeys, implies_true, true_and, ← ih]
      rfl

/-- No entry goes without an answer. -/
theorem exists_answer (h : Supplies fetch batches w maps w') {batch : List (RequestEntry K)}
    (hbatch : batch ∈ batches) {entry : RequestEntry K} (hentry : entry ∈ batch) :
    ∃ exit, (entry.deferred, exit) ∈ allAnswers batches maps := by
  induction h with
  | nil => cases hbatch
  | @cons first batches w w' w'' map maps hfetch _ ih =>
      have hall : allAnswers (first :: batches) (map :: maps) =
          answers first map ++ allAnswers batches maps := rfl
      rw [hall]
      rcases List.mem_cons.1 hbatch with rfl | hlater
      · exact ⟨_, List.mem_append_left _ (List.mem_map_of_mem hentry)⟩
      · obtain ⟨exit, hexit⟩ := ih hlater
        exact ⟨exit, List.mem_append_right _ hexit⟩

/-- **All requests are fulfilled** exactly if every fetch succeeds, and no cell is full already or
    asked for twice with another answer. -/
theorem fulfilled_iff (fetch : List K → W → Except E (K → Option V) × W)
    (batches : List (List (RequestEntry K))) (w : W) (cells : Cells K V) :
    Fulfilled batches (runAll fetch batches ⟨w, cells, []⟩) ↔
      ∃ maps w', Supplies fetch batches w maps w' ∧ Agreeing cells (allAnswers batches maps) := by
  constructor
  · intro h
    rcases supplies_or_fails fetch batches w with ⟨maps, w', hs⟩ |
        ⟨done, batch, rest, maps, w', e, w'', rfl, hs, hfail⟩
    · have hfetched := h.fetched
      rw [runAll_of_supplies hs] at hfetched
      exact ⟨maps, w', hs, (completes_iff _ _).1 ((forall₂_calls hs _).1 hfetched)⟩
    · have hreturned := h.returned
      rw [(runAll_of_fails hs hfail cells).1] at hreturned
      cases hreturned
  · rintro ⟨maps, w', hs, hagree⟩
    rw [runAll_of_supplies hs]
    have hslots := (completes_iff _ _).2 hagree
    refine ⟨rfl, (forall₂_calls hs _).2 hslots, ?_⟩
    intro batch hbatch entry hentry
    obtain ⟨exit, hexit⟩ := exists_answer hs hbatch hentry
    rw [hslots _ hexit]
    exact Option.some_ne_none exit

/-- Each entry comes with a deferred of its own, just made. -/
def Fresh (cells : Cells K V) (batches : List (List (RequestEntry K))) : Prop :=
  (batches.flatten.map RequestEntry.deferred).Nodup ∧
    ∀ entry ∈ batches.flatten, (cells entry.deferred).slot = none

omit [DecidableEq K] in
theorem map_fst_allAnswers (batches : List (List (RequestEntry K))) (maps : List (K → Option V))
    (h : batches.length = maps.length) :
    (allAnswers batches maps).map Prod.fst = batches.flatten.map RequestEntry.deferred := by
  induction batches generalizing maps with
  | nil => simp [allAnswers]
  | cons batch batches ih =>
      cases maps with
      | nil => cases h
      | cons map maps =>
          have htail := ih maps (Nat.succ.inj h)
          unfold allAnswers at htail ⊢
          rw [List.zipWith_cons_cons, List.flatten_cons, List.map_append, htail, List.flatten_cons,
            List.map_append, answers, List.map_map]
          rfl

theorem Supplies.length_eq (h : Supplies fetch batches w maps w') :
    batches.length = maps.length := by
  induction h with
  | nil => rfl
  | cons _ _ ih => rw [List.length_cons, ih, List.length_cons]

/-- Among entries with deferreds of their own only a fetch that fails does harm. -/
theorem Fresh.fulfilled_iff_supplies {cells : Cells K V} (h : Fresh cells batches) (w : W) :
    Fulfilled batches (runAll fetch batches ⟨w, cells, []⟩) ↔
      ∃ maps w', Supplies fetch batches w maps w' := by
  have hagree {maps : List (K → Option V)} (hlen : batches.length = maps.length) :
      Agreeing cells (allAnswers batches maps) := by
    have hfst := map_fst_allAnswers batches maps hlen
    constructor
    · intro answer hanswer
      have hmem : answer.1 ∈ batches.flatten.map RequestEntry.deferred :=
        hfst ▸ List.mem_map_of_mem hanswer
      obtain ⟨entry, hentry, heq⟩ := List.mem_map.1 hmem
      exact .inl (heq ▸ h.2 entry hentry)
    · intro answer hanswer other hother heq
      rw [List.inj_on_of_nodup_map (hfst ▸ h.1) hanswer hother heq]
  constructor
  · intro hfulfilled
    obtain ⟨maps, w', hs, -⟩ := (fulfilled_iff fetch batches w cells).1 hfulfilled
    exact ⟨maps, w', hs⟩
  · rintro ⟨maps, w', hs⟩
    exact (fulfilled_iff fetch batches w cells).2 ⟨maps, w', hs, hagree hs.length_eq⟩

end

/-- Two requests in two batches; the first fetch fails, the second would not. -/
theorem later_batch_not_fulfilled :
    ¬ ∀ (fetch : List ℕ → ℕ → Except Unit (ℕ → Option ℕ) × ℕ)
      (batches : List (List (RequestEntry ℕ))) (cells : Cells ℕ ℕ), Fresh cells batches →
        Fulfilled batches (runAll fetch batches ⟨0, cells, []⟩) := by
  intro h
  have hbad := h (fun _ call => (if call = 0 then .error () else .ok some, call + 1))
    [[⟨1, 0⟩], [⟨2, 1⟩]] (fun _ => Deferred.make) ⟨by decide, by simp [Deferred.make]⟩
  exact hbad.completed [⟨2, 1⟩] (by simp) ⟨2, 1⟩ (by simp) rfl

end RequestResolver

end IdEffect
