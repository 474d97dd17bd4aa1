import Mathlib.Data.List.AList
import Mathlib.Data.Finset.Insert
import Mathlib.Data.List.Sort
import IdEffect.Lib.Versioned

set_option autoImplicit false

/-! # Software transactional memory: `stm/mod.rs`

The transaction log (`Txn`), the accesses of a transaction to its cells (`TRef.readStm`,
`TRef.writeStm`), the atomic commit (`tryCommit`), transactional programs with their combinators
(`Stm`) and the retry loop (`commit`), each as the source computes it.

A transaction body is a closure over a mutable `Txn`. Other transactions may commit between two of
its cell accesses, so the body is represented by its sequence of accesses: a tree that names the
next cell to read or write and continues with what it reads. `Stm.runOn` gives such a tree the
closure's meaning on a store that stands still; the `runOn_*` equations are the source's bodies of
the combinators. `Val id` is the type of the values in the cell with identity `id` (the source keeps
them behind `dyn Any`, keyed by the cell's address). -/

namespace IdEffect

open Versioned

variable {Val : ℕ → Type} {A B E : Type}

/-! ## The transaction log -/

/-- One attempt of a transactional read/write set. -/
structure Txn (Val : ℕ → Type) where
  /-- Cell identity → shadow value for reads and writes in this attempt. -/
  shadow : AList Val
  /-- Identities for which a version check against the live cell was recorded. -/
  validated : Finset ℕ
  /-- The recorded checks: this cell must still have this version. -/
  readValidators : List (ℕ × UInt64)
  /-- Cell identity → value to store at commit. -/
  commitWrites : AList Val

def Txn.new : Txn Val := ⟨∅, ∅, [], ∅⟩

/-- Record a version check for `id` unless there is one already. -/
def ensureValidated (id : ℕ) (σ : Store Val) (txn : Txn Val) : Txn Val :=
  if id ∈ txn.validated then txn
  else { txn with
    validated := insert id txn.validated
    readValidators := txn.readValidators ++ [(id, (σ id).ver)] }

/-- `TRef::read_stm`: the shadow value if there is one, otherwise the live value, recorded together
    with the version it was read at. -/
def TRef.readStm (id : ℕ) (σ : Store Val) (txn : Txn Val) : Val id × Txn Val :=
  match txn.shadow.lookup id with
  | some v => (v, txn)
  | none =>
      let ver := (σ id).ver
      let val := (σ id).value
      let txn :=
        if id ∈ txn.validated then txn
        else { txn with
          validated := insert id txn.validated
          readValidators := txn.readValidators ++ [(id, ver)] }
      (val, { txn with shadow := txn.shadow.insert id val })

/-- `TRef::write_stm`: record a version check, then shadow the cell and defer the write. -/
def TRef.writeStm (id : ℕ) (value : Val id) (σ : Store Val) (txn : Txn Val) : Txn Val :=
  let txn := ensureValidated id σ txn
  { txn with
    shadow := txn.shadow.insert id value
    commitWrites := txn.commitWrites.insert id value }

/-- All recorded version checks hold on `σ`. -/
def Txn.valid (txn : Txn Val) (σ : Store Val) : Bool :=
  txn.readValidators.all (fun v => (σ v.1).ver == v.2)

/-- Store a value in a live cell and bump its version. -/
def setCell (σ : Store Val) (id : ℕ) (v : Val id) : Store Val :=
  Function.update σ id ((σ id).write v)

/-- The write loop of `try_commit` over the sorted identities. -/
def applyWrites (writes : AList Val) : List ℕ → Store Val → Store Val
  | [], σ => σ
  | id :: ids, σ =>
      match writes.lookup id with
      | some v => applyWrites writes ids (setCell σ id v)
      | none => applyWrites writes ids σ

/-- `try_commit`: under the global lock, run every validator and then every deferred write, in the
    order of the cell identities; `none` if a validator fails. -/
def tryCommit (txn : Txn Val) (σ : Store Val) : Option (Store Val) :=
  if txn.valid σ then
    some (applyWrites txn.commitWrites (txn.commitWrites.keys.insertionSort (· ≤ ·)) σ)
  else none

/-! ## Transactional programs -/

/-- Result of one execution pass over a `Txn`. -/
inductive Outcome (A E : Type) where
  | done (a : A)
  | fail (e : E)
  | retry
deriving DecidableEq

/-- A transactional program as the tree of its cell accesses. -/
inductive Stm (Val : ℕ → Type) (A E : Type) where
  | done (a : A)
  | fail (e : E)
  | retry
  | read (id : ℕ) (k : Val id → Stm Val A E)
  | write (id : ℕ) (v : Val id) (k : Stm Val A E)

namespace Stm

/-- `Stm::run_on` on a store that no other transaction changes meanwhile. -/
def runOn : Stm Val A E → Store Val → Txn Val → Outcome A E × Txn Val
  | .done a, _, txn => (.done a, txn)
  | .fail e, _, txn => (.fail e, txn)
  | .retry, _, txn => (.retry, txn)
  | .read id k, σ, txn => (k (TRef.readStm id σ txn).1).runOn σ (TRef.readStm id σ txn).2
  | .write id v k, σ, txn => k.runOn σ (TRef.writeStm id v σ txn)

/-- `Stm::succeed`. -/
def succeed (a : A) : Stm Val A E := .done a

/-- `Stm::check`: retry unless `cond` holds. -/
def check (cond : Bool) : Stm Val Unit E := if cond then succeed () else .retry

/-- `Stm::flat_map`: bind on success; failures and retries propagate. -/
def flatMap : Stm Val A E → (A → Stm Val B E) → Stm Val B E
  | .done a, f => f a
  | .fail e, _ => .fail e
  | .retry, _ => .retry
  | .read id k, f => .read id (fun v => (k v).flatMap f)
  | .write id v k, f => .write id v (k.flatMap f)

/-- `Stm::map`. -/
def map (p : Stm Val A E) (f : A → B) : Stm Val B E := p.flatMap (fun a => .done (f a))

/-- `Stm::or_else`: on retry from `p`, run `q` on the log that `p` leaves behind. -/
def orElse : Stm Val A E → Stm Val A E → Stm Val A E
  | .done a, _ => .done a
  | .fail e, _ => .fail e
  | .retry, q => q
  | .read id k, q => .read id (fun v => (k v).orElse q)
  | .write id v k, q => .write id v (k.orElse q)

/-- `TRef::read_stm` as a program. -/
def readStm (id : ℕ) : Stm Val (Val id) E := .read id .done

/-- `TRef::write_stm` as a program. -/
def writeStm (id : ℕ) (v : Val id) : Stm Val Unit E := .write id v (.done ())

/-- `TRef::update_stm`: read, apply `f`, write the result back. -/
def updateStm (id : ℕ) (f : Val id → Val id) : Stm Val Unit E :=
  .read id (fun cur => writeStm id (f cur))

/-- `TRef::modify_stm`: read, compute `(output, next)`, write `next`, return `output`. -/
def modifyStm (id : ℕ) (f : Val id → B × Val id) : Stm Val B E :=
  .read id (fun cur => .write id (f cur).2 (.done (f cur).1))

/-! ### The combinators' bodies in the source

Each equation is the closure that the source builds for the combinator, on the representation
above. -/

@[simp] theorem runOn_flatMap (p : Stm Val A E) (f : A → Stm Val B E) (σ : Store Val)
    (txn : Txn Val) :
    (p.flatMap f).runOn σ txn
      = match p.runOn σ txn with
        | (.done a, txn') => (f a).runOn σ txn'
        | (.fail e, txn') => (.fail e, txn')
        | (.retry, txn') => (.retry, txn') := by
  induction p generalizing txn with
  | done a => rfl
  | fail e => rfl
  | retry => rfl
  | read id k ih => exact ih _ _
  | write id v k ih => exact ih _

@[simp] theorem runOn_map (p : Stm Val A E) (f : A → B) (σ : Store Val) (txn : Txn Val) :
    (p.map f).runOn σ txn
      = match p.runOn σ txn with
        | (.done a, txn') => (.done (f a), txn')
        | (.fail e, txn') => (.fail e, txn')
        | (.retry, txn') => (.retry, txn') :=
  runOn_flatMap p _ σ txn

@[simp] theorem runOn_orElse (p q : Stm Val A E) (σ : Store Val) (txn : Txn Val) :
    (p.orElse q).runOn σ txn
      = match p.runOn σ txn with
        | (.retry, txn') => q.runOn σ txn'
        | o => o := by
  induction p generalizing txn with
  | done a => rfl
  | fail e => rfl
  | retry => rfl
  | read id k ih => exact ih _ _
  | write id v k ih => exact ih _

end Stm

/-! ## The retry loop -/

/-- `commit`, run alone: attempts on a fresh log until one returns, at most `fuel` of them. -/
def commit : ℕ → Stm Val A E → Store Val → Option (Except E A × Store Val)
  | 0, _, _ => none
  | fuel + 1, stm, σ =>
      match stm.runOn σ Txn.new with
      | (.fail e, _) => some (.error e, σ)
      | (.retry, _) => commit fuel stm σ
      | (.done a, txn) =>
          match tryCommit txn σ with
          | some σ' => some (.ok a, σ')
          | none => commit fuel stm σ

/-! ## What a commit does to the store -/

@[simp] theorem setCell_self (σ : Store Val) (id : ℕ) (v : Val id) :
    setCell σ id v id = (σ id).write v := by
  simp [setCell]

theorem setCell_of_ne (σ : Store Val) {id j : ℕ} (v : Val id) (h : j ≠ id) :
    setCell σ id v j = σ j := by
  simp [setCell, h]

theorem applyWrites_of_not_mem (writes : AList Val) {ids : List ℕ} (σ : Store Val) {j : ℕ}
    (h : j ∉ ids) : applyWrites writes ids σ j = σ j := by
  induction ids generalizing σ with
  | nil => rfl
  | cons id ids ih =>
      rw [List.mem_cons, not_or] at h
      obtain ⟨hne, hnot⟩ := h
      rw [applyWrites]
      cases writes.lookup id with
      | none => exact ih _ hnot
      | some v => exact (ih _ hnot).trans (setCell_of_ne _ _ hne)

theorem applyWrites_of_mem (writes : AList Val) {ids : List ℕ} (hnd : ids.Nodup) (σ : Store Val)
    {j : ℕ} {v : Val j} (hj : j ∈ ids) (hv : writes.lookup j = some v) :
    applyWrites writes ids σ j = (σ j).write v := by
  induction ids generalizing σ with
  | nil => exact absurd hj (by simp)
  | cons id ids ih =>
      obtain ⟨hnot, hnd'⟩ := List.nodup_cons.1 hnd
      rw [applyWrites]
      by_cases hji : j = id
      · subst hji
        simp only [hv, applyWrites_of_not_mem _ _ hnot, setCell_self]
      · have hmem : j ∈ ids := (List.mem_cons.1 hj).resolve_left hji
        cases writes.lookup id with
        | none => exact ih hnd' _ hmem
        | some w => exact (ih hnd' _ hmem).trans (by rw [setCell_of_ne _ _ hji])

/-- **`try_commit`, cell by cell.** A commit goes through exactly when the validators hold; it then
    writes each cell of the write set once and touches no other. -/
theorem tryCommit_eq_some {txn : Txn Val} {σ σ' : Store Val} :
    tryCommit txn σ = some σ' ↔
      txn.valid σ = true ∧ ∀ id, σ' id = match txn.commitWrites.lookup id with
        | some v => (σ id).write v
        | none => σ id := by
  have hnd : (txn.commitWrites.keys.insertionSort (· ≤ ·)).Nodup :=
    (List.perm_insertionSort _ _).nodup_iff.2 txn.commitWrites.keys_nodup
  have hcell : ∀ id, applyWrites txn.commitWrites (txn.commitWrites.keys.insertionSort (· ≤ ·)) σ id
      = match txn.commitWrites.lookup id with
        | some v => (σ id).write v
        | none => σ id := by
    intro id
    cases hl : txn.commitWrites.lookup id with
    | none =>
        refine applyWrites_of_not_mem _ _ ?_
        rw [List.mem_insertionSort, ← AList.mem_keys]
        exact AList.lookup_eq_none.1 hl
    | some v =>
        refine applyWrites_of_mem _ hnd _ ?_ hl
        rw [List.mem_insertionSort, ← AList.mem_keys]
        exact AList.lookup_isSome.1 (by rw [hl]; rfl)
  unfold tryCommit
  split
  · next hv =>
      rw [Option.some.injEq]
      constructor
      · rintro rfl
        exact ⟨hv, hcell⟩
      · rintro ⟨_, h⟩
        exact funext fun id => (hcell id).trans (h id).symm
  · next hv => simp [hv]

theorem tryCommit_eq_none {txn : Txn Val} {σ : Store Val} :
    tryCommit txn σ = none ↔ txn.valid σ = false := by
  unfold tryCommit
  split <;> simp_all

theorem tryCommit_follows {txn : Txn Val} {σ σ' : Store Val} (h : tryCommit txn σ = some σ') :
    Follows σ σ' := by
  intro id
  rw [(tryCommit_eq_some.1 h).2 id]
  cases txn.commitWrites.lookup id with
  | none => exact Or.inl rfl
  | some v => exact Or.inr ⟨v, rfl⟩

/-! ### A transaction on one cell

`modify_stm` reads a cell, computes and writes it back. Its commit goes through exactly if nobody
has written the cell since. -/

theorem tryCommit_modifyStm (id : ℕ) (f : Val id → B × Val id) (σ σ' : Store Val) :
    tryCommit ((Stm.modifyStm id f : Stm Val B E).runOn σ Txn.new).2 σ'
      = if (σ' id).ver = (σ id).ver then some (setCell σ' id (f (σ id).value).2) else none := by
  have hread : TRef.readStm id σ (Txn.new : Txn Val)
      = ((σ id).value, ⟨AList.insert id (σ id).value ∅, {id}, [(id, (σ id).ver)], ∅⟩) := rfl
  have htxn : ((Stm.modifyStm id f : Stm Val B E).runOn σ Txn.new).2
      = ⟨AList.insert id (f (σ id).value).2 (AList.insert id (σ id).value ∅), {id},
          [(id, (σ id).ver)], AList.insert id (f (σ id).value).2 ∅⟩ := by
    simp only [Stm.modifyStm, Stm.runOn, hread, TRef.writeStm, ensureValidated,
      Finset.mem_singleton, if_true]
  rw [htxn]
  by_cases h : (σ' id).ver = (σ id).ver
  · rw [if_pos h, tryCommit_eq_some]
    refine ⟨by simp [Txn.valid, h], fun j => ?_⟩
    by_cases hj : j = id
    · subst hj
      have hsome : (AList.insert j (f (σ j).value).2 ∅ : AList Val).lookup j
          = some (f (σ j).value).2 := AList.lookup_insert _
      rw [setCell_self, hsome]
    · rw [setCell_of_ne _ _ hj]
      have hnone : (AList.insert id (f (σ id).value).2 ∅ : AList Val).lookup j = none := by
        rw [AList.lookup_insert_ne hj]
        rfl
      rw [hnone]
  · rw [if_neg h, tryCommit_eq_none]
    simp [Txn.valid, h]

end IdEffect
