import Mathlib.Data.Nat.Notation
import Mathlib.Logic.Function.Basic
import IdEffect.Lib.Refine

set_option autoImplicit false

/-! # Fiber-local cells

`FiberRef` keeps the value of every fiber in a hash map, under the key of the reference and the id
of the fiber, and a fiber without a slot has the initial value: `get` puts it into the map,
`update`, `modify` and `on_fork` compute with it, `reset` goes back to it by removing the slot.
`on_join` alone treats a missing slot as a missing value. So a reference is a total map from fibers
to values (`FiberRef.spec`) except where a join finds a slot missing that `join` would have noticed.
-/

namespace IdEffect.Concurrency

open Refine

abbrev FiberId := ℕ

variable {A B : Type}

/-- What the clones of a reference share, but for the map. -/
structure FiberRef (A : Type) where
  key : ℕ
  initial : A
  fork : A → A
  join : A → A → A

/-- The map behind the mutex. -/
abbrev Store (A : Type) := ℕ × ℕ → Option A

/-- An operation, with the fiber that is current. -/
inductive Op (A B : Type) where
  | get (fiber : FiberId)
  | set (fiber : FiberId) (value : A)
  | update (fiber : FiberId) (f : A → A)
  | modify (fiber : FiberId) (f : A → B × A)
  | reset (fiber : FiberId)
  | onFork (parent child : FiberId)
  | onJoin (parent child : FiberId)

inductive Answer (A B : Type) where
  | unit
  | value (a : A)
  | output (b : B)
  deriving DecidableEq

/-- The fibers whose value the operation may change. -/
def Op.changes : Op A B → List FiberId
  | .get _ => []
  | .set fiber _ | .update fiber _ | .modify fiber _ | .reset fiber => [fiber]
  | .onFork _ child => [child]
  | .onJoin parent child => [parent, child]

namespace FiberRef

variable (fr : FiberRef A)

/-- With the fork that copies the parent's value and the join that takes the child's. -/
def make (key : ℕ) (initial : A) : FiberRef A := ⟨key, initial, id, fun _ c => c⟩

def slot (fiber : FiberId) : ℕ × ℕ := (fr.key, fiber)

def insert (map : Store A) (fiber : FiberId) (v : A) : Store A :=
  Function.update map (fr.slot fiber) (some v)

def remove (map : Store A) (fiber : FiberId) : Store A :=
  Function.update map (fr.slot fiber) none

/-- The value of a slot, or else the initial one. -/
def current (map : Store A) (fiber : FiberId) : A := (map (fr.slot fiber)).getD fr.initial

def get (map : Store A) (fiber : FiberId) : A × Store A :=
  match map (fr.slot fiber) with
  | some v => (v, map)
  | none => (fr.initial, fr.insert map fiber fr.initial)

def update (map : Store A) (fiber : FiberId) (f : A → A) : Store A :=
  fr.insert map fiber (f (fr.current map fiber))

def modify (map : Store A) (fiber : FiberId) (f : A → B × A) : B × Store A :=
  ((f (fr.current map fiber)).1, fr.insert map fiber (f (fr.current map fiber)).2)

/-- The parent's slot is filled if it is vacant. The lookup after that is an `expect`. -/
def onFork (map : Store A) (parent child : FiberId) : Store A :=
  let map := match map (fr.slot parent) with
    | some _ => map
    | none => fr.insert map parent fr.initial
  match map (fr.slot parent) with
  | some v => fr.insert map child (fr.fork v)
  | none => map

def onJoin (map : Store A) (parent child : FiberId) : Store A :=
  let childV := map (fr.slot child)
  let map := fr.remove map child
  match map (fr.slot parent), childV with
  | some p, some c => fr.insert map parent (fr.join p c)
  | none, some c => fr.insert map parent c
  | _, none => map

def apply (map : Store A) : Op A B → Answer A B × Store A
  | .get fiber => (.value (fr.get map fiber).1, (fr.get map fiber).2)
  | .set fiber value => (.unit, fr.insert map fiber value)
  | .update fiber f => (.unit, fr.update map fiber f)
  | .modify fiber f => (.output (fr.modify map fiber f).1, (fr.modify map fiber f).2)
  | .reset fiber => (.unit, fr.remove map fiber)
  | .onFork parent child => (.unit, fr.onFork map parent child)
  | .onJoin parent child => (.unit, fr.onJoin map parent child)

/-- What a reference is for: every fiber has a value at all times. -/
def spec (values : FiberId → A) : Op A B → Answer A B × (FiberId → A)
  | .get fiber => (.value (values fiber), values)
  | .set fiber value => (.unit, Function.update values fiber value)
  | .update fiber f => (.unit, Function.update values fiber (f (values fiber)))
  | .modify fiber f =>
      (.output (f (values fiber)).1, Function.update values fiber (f (values fiber)).2)
  | .reset fiber => (.unit, Function.update values fiber fr.initial)
  | .onFork parent child => (.unit, Function.update values child (fr.fork (values parent)))
  | .onJoin parent child =>
      (.unit, Function.update
        (Function.update values parent (fr.join (values parent) (values child)))
        child fr.initial)

/-- No fiber has a slot. -/
def empty : Store A := fun _ => none

/-- The map stands for the values. -/
def Reads (map : Store A) (values : FiberId → A) : Prop := fr.current map = values

/-- A join of two fibers with slots, or one that would have come out the same with the initial value
    for the slot that is missing. A fiber that is joined to itself keeps its value. -/
def JoinAgrees (map : Store A) : Op A B → Prop
  | .onJoin parent child =>
      if parent = child then fr.current map parent = fr.initial
      else match map (fr.slot parent), map (fr.slot child) with
        | some _, some _ => True
        | none, some c => c = fr.join fr.initial c
        | some p, none => p = fr.join p fr.initial
        | none, none => fr.initial = fr.join fr.initial fr.initial
  | _ => True

variable {fr} {map : Store A} {values : FiberId → A}

theorem slot_inj {fiber fiber' : FiberId} : fr.slot fiber = fr.slot fiber' ↔ fiber = fiber' :=
  ⟨fun h => (Prod.mk.inj h).2, fun h => h ▸ rfl⟩

theorem insert_slot (map : Store A) (fiber fiber' : FiberId) (v : A) :
    fr.insert map fiber v (fr.slot fiber')
      = if fiber' = fiber then some v else map (fr.slot fiber') := by
  rw [insert, Function.update_apply]
  simp only [slot_inj]

theorem remove_slot (map : Store A) (fiber fiber' : FiberId) :
    fr.remove map fiber (fr.slot fiber')
      = if fiber' = fiber then none else map (fr.slot fiber') := by
  rw [remove, Function.update_apply]
  simp only [slot_inj]

theorem current_insert (map : Store A) (fiber : FiberId) (v : A) :
    fr.current (fr.insert map fiber v) = Function.update (fr.current map) fiber v := by
  funext fiber'
  rw [current, insert_slot, Function.update_apply]
  split
  · rfl
  · rfl

theorem current_remove (map : Store A) (fiber : FiberId) :
    fr.current (fr.remove map fiber) = Function.update (fr.current map) fiber fr.initial := by
  funext fiber'
  rw [current, remove_slot, Function.update_apply]
  split
  · rfl
  · rfl

theorem current_of_slot {fiber : FiberId} {slot : Option A} (h : map (fr.slot fiber) = slot) :
    fr.current map fiber = slot.getD fr.initial := by
  rw [current, h]

/-- Filling a vacant slot with the initial value is not seen. -/
theorem current_fill {fiber : FiberId} (h : map (fr.slot fiber) = none) :
    fr.current (fr.insert map fiber fr.initial) = fr.current map := by
  rw [current_insert, ← Function.update_eq_self fiber (fr.current map), current_of_slot h]
  rw [Function.update_idem]
  rfl

theorem get_eq (map : Store A) (fiber : FiberId) :
    (fr.get map fiber).1 = fr.current map fiber
      ∧ fr.current (fr.get map fiber).2 = fr.current map := by
  rw [get]
  cases h : map (fr.slot fiber) with
  | some v => exact ⟨(current_of_slot h).symm, rfl⟩
  | none => exact ⟨(current_of_slot h).symm, current_fill h⟩

theorem current_onFork (map : Store A) (parent child : FiberId) :
    fr.current (fr.onFork map parent child)
      = Function.update (fr.current map) child (fr.fork (fr.current map parent)) := by
  rw [onFork]
  cases h : map (fr.slot parent) with
  | some v =>
      simp only [h]
      rw [current_insert, current_of_slot h]
      rfl
  | none =>
      simp only [insert_slot, if_pos]
      rw [current_insert, current_fill h, current_of_slot h]
      rfl

/-- What the parent has after a join with another fiber. -/
def joined (fr : FiberRef A) (map : Store A) (parent child : FiberId) : A :=
  match map (fr.slot parent), map (fr.slot child) with
  | some p, some c => fr.join p c
  | none, some c => c
  | some p, none => p
  | none, none => fr.initial

theorem current_onJoin {parent child : FiberId} (hne : parent ≠ child) :
    fr.current (fr.onJoin map parent child)
      = Function.update (Function.update (fr.current map) parent (fr.joined map parent child))
          child fr.initial := by
  have hparent : fr.remove map child (fr.slot parent) = map (fr.slot parent) := by
    rw [remove_slot, if_neg hne]
  -- a join that leaves the parent alone, in the form of one that does not
  have hkeep : ∀ v, fr.current map parent = v →
      fr.current (fr.remove map child)
        = Function.update (Function.update (fr.current map) parent v) child fr.initial := by
    rintro v rfl
    rw [current_remove, Function.update_eq_self]
  rw [onJoin, joined]
  simp only [hparent]
  cases hp : map (fr.slot parent) with
  | some p =>
      cases hc : map (fr.slot child) with
      | some c => rw [current_insert, current_remove, Function.update_comm hne.symm]
      | none => exact hkeep p (current_of_slot hp)
  | none =>
      cases hc : map (fr.slot child) with
      | some c => rw [current_insert, current_remove, Function.update_comm hne.symm]
      | none => exact hkeep fr.initial (current_of_slot hp)

/-- The child is taken out of the map and put back in as the parent. -/
theorem current_onJoin_self (map : Store A) (fiber : FiberId) :
    fr.current (fr.onJoin map fiber fiber) = fr.current map := by
  rw [onJoin]
  simp only [remove_slot, if_pos]
  cases hc : map (fr.slot fiber) with
  | some c =>
      rw [current_insert, current_remove, Function.update_idem, Function.update_eq_iff]
      exact ⟨(current_of_slot hc).symm, fun _ _ => rfl⟩
  | none =>
      rw [current_remove, Function.update_eq_iff]
      exact ⟨(current_of_slot hc).symm, fun _ _ => rfl⟩

/-- Two joins that differ in what the parent has come to different values. -/
theorem update_update_inj {f : FiberId → A} {parent child : FiberId} {v w i : A}
    (hne : parent ≠ child) :
    Function.update (Function.update f parent v) child i
        = Function.update (Function.update f parent w) child i ↔ v = w := by
  refine ⟨fun h => ?_, fun h => h ▸ rfl⟩
  have hat := congrFun h parent
  rwa [Function.update_of_ne hne, Function.update_of_ne hne, Function.update_self,
    Function.update_self] at hat

theorem onJoin_iff {parent child : FiberId} :
    Reads fr (fr.onJoin map parent child)
        (fr.spec (B := B) (fr.current map) (.onJoin parent child)).2
      ↔ fr.JoinAgrees map (.onJoin (B := B) parent child) := by
  rw [Reads, spec, JoinAgrees]
  by_cases heq : parent = child
  · subst heq
    rw [if_pos rfl, current_onJoin_self, Function.update_idem, eq_comm, Function.update_eq_iff]
    exact ⟨fun h => h.1.symm, fun h => ⟨h.symm, fun _ _ => rfl⟩⟩
  · rw [if_neg heq, current_onJoin heq, update_update_inj heq, joined]
    simp only [current]
    cases map (fr.slot parent) with
    | some p =>
        cases map (fr.slot child) with
        | some c => exact iff_of_true rfl trivial
        | none => exact Iff.rfl
    | none =>
        cases map (fr.slot child) with
        | some c => exact Iff.rfl
        | none => exact Iff.rfl

/-- An operation answers as the total map does and leads to the same values exactly when it is not a
    join for which a missing slot makes a difference. -/
theorem apply_iff (h : fr.Reads map values) (op : Op A B) :
    (fr.apply map op).1 = (fr.spec values op).1
        ∧ fr.Reads (fr.apply map op).2 (fr.spec values op).2 ↔ fr.JoinAgrees map op := by
  subst h
  cases op with
  | get fiber =>
      obtain ⟨hv, hmap⟩ := fr.get_eq map fiber
      exact iff_of_true ⟨congrArg Answer.value hv, hmap⟩ trivial
  | set fiber value => exact iff_of_true ⟨rfl, current_insert ..⟩ trivial
  | update fiber f => exact iff_of_true ⟨rfl, current_insert ..⟩ trivial
  | modify fiber f => exact iff_of_true ⟨rfl, current_insert ..⟩ trivial
  | reset fiber => exact iff_of_true ⟨rfl, current_remove ..⟩ trivial
  | onFork parent child => exact iff_of_true ⟨rfl, current_onFork ..⟩ trivial
  | onJoin parent child => exact (and_iff_right rfl).trans onJoin_iff

/-- An operation changes the values of the fibers it is about, and of no others. -/
theorem current_apply_of_notMem {op : Op A B} {fiber : FiberId} (h : fiber ∉ op.changes) :
    fr.current (fr.apply map op).2 fiber = fr.current map fiber := by
  cases op with
  | get fiber' => exact congrFun (get_eq map fiber').2 fiber
  | set fiber' value =>
      exact (congrFun (current_insert ..) fiber).trans
        (Function.update_of_ne (List.ne_of_not_mem_cons h) ..)
  | update fiber' f =>
      exact (congrFun (current_insert ..) fiber).trans
        (Function.update_of_ne (List.ne_of_not_mem_cons h) ..)
  | modify fiber' f =>
      exact (congrFun (current_insert ..) fiber).trans
        (Function.update_of_ne (List.ne_of_not_mem_cons h) ..)
  | reset fiber' =>
      exact (congrFun (current_remove ..) fiber).trans
        (Function.update_of_ne (List.ne_of_not_mem_cons h) ..)
  | onFork parent child =>
      exact (congrFun (current_onFork ..) fiber).trans
        (Function.update_of_ne (List.ne_of_not_mem_cons h) ..)
  | onJoin parent child =>
      obtain ⟨hparent, hchild⟩ := List.ne_and_not_mem_of_not_mem_cons h
      have hchild := List.ne_of_not_mem_cons hchild
      by_cases heq : parent = child
      · subst heq
        exact congrFun (current_onJoin_self ..) fiber
      · refine (congrFun (current_onJoin heq) fiber).trans ?_
        rw [Function.update_of_ne hchild, Function.update_of_ne hparent]

/-- **A reference is a total map from fibers to values exactly as long as no join finds a slot
    missing that makes a difference**: it has the same answers and the same values all along. In any
    case an operation leaves the values of other fibers as they are. -/
theorem agrees_iff_joinAgrees (fr : FiberRef A) (ops : List (Op A B)) :
    (Agrees fr.apply fr.spec fr.Reads FiberRef.empty (fun _ => fr.initial) ops
        ↔ AlongOps fr.apply fr.JoinAgrees FiberRef.empty ops)
      ∧ ∀ (map : Store A) (op : Op A B) (fiber : FiberId), fiber ∉ op.changes →
        fr.current (fr.apply map op).2 fiber = fr.current map fiber := by
  refine ⟨?_, fun _ _ _ => current_apply_of_notMem⟩
  apply agrees_iff_alongOps
  · exact fun map values op h => apply_iff h op
  · exact rfl

/-- Where a join takes the child's value, a child without one takes the parent back to the initial
    value, which is not what happens. -/
theorem make_joinAgrees_iff {key : ℕ} {initial : A} {parent child : FiberId}
    (hne : parent ≠ child) :
    (make key initial).JoinAgrees map (.onJoin (B := B) parent child)
      ↔ (map ((make key initial).slot child)).isSome
        ∨ (make key initial).current map parent = initial := by
  rw [JoinAgrees, if_neg hne, current]
  cases map ((make key initial).slot parent) with
  | some p =>
      cases map ((make key initial).slot child) with
      | some c => exact iff_of_true trivial (Or.inl rfl)
      | none => exact ⟨Or.inr, fun h => h.resolve_left fun hsome => by cases hsome⟩
  | none =>
      cases map ((make key initial).slot child) with
      | some c => exact iff_of_true rfl (Or.inl rfl)
      | none => exact iff_of_true rfl (Or.inr rfl)

/-- A child has written 3 and is joined to a parent that has not used the reference yet. -/
theorem answers_ne_spec :
    ¬ ∀ (fr : FiberRef ℕ) (ops : List (Op ℕ ℕ)),
      (exec fr.apply FiberRef.empty ops).1 = (exec fr.spec (fun _ => fr.initial) ops).1 :=
  fun h => absurd (h ⟨1, 10, id, fun p c => p + c⟩ [.set 7 3, .onJoin 0 7, .get 0]) (by decide)

end FiberRef

end IdEffect.Concurrency
