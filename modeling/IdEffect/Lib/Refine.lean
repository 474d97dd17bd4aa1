set_option autoImplicit false

/-! # Operations with results, and their refinement

A component is a state and a function that answers an operation and moves the state on. Another
component refines it when a relation between the two states is kept by every operation, and the
answers are the same: then it is kept, and they are the same, along every sequence of operations. -/

namespace Refine

variable {S T Op R : Type}

/-- The answers to a sequence of operations, and the state after it. -/
def exec (apply : S → Op → R × S) : S → List Op → List R × S
  | s, [] => ([], s)
  | s, op :: ops =>
      let next := apply s op
      let rest := exec apply next.2 ops
      (next.1 :: rest.1, rest.2)

/-- One operation: the same answer, and the relation holds again. -/
def Simulates (f : S → Op → R × S) (g : T → Op → R × T) (rel : S → T → Prop) : Prop :=
  ∀ s t op, rel s t → (f s op).1 = (g t op).1 ∧ rel (f s op).2 (g t op).2

/-- The same, for the operations that are allowed. -/
def SimulatesOn (allowed : Op → Prop) (f : S → Op → R × S) (g : T → Op → R × T)
    (rel : S → T → Prop) : Prop :=
  ∀ s t op, allowed op → rel s t → (f s op).1 = (g t op).1 ∧ rel (f s op).2 (g t op).2

theorem SimulatesOn.exec {allowed : Op → Prop} {f : S → Op → R × S} {g : T → Op → R × T}
    {rel : S → T → Prop} (h : SimulatesOn allowed f g rel) {s : S} {t : T} (hst : rel s t)
    {ops : List Op} (hops : ∀ op ∈ ops, allowed op) :
    (exec f s ops).1 = (exec g t ops).1 ∧ rel (exec f s ops).2 (exec g t ops).2 := by
  induction ops generalizing s t with
  | nil => exact ⟨rfl, hst⟩
  | cons op ops ih =>
      obtain ⟨hres, hnext⟩ := h s t op (hops op (List.mem_cons_self ..)) hst
      obtain ⟨hrest, hlast⟩ := ih hnext fun op' hop' => hops op' (List.mem_cons_of_mem _ hop')
      refine ⟨?_, hlast⟩
      rw [Refine.exec, Refine.exec, hres, hrest]

theorem Simulates.exec {f : S → Op → R × S} {g : T → Op → R × T} {rel : S → T → Prop}
    (h : Simulates f g rel) {s : S} {t : T} (hst : rel s t) (ops : List Op) :
    (exec f s ops).1 = (exec g t ops).1 ∧ rel (exec f s ops).2 (exec g t ops).2 :=
  SimulatesOn.exec (fun s t op _ => h s t op) hst fun _ _ => trivial

/-- The two components agree along the operations: the relation holds in every pair of states they
    come to, and every answer is the same. -/
def Agrees (f : S → Op → R × S) (g : T → Op → R × T) (rel : S → T → Prop) : S → T → List Op → Prop
  | s, t, [] => rel s t
  | s, t, op :: ops =>
      rel s t ∧ (f s op).1 = (g t op).1 ∧ Agrees f g rel (f s op).2 (g t op).2 ops

/-- Every operation meets `guard` in the state it finds. -/
def AlongOps (f : S → Op → R × S) (guard : S → Op → Prop) : S → List Op → Prop
  | _, [] => True
  | s, op :: ops => guard s op ∧ AlongOps f guard (f s op).2 ops

theorem Agrees.head {f : S → Op → R × S} {g : T → Op → R × T} {rel : S → T → Prop} {s : S} {t : T}
    {ops : List Op} (h : Agrees f g rel s t ops) : rel s t := by
  cases ops with
  | nil => exact h
  | cons op ops => exact h.1

theorem Agrees.exec {f : S → Op → R × S} {g : T → Op → R × T} {rel : S → T → Prop} {s : S} {t : T}
    {ops : List Op} (h : Agrees f g rel s t ops) :
    (exec f s ops).1 = (exec g t ops).1 ∧ rel (exec f s ops).2 (exec g t ops).2 := by
  induction ops generalizing s t with
  | nil => exact ⟨rfl, h⟩
  | cons op ops ih =>
      obtain ⟨-, hres, hrest⟩ := h
      refine ⟨?_, (ih hrest).2⟩
      rw [Refine.exec, Refine.exec, hres, (ih hrest).1]

/-- **Blame rule.** If one operation keeps the relation and has the same answer exactly when it
    meets `guard`, the components agree along the operations exactly when all of them do. -/
theorem agrees_iff_alongOps {f : S → Op → R × S} {g : T → Op → R × T} {rel : S → T → Prop}
    {guard : S → Op → Prop}
    (hstep : ∀ s t op, rel s t →
      ((f s op).1 = (g t op).1 ∧ rel (f s op).2 (g t op).2 ↔ guard s op)) {s : S} {t : T}
    (hst : rel s t) (ops : List Op) : Agrees f g rel s t ops ↔ AlongOps f guard s ops := by
  induction ops generalizing s t with
  | nil => exact iff_of_true hst trivial
  | cons op ops ih =>
      rw [Agrees, AlongOps, ← hstep s t op hst, and_iff_right hst, and_assoc]
      refine and_congr_right fun _ => ⟨fun h => ⟨h.head, (ih h.head).1 h⟩, fun h => ?_⟩
      exact (ih h.1).2 h.2

end Refine
