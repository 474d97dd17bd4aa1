import IdEffect.Concurrency.FiberRef

set_option autoImplicit false

/-! # Overriding a fiber-local cell

`FiberRef::locally` takes the slot of the current fiber out of the map, puts the override there,
runs the inner effect, and puts back what it took out, if that was anything. What the inner effect
does to that slot is not seen afterwards, and everything else it does is (`run_locally`).

An effect that runs on one fiber is a `Local`: operations on a family of references, each with a map
of its own, joined by `flat_map` and `catch_all`. -/

namespace IdEffect.Concurrency

namespace FiberRef

variable {A : Type} (fr : FiberRef A)

/-- The two locks before the inner effect. The slot that was there is kept for `restore`. -/
def enter (map : Store A) (fiber : FiberId) (value : A) : Option A × Store A :=
  (map (fr.slot fiber), fr.insert (fr.remove map fiber) fiber value)

/-- The lock after it. -/
def restore (map : Store A) (fiber : FiberId) (previous : Option A) : Store A :=
  let map := fr.remove map fiber
  match previous with
  | some v => fr.insert map fiber v
  | none => map

variable {fr}

theorem enter_snd (map : Store A) (fiber : FiberId) (value : A) :
    (fr.enter map fiber value).2 = fr.insert map fiber value := by
  simp only [enter, insert, remove, Function.update_idem]

theorem restore_eq (map : Store A) (fiber : FiberId) (previous : Option A) :
    fr.restore map fiber previous = Function.update map (fr.slot fiber) previous := by
  cases previous with
  | some v => simp only [restore, insert, remove, Function.update_idem]
  | none => simp only [restore, remove]

end FiberRef

end IdEffect.Concurrency

namespace IdEffect.FiberLocal

open Concurrency

/-- The references are the values of `ι`, and `A i` is the type of what the reference `i` holds. -/
inductive Local {ι : Type} (A : ι → Type) (E : Type) : Type → Type 1 where
  | succeed {B : Type} (b : B) : Local A E B
  | fail {B : Type} (e : E) : Local A E B
  | flatMap {B C : Type} (self : Local A E B) (f : B → Local A E C) : Local A E C
  | catchAll {B : Type} (self : Local A E B) (f : E → Local A E B) : Local A E B
  | get (i : ι) : Local A E (A i)
  | set (i : ι) (value : A i) : Local A E Unit
  | update (i : ι) (f : A i → A i) : Local A E Unit
  | modify {B : Type} (i : ι) (f : A i → B × A i) : Local A E B
  | reset (i : ι) : Local A E Unit
  | onFork (i : ι) (parent child : FiberId) : Local A E Unit
  | onJoin (i : ι) (parent child : FiberId) : Local A E Unit
  | locally {B : Type} (i : ι) (value : A i) (inner : Local A E B) : Local A E B
  | locallyWith {B : Type} (i : ι) (f : Unit → A i) (inner : Local A E B) : Local A E B

variable {ι : Type} [DecidableEq ι] {A : ι → Type} {E B C : Type}

/-- The maps of all the references. -/
abbrev Stores {ι : Type} (A : ι → Type) : Type := (i : ι) → Store (A i)

/-- One of them is replaced. -/
def Stores.put (stores : Stores A) (i : ι) (map : Store (A i)) : Stores A :=
  Function.update stores i map

section Run

variable (refs : (i : ι) → FiberRef (A i)) (fiber : FiberId)

/-- The override and the restore around a run of the inner effect. -/
def runLocally (i : ι) (value : A i) (inner : Stores A → Except E B × Stores A)
    (stores : Stores A) : Except E B × Stores A :=
  let entered := (refs i).enter (stores i) fiber value
  let result := inner (stores.put i entered.2)
  (result.1, result.2.put i ((refs i).restore (result.2 i) fiber entered.1))

/-- Runs the effect on the fiber. -/
def run {B : Type} : Local A E B → Stores A → Except E B × Stores A
  | .succeed b, stores => (.ok b, stores)
  | .fail e, stores => (.error e, stores)
  | .flatMap self f, stores =>
      match run self stores with
      | (.ok b, stores) => run (f b) stores
      | (.error e, stores) => (.error e, stores)
  | .catchAll self f, stores =>
      match run self stores with
      | (.ok b, stores) => (.ok b, stores)
      | (.error e, stores) => run (f e) stores
  | .get i, stores =>
      (.ok ((refs i).get (stores i) fiber).1, stores.put i ((refs i).get (stores i) fiber).2)
  | .set i value, stores => (.ok (), stores.put i ((refs i).insert (stores i) fiber value))
  | .update i f, stores => (.ok (), stores.put i ((refs i).update (stores i) fiber f))
  | .modify i f, stores =>
      (.ok ((refs i).modify (stores i) fiber f).1,
        stores.put i ((refs i).modify (stores i) fiber f).2)
  | .reset i, stores => (.ok (), stores.put i ((refs i).remove (stores i) fiber))
  | .onFork i parent child, stores =>
      (.ok (), stores.put i ((refs i).onFork (stores i) parent child))
  | .onJoin i parent child, stores =>
      (.ok (), stores.put i ((refs i).onJoin (stores i) parent child))
  | .locally i value inner, stores => runLocally refs fiber i value (run inner) stores
  | .locallyWith i f inner, stores => runLocally refs fiber i (f ()) (run inner) stores

end Run

/-! ## One slot -/

/-- What the map of a reference has for a fiber. -/
def slotOf (refs : (i : ι) → FiberRef (A i)) (stores : Stores A) (i : ι) (fiber : FiberId) :
    Option (A i) :=
  stores i ((refs i).slot fiber)

variable {refs : (i : ι) → FiberRef (A i)} {fiber : FiberId} {stores : Stores A}

@[simp]
theorem put_self (stores : Stores A) (i : ι) (map : Store (A i)) : stores.put i map i = map := by
  simp [Stores.put]

theorem put_of_ne {i j : ι} (h : j ≠ i) (map : Store (A i)) : stores.put i map j = stores j := by
  simp [Stores.put, h]

@[simp]
theorem put_put (stores : Stores A) (i : ι) (map map' : Store (A i)) :
    (stores.put i map).put i map' = stores.put i map' := by
  simp [Stores.put]

@[simp]
theorem put_eq (stores : Stores A) (i : ι) : stores.put i (stores i) = stores := by
  simp [Stores.put]

theorem put_comm {i j : ι} (h : i ≠ j) (map : Store (A i)) (map' : Store (A j)) :
    (stores.put i map).put j map' = (stores.put j map').put i map := by
  simp only [Stores.put]
  exact (Function.update_comm h map map' stores)

/-- A slot is restored, whatever has been done to the maps. -/
def Stores.restored (after : Stores A) (refs : (i : ι) → FiberRef (A i)) (before : Stores A)
    (i : ι) (fiber : FiberId) : Stores A :=
  after.put i (Function.update (after i) ((refs i).slot fiber) (slotOf refs before i fiber))

theorem restored_slot (after before : Stores A) (i : ι) :
    after.restored refs before i fiber i ((refs i).slot fiber) = slotOf refs before i fiber := by
  simp [Stores.restored]

theorem restored_of_ne (after before : Stores A) {i j : ι} {slot : ℕ × ℕ}
    (h : ¬ (j = i ∧ slot = (refs i).slot fiber)) :
    after.restored refs before i fiber j slot = after j slot := by
  by_cases hj : j = i
  · subst hj
    have hslot : slot ≠ (refs j).slot fiber := fun hs => h ⟨rfl, hs⟩
    simp [Stores.restored, hslot]
  · rw [Stores.restored, put_of_ne hj]

/-- The inner effect runs with the override set, and then one slot is put back. -/
theorem runLocally_eq (i : ι) (value : A i) (inner : Stores A → Except E B × Stores A) :
    runLocally refs fiber i value inner stores
      = ((inner (stores.put i ((refs i).insert (stores i) fiber value))).1,
          (inner (stores.put i ((refs i).insert (stores i) fiber value))).2.restored
            refs stores i fiber) := by
  simp only [runLocally, FiberRef.enter_snd, FiberRef.restore_eq, Stores.restored]
  rfl

/-! ## The override is clean -/

/-- Setting the value and then running the inner effect, without `locally`. -/
def setThen (i : ι) (value : A i) (inner : Local A E B) : Local A E B :=
  .flatMap (.set i value) fun _ => inner

theorem run_setThen (i : ι) (value : A i) (inner : Local A E B) :
    run refs fiber (setThen i value inner) stores
      = run refs fiber inner (stores.put i ((refs i).insert (stores i) fiber value)) := by
  simp only [setThen, run]

theorem run_locally_eq (i : ι) (value : A i) (inner : Local A E B) :
    run refs fiber (.locally i value inner) stores
      = ((run refs fiber (setThen i value inner) stores).1,
          (run refs fiber (setThen i value inner) stores).2.restored refs stores i fiber) := by
  rw [run, runLocally_eq, run_setThen]

/-- A `get` right after the value was set. -/
theorem run_setThen_get (i : ι) (value : A i) (k : A i → Local A E B) :
    run refs fiber (setThen i value (.flatMap (.get i) k)) stores
      = run refs fiber (setThen i value (k value)) stores := by
  rw [run_setThen, run_setThen]
  simp [run, FiberRef.get, FiberRef.insert_slot]

/-- The inner effect sees the override, the current fiber's slot is as it was, the result is that of
    the inner effect, and so is every other slot of every reference. -/
theorem run_locally (refs : (i : ι) → FiberRef (A i)) (fiber : FiberId) (i : ι) (value : A i)
    (inner : Local A E B) (stores : Stores A) :
    (∀ k : A i → Local A E C,
        run refs fiber (.locally i value (.flatMap (.get i) k)) stores
          = run refs fiber (.locally i value (k value)) stores)
      ∧ (run refs fiber (.locally i value inner) stores).2 i ((refs i).slot fiber)
          = stores i ((refs i).slot fiber)
      ∧ (run refs fiber (.locally i value inner) stores).1
          = (run refs fiber (setThen i value inner) stores).1
      ∧ (∀ (j : ι) (slot : ℕ × ℕ), ¬ (j = i ∧ slot = (refs i).slot fiber) →
          (run refs fiber (.locally i value inner) stores).2 j slot
            = (run refs fiber (setThen i value inner) stores).2 j slot)
      ∧ ∀ f : Unit → A i, run refs fiber (.locallyWith i f inner) stores
          = run refs fiber (.locally i (f ()) inner) stores := by
  refine ⟨fun k => ?_, ?_, ?_, fun j slot hslot => ?_, fun f => ?_⟩
  · rw [run_locally_eq, run_locally_eq, run_setThen_get]
  · rw [run_locally_eq]
    exact restored_slot _ _ i
  · rw [run_locally_eq]
  · rw [run_locally_eq]
    exact restored_of_ne _ _ hslot
  · rw [run, run]

/-! ## Effects that leave a slot alone -/

/-- Nothing but the inner effects of a `locally` of `i` may touch the slot of the fiber. -/
inductive Shields (i : ι) (fiber : FiberId) : {B : Type} → Local A E B → Prop where
  | succeed {B : Type} (b : B) : Shields i fiber (.succeed b)
  | fail {B : Type} (e : E) : Shields i fiber (.fail (B := B) e)
  | flatMap {B C : Type} {self : Local A E B} {f : B → Local A E C} (hself : Shields i fiber self)
      (hf : ∀ b, Shields i fiber (f b)) : Shields i fiber (.flatMap self f)
  | catchAll {B : Type} {self : Local A E B} {f : E → Local A E B} (hself : Shields i fiber self)
      (hf : ∀ e, Shields i fiber (f e)) : Shields i fiber (.catchAll self f)
  | get {j : ι} (h : j ≠ i) : Shields i fiber (.get j)
  | set {j : ι} (h : j ≠ i) (value : A j) : Shields i fiber (.set j value)
  | update {j : ι} (h : j ≠ i) (f : A j → A j) : Shields i fiber (.update j f)
  | modify {B : Type} {j : ι} (h : j ≠ i) (f : A j → B × A j) : Shields i fiber (.modify j f)
  | reset {j : ι} (h : j ≠ i) : Shields i fiber (.reset j)
  | onFork {j : ι} {parent child : FiberId} (h : j = i → parent ≠ fiber ∧ child ≠ fiber) :
      Shields i fiber (.onFork j parent child)
  | onJoin {j : ι} {parent child : FiberId} (h : j = i → parent ≠ fiber ∧ child ≠ fiber) :
      Shields i fiber (.onJoin j parent child)
  | locally {B : Type} {j : ι} (value : A j) {inner : Local A E B}
      (h : j ≠ i → Shields i fiber inner) : Shields i fiber (.locally j value inner)
  | locallyWith {B : Type} {j : ι} (f : Unit → A j) {inner : Local A E B}
      (h : j ≠ i → Shields i fiber inner) : Shields i fiber (.locallyWith j f inner)

theorem slotOf_put_of_ne {i j : ι} (h : j ≠ i) (map : Store (A j)) :
    slotOf refs (stores.put j map) i fiber = slotOf refs stores i fiber := by
  rw [slotOf, put_of_ne h.symm, slotOf]

theorem slotOf_put (i : ι) (map : Store (A i)) :
    slotOf refs (stores.put i map) i fiber = map ((refs i).slot fiber) := by
  rw [slotOf, put_self]

omit [DecidableEq ι] in
theorem slotOf_onFork {i : ι} {parent child : FiberId} (h : parent ≠ fiber ∧ child ≠ fiber) :
    (refs i).onFork (stores i) parent child ((refs i).slot fiber) = slotOf refs stores i fiber := by
  rw [FiberRef.onFork, slotOf]
  cases hparent : stores i ((refs i).slot parent) with
  | some v => simp only [hparent, FiberRef.insert_slot, if_neg h.2.symm]
  | none => simp only [FiberRef.insert_slot, if_pos, if_neg h.1.symm, if_neg h.2.symm]

omit [DecidableEq ι] in
theorem slotOf_onJoin {i : ι} {parent child : FiberId} (h : parent ≠ fiber ∧ child ≠ fiber) :
    (refs i).onJoin (stores i) parent child ((refs i).slot fiber) = slotOf refs stores i fiber := by
  have hchild : fiber ≠ child := h.2.symm
  have hparent : fiber ≠ parent := h.1.symm
  rw [FiberRef.onJoin, slotOf]
  generalize stores i ((refs i).slot child) = c
  generalize (refs i).remove (stores i) child ((refs i).slot parent) = p
  cases c with
  | none => simp [FiberRef.remove_slot, hchild]
  | some c => cases p <;> simp [FiberRef.insert_slot, FiberRef.remove_slot, hchild, hparent]

theorem slotOf_restored (after before : Stores A) (i : ι) :
    slotOf refs (after.restored refs before i fiber) i fiber = slotOf refs before i fiber :=
  restored_slot after before i

theorem slotOf_restored_of_ne (after before : Stores A) {i j : ι} (h : j ≠ i) :
    slotOf refs (after.restored refs before j fiber) i fiber = slotOf refs after i fiber :=
  slotOf_put_of_ne h _

/-- The override of one reference, around an effect that leaves the slot of another one alone. -/
theorem slotOf_runLocally {i j : ι} (value : A j) {inner : Local A E B}
    (h : j ≠ i → ∀ stores : Stores A,
      slotOf refs (run refs fiber inner stores).2 i fiber = slotOf refs stores i fiber) :
    slotOf refs (runLocally refs fiber j value (run refs fiber inner) stores).2 i fiber
      = slotOf refs stores i fiber := by
  rw [runLocally_eq]
  by_cases hj : j = i
  · subst hj
    exact slotOf_restored _ _ j
  · rw [slotOf_restored_of_ne _ _ hj, h hj, slotOf_put_of_ne hj]

/-- By induction on the effect: a slot that is touched under `locally` only is as it was. -/
theorem run_shields {i : ι} {self : Local A E B} (h : Shields i fiber self) (stores : Stores A) :
    slotOf refs (run refs fiber self stores).2 i fiber = slotOf refs stores i fiber := by
  induction h generalizing stores with
  | succeed b => rw [run]
  | fail e => rw [run]
  | flatMap hself hf ihself ihf =>
      have hfirst := ihself stores
      rw [run]
      split
      · next heq =>
        rw [heq] at hfirst
        rw [ihf, hfirst]
      · next heq =>
        rw [heq] at hfirst
        exact hfirst
  | catchAll hself hf ihself ihf =>
      have hfirst := ihself stores
      rw [run]
      split
      · next heq =>
        rw [heq] at hfirst
        exact hfirst
      · next heq =>
        rw [heq] at hfirst
        rw [ihf, hfirst]
  | get hj => rw [run, slotOf_put_of_ne hj]
  | set hj value => rw [run, slotOf_put_of_ne hj]
  | update hj f => rw [run, slotOf_put_of_ne hj]
  | modify hj f => rw [run, slotOf_put_of_ne hj]
  | reset hj => rw [run, slotOf_put_of_ne hj]
  | @onFork j parent child hj =>
      rw [run]
      by_cases hji : j = i
      · subst hji
        rw [slotOf_put, slotOf_onFork (hj rfl)]
      · rw [slotOf_put_of_ne hji]
  | @onJoin j parent child hj =>
      rw [run]
      by_cases hji : j = i
      · subst hji
        rw [slotOf_put, slotOf_onJoin (hj rfl)]
      · rw [slotOf_put_of_ne hji]
  | locally value hinner ih => exact slotOf_runLocally value fun hj stores => ih hj stores
  | locallyWith f hinner ih => exact slotOf_runLocally (f ()) fun hj stores => ih hj stores

/-! ## Overrides inside overrides -/

/-- Of two overrides of one reference the inner one is all there is. -/
theorem run_locally_locally (i : ι) (value value' : A i) (inner : Local A E B) :
    run refs fiber (.locally i value (.locally i value' inner)) stores
      = run refs fiber (.locally i value' inner) stores := by
  have hentry : (stores.put i ((refs i).insert (stores i) fiber value)).put i
        ((refs i).insert (stores.put i ((refs i).insert (stores i) fiber value) i) fiber value')
      = stores.put i ((refs i).insert (stores i) fiber value') := by
    simp [FiberRef.insert]
  rw [run_locally_eq, run_setThen, run_locally_eq, run_setThen, run_locally_eq, run_setThen, hentry]
  simp [Stores.restored]

/-- Overrides of two references may be swapped. -/
theorem run_locally_comm {i j : ι} (hij : i ≠ j) (value : A i) (value' : A j)
    (inner : Local A E B) :
    run refs fiber (.locally i value (.locally j value' inner)) stores
      = run refs fiber (.locally j value' (.locally i value inner)) stores := by
  have hentry : (stores.put i ((refs i).insert (stores i) fiber value)).put j
        ((refs j).insert (stores j) fiber value')
      = (stores.put j ((refs j).insert (stores j) fiber value')).put i
        ((refs i).insert (stores i) fiber value) := put_comm hij _ _
  simp only [run_locally_eq, run_setThen, put_of_ne hij, put_of_ne hij.symm, hentry,
    Stores.restored, slotOf, put_comm hij]

end IdEffect.FiberLocal
