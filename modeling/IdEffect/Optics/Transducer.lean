import Mathlib.Data.List.Basic
import Mathlib.Data.List.Count
import Mathlib.Order.Basic
import Mathlib.Order.Lattice

set_option autoImplicit false

/-! # Transducers of the optics crate: `transducer.rs`

A transducer rewrites reducers, and `take` counts down an atomic that it allocates when it is made,
not when it rewrites one. So a transducer is the pipeline of its stages (`Pipe.through`) as long as
its counters last: a later `transduce` finds what the earlier ones have left. It still is one where
what is left of every counter `Suffices` for the stages behind it.

`Counters` are the atomics by their addresses. What a `FnMut` reducer owns is part of `Acc`. -/

namespace IdEffect.Reducing

variable {A Acc : Type}

abbrev Counters : Type := ℕ → ℕ

abbrev Reducer (A Acc : Type) : Type := Acc → A → Counters → Acc × Counters

/-- A reducer that has nothing to do with the counters. -/
def plain (rf : Acc → A → Acc) : Reducer A Acc := fun acc item counters => (rf acc item, counters)

structure Transducer (A Acc : Type) where
  step : Reducer A Acc → Reducer A Acc

namespace Transducer

def compose (self inner : Transducer A Acc) : Transducer A Acc where
  step rf := self.step (inner.step rf)

/-- The `for` of `transduce`. -/
def transduce (xf : Transducer A Acc) (iter : List A) (rf : Reducer A Acc) (init : Acc)
    (counters : Counters) : Acc × Counters :=
  iter.foldl (fun st item => xf.step rf st.1 item st.2) (init, counters)

def map (f : A → A) : Transducer A Acc where
  step rf := fun acc item counters => rf acc (f item) counters

def filter (pred : A → Bool) : Transducer A Acc where
  step rf := fun acc item counters => if pred item then rf acc item counters else (acc, counters)

/-- The counter at `remaining` was made by the call of `take`. -/
def take (remaining : ℕ) : Transducer A Acc where
  step rf := fun acc item counters =>
    let left := counters remaining
    if left = 0 then (acc, counters)
    else rf acc item (Function.update counters remaining (left - 1))

/-- `Transducer::new(|rf| rf)` -/
def id : Transducer A Acc where
  step rf := rf

end Transducer

/-! ## How a transducer is built -/

/-- An expression of the four functions. -/
inductive Pipe (A : Type) where
  | map (f : A → A)
  | filter (pred : A → Bool)
  | take (count : ℕ)
  | compose (self inner : Pipe A)

namespace Pipe

/-- Evaluates the expression. `next` is the first free address. -/
def build : Pipe A → ℕ → Counters → Transducer A Acc × ℕ × Counters
  | .map f, next, counters => (.map f, next, counters)
  | .filter pred, next, counters => (.filter pred, next, counters)
  | .take count, next, counters => (.take next, next + 1, Function.update counters next count)
  | .compose self inner, next, counters =>
      let self := self.build next counters
      let inner := inner.build self.2.1 self.2.2
      (self.1.compose inner.1, inner.2)

/-- The list pipeline that the expression stands for. -/
def through : Pipe A → List A → List A
  | .map f, items => items.map f
  | .filter pred, items => items.filter pred
  | .take count, items => items.take count
  | .compose self inner, items => inner.through (self.through items)

end Pipe

/-! ## Stages -/

/-- A stage in its place in memory. -/
inductive Stage (A : Type) where
  | map (f : A → A)
  | filter (pred : A → Bool)
  | take (cell count : ℕ)

namespace Stage

def transducer : Stage A → Transducer A Acc
  | .map f => .map f
  | .filter pred => .filter pred
  | .take cell _ => .take cell

def cells : Stage A → List ℕ
  | .take cell _ => [cell]
  | _ => []

end Stage

/-- The addresses of the counters of a pipeline. -/
def cells (stages : List (Stage A)) : List ℕ := stages.flatMap Stage.cells

/-- The transducer of a pipeline, with the first stage as the outermost `self`. -/
def compile : List (Stage A) → Transducer A Acc
  | [] => .id
  | stage :: rest => stage.transducer.compose (compile rest)

/-- Every item that reaches a `take` in this call counts, up to its count. -/
def intended : List (Stage A) → List A → List A
  | [], items => items
  | .map f :: rest, items => intended rest (items.map f)
  | .filter pred :: rest, items => intended rest (items.filter pred)
  | .take _ count :: rest, items => intended rest (items.take count)

/-- What comes out with the counters as they are. -/
def yielded : List (Stage A) → Counters → List A → List A
  | [], _, items => items
  | .map f :: rest, counters, items => yielded rest counters (items.map f)
  | .filter pred :: rest, counters, items => yielded rest counters (items.filter pred)
  | .take cell _ :: rest, counters, items => yielded rest counters (items.take (counters cell))

/-- What it leaves of the counters. -/
def spent : List (Stage A) → Counters → List A → Counters
  | [], counters, _ => counters
  | .map f :: rest, counters, items => spent rest counters (items.map f)
  | .filter pred :: rest, counters, items => spent rest counters (items.filter pred)
  | .take cell _ :: rest, counters, items =>
      Function.update (spent rest counters (items.take (counters cell))) cell
        (counters cell - items.length)

/-- No item after the first `left` would come out of the stages. -/
def Suffices : List (Stage A) → ℕ → List A → Prop
  | [], left, items => items.length ≤ left
  | .map f :: rest, left, items => Suffices rest left (items.map f)
  | .filter pred :: rest, left, items =>
      Suffices rest ((items.take left).countP pred) (items.filter pred)
  | .take _ count :: rest, left, items => Suffices rest left (items.take count)

/-- What is left of every counter suffices for what the stages behind it would get. -/
def Fits : List (Stage A) → Counters → List A → Prop
  | [], _, _ => True
  | .map f :: rest, counters, items => Fits rest counters (items.map f)
  | .filter pred :: rest, counters, items => Fits rest counters (items.filter pred)
  | .take cell count :: rest, counters, items =>
      Suffices rest (counters cell) (items.take count)
        ∧ Fits rest counters (items.take (counters cell))

/-! ## One item -/

/-- Where an item gets to, if it gets through. -/
def push : List (Stage A) → A → Counters → Option A × Counters
  | [], item, counters => (some item, counters)
  | .map f :: rest, item, counters => push rest (f item) counters
  | .filter pred :: rest, item, counters =>
      if pred item then push rest item counters else (none, counters)
  | .take cell _ :: rest, item, counters =>
      if counters cell = 0 then (none, counters)
      else push rest item (Function.update counters cell (counters cell - 1))

/-- The reducer gets the item that was pushed. -/
def reduceSome (rf : Reducer A Acc) (acc : Acc) : Option A × Counters → Acc × Counters
  | (some item, counters) => rf acc item counters
  | (none, counters) => (acc, counters)

theorem step_compile (stages : List (Stage A)) (rf : Reducer A Acc) (acc : Acc) (item : A)
    (counters : Counters) :
    (compile stages).step rf acc item counters = reduceSome rf acc (push stages item counters) := by
  induction stages generalizing item counters with
  | nil => simp [compile, Transducer.id, push, reduceSome]
  | cons stage rest ih =>
      cases stage with
      | map f =>
          simp only [compile, Transducer.compose, Stage.transducer, Transducer.map, push]
          exact ih (f item) counters
      | filter pred =>
          simp only [compile, Transducer.compose, Stage.transducer, Transducer.filter, push]
          split
          · exact ih item counters
          · rfl
      | take cell count =>
          simp only [compile, Transducer.compose, Stage.transducer, Transducer.take, push]
          split
          · rfl
          · exact ih item _

/-- An item that is pushed does not touch the other counters and does not depend on them. -/
theorem push_update {stages : List (Stage A)} {cell : ℕ} (h : cell ∉ cells stages) (item : A)
    (counters : Counters) (v : ℕ) :
    push stages item (Function.update counters cell v)
      = ((push stages item counters).1, Function.update (push stages item counters).2 cell v) := by
  induction stages generalizing item counters with
  | nil => simp [push]
  | cons stage rest ih =>
      rw [cells, List.flatMap_cons, List.mem_append, not_or] at h
      cases stage with
      | map f => simp only [push, ih h.2]
      | filter pred =>
          simp only [push]
          split
          · exact ih h.2 item counters
          · rfl
      | take cell' count =>
          have hne : cell' ≠ cell := fun heq => h.1 (by simp [Stage.cells, heq])
          simp only [push, Function.update_of_ne hne]
          split
          · rfl
          · rw [Function.update_comm hne.symm]
            exact ih h.2 item _

/-! ## A list of items -/

/-- Pushes the items and collects what comes out. -/
def pass (stages : List (Stage A)) : List A → Counters → List A × Counters
  | [], counters => ([], counters)
  | item :: items, counters =>
      let pushed := push stages item counters
      let passed := pass stages items pushed.2
      (pushed.1.toList ++ passed.1, passed.2)

theorem transduce_compile (stages : List (Stage A)) (items : List A) (rf : Acc → A → Acc)
    (init : Acc) (counters : Counters) :
    (compile stages).transduce items (plain rf) init counters
      = ((pass stages items counters).1.foldl rf init, (pass stages items counters).2) := by
  induction items generalizing init counters with
  | nil => rfl
  | cons item items ih =>
      simp only [Transducer.transduce, List.foldl_cons, step_compile, pass] at ih ⊢
      cases hpush : push stages item counters with
      | mk out counters' =>
          cases out with
          | none => exact ih init counters'
          | some b => exact ih (rf init b) counters'

theorem pass_update {stages : List (Stage A)} {cell : ℕ} (h : cell ∉ cells stages) (items : List A)
    (counters : Counters) (v : ℕ) :
    pass stages items (Function.update counters cell v)
      = ((pass stages items counters).1,
        Function.update (pass stages items counters).2 cell v) := by
  induction items generalizing counters with
  | nil => rfl
  | cons item items ih => simp only [pass, push_update h, ih]

theorem pass_nil (items : List A) (counters : Counters) :
    pass [] items counters = (items, counters) := by
  induction items with
  | nil => rfl
  | cons item items ih => simp [pass, push, ih]

theorem pass_map (f : A → A) (rest : List (Stage A)) (items : List A) (counters : Counters) :
    pass (.map f :: rest) items counters = pass rest (items.map f) counters := by
  induction items generalizing counters with
  | nil => rfl
  | cons item items ih => simp only [pass, push, ih, List.map_cons]

theorem pass_filter (pred : A → Bool) (rest : List (Stage A)) (items : List A)
    (counters : Counters) :
    pass (.filter pred :: rest) items counters = pass rest (items.filter pred) counters := by
  induction items generalizing counters with
  | nil => rfl
  | cons item items ih =>
      by_cases hp : pred item
      · simp only [pass, push, hp, if_true, ih, List.filter_cons_of_pos]
      · simp [pass, push, hp, ih]

/-- A counter goes down by one for every item, and lets none through when it is at zero. -/
theorem pass_take {cell : ℕ} (count : ℕ) {rest : List (Stage A)} (h : cell ∉ cells rest)
    (items : List A) (counters : Counters) :
    pass (.take cell count :: rest) items counters
      = ((pass rest (items.take (counters cell)) counters).1,
          Function.update (pass rest (items.take (counters cell)) counters).2 cell
            (counters cell - items.length)) := by
  induction items generalizing counters with
  | nil => simp [pass]
  | cons item items ih =>
      by_cases hzero : counters cell = 0
      · have hrun := ih counters
        simp only [hzero, List.take_zero, Nat.zero_sub, pass] at hrun
        simp only [pass, push, hzero, if_true, hrun, List.take_zero, Nat.zero_sub]
        simp
      · obtain ⟨left, hleft⟩ := Nat.exists_eq_succ_of_ne_zero hzero
        have hsub : left + 1 - (items.length + 1) = left - items.length := by omega
        have hrun : ∀ c : Counters, pass (.take cell count :: rest) items
              (Function.update c cell left)
            = ((pass rest (items.take left) c).1,
                Function.update (pass rest (items.take left) c).2 cell (left - items.length)) := by
          intro c
          rw [ih, Function.update_self, pass_update h]
          simp
        simp only [pass, push, hleft, Nat.succ_eq_add_one, List.take_succ_cons,
          Nat.add_sub_cancel, push_update h, List.length_cons, hsub]
        simp [hrun]

/-- Stage by stage is item by item, as no two stages share a counter. -/
theorem pass_eq {stages : List (Stage A)} (h : (cells stages).Nodup) (items : List A)
    (counters : Counters) :
    pass stages items counters = (yielded stages counters items, spent stages counters items) := by
  induction stages generalizing items with
  | nil => exact pass_nil items counters
  | cons stage rest ih =>
      rw [cells, List.flatMap_cons, List.nodup_append] at h
      cases stage with
      | map f => rw [pass_map, ih h.2.1, yielded, spent]
      | filter pred => rw [pass_filter, ih h.2.1, yielded, spent]
      | take cell count =>
          have hcell : cell ∉ cells rest := fun hmem =>
            h.2.2 cell (by simp [Stage.cells]) cell hmem rfl
          rw [pass_take count hcell, ih h.2.1, yielded, spent]

/-! ## When the counters suffice -/

theorem suffices_iff (stages : List (Stage A)) (left : ℕ) (items : List A) :
    Suffices stages left items ↔ intended stages (items.take left) = intended stages items := by
  induction stages generalizing left items with
  | nil =>
      have hlength : items.length ≤ left ↔ items.take left = items :=
        ⟨List.take_of_length_le, fun heq => heq ▸ List.length_take_le left items⟩
      rw [Suffices, intended, intended, hlength]
  | cons stage rest ih =>
      cases stage with
      | map f => rw [Suffices, ih, intended, intended, List.map_take]
      | filter pred =>
          have hfilter : (items.take left).filter pred
              = (items.filter pred).take ((items.take left).countP pred) := by
            conv_rhs => rw [← List.take_append_drop left items]
            rw [List.filter_append, List.countP_eq_length_filter]
            simp
          rw [Suffices, ih, intended, intended, hfilter]
      | take cell count =>
          rw [Suffices, ih, intended, intended, List.take_take, List.take_take, min_comm]

theorem intended_isPrefix (stages : List (Stage A)) {xs ys : List A} (h : xs <+: ys) :
    intended stages xs <+: intended stages ys := by
  induction stages generalizing xs ys with
  | nil => exact h
  | cons stage rest ih =>
      cases stage with
      | map f => exact ih (h.map f)
      | filter pred => exact ih (h.filter pred)
      | take cell count =>
          refine ih (List.prefix_take_iff.mpr ⟨(List.take_prefix count xs).trans h, ?_⟩)
          exact List.length_take_le count xs

/-- No counter is above the count it began with. -/
def Bounded (stages : List (Stage A)) (counters : Counters) : Prop :=
  ∀ cell count, Stage.take cell count ∈ stages → counters cell ≤ count

theorem Bounded.tail {stage : Stage A} {rest : List (Stage A)} {counters : Counters}
    (h : Bounded (stage :: rest) counters) : Bounded rest counters :=
  fun cell count hmem => h cell count (List.mem_cons_of_mem stage hmem)

theorem Bounded.mono {stages : List (Stage A)} {counters counters' : Counters}
    (h : Bounded stages counters) (hle : counters' ≤ counters) : Bounded stages counters' :=
  fun cell count hmem => (hle cell).trans (h cell count hmem)

theorem take_eq_take_take {count left : ℕ} (h : left ≤ count) (items : List A) :
    items.take left = (items.take count).take left := by
  rw [List.take_take, min_eq_left h]

/-- Too small a counter makes the list end early. -/
theorem yielded_isPrefix {stages : List (Stage A)} {counters : Counters}
    (h : Bounded stages counters) (items : List A) :
    yielded stages counters items <+: intended stages items := by
  induction stages generalizing items with
  | nil => exact List.prefix_rfl
  | cons stage rest ih =>
      cases stage with
      | map f => exact ih h.tail _
      | filter pred => exact ih h.tail _
      | take cell count =>
          have hle : counters cell ≤ count := h cell count List.mem_cons_self
          refine (ih h.tail _).trans (intended_isPrefix rest ?_)
          rw [take_eq_take_take hle]
          exact List.take_prefix _ _

theorem fits_iff {stages : List (Stage A)} {counters : Counters} (h : Bounded stages counters)
    (items : List A) :
    Fits stages counters items ↔ yielded stages counters items = intended stages items := by
  induction stages generalizing items with
  | nil => simp [Fits, yielded, intended]
  | cons stage rest ih =>
      cases stage with
      | map f => rw [Fits, yielded, intended, ih h.tail]
      | filter pred => rw [Fits, yielded, intended, ih h.tail]
      | take cell count =>
          have hle : counters cell ≤ count := h cell count List.mem_cons_self
          have hfirst := yielded_isPrefix h.tail (items.take (counters cell))
          have hrest := intended_isPrefix rest (List.take_prefix (counters cell) (items.take count))
          rw [← take_eq_take_take hle] at hrest
          rw [Fits, yielded, intended, ih h.tail, suffices_iff, ← take_eq_take_take hle]
          constructor
          · rintro ⟨hsuffices, hyielded⟩
            rw [hyielded, hsuffices]
          · intro heq
            -- both lists lie between what comes out and what should
            have hlast : intended rest (items.take (counters cell))
                = intended rest (items.take count) :=
              hrest.eq_of_length_le (heq ▸ hfirst.length_le)
            exact ⟨hlast, heq.trans hlast.symm⟩

/-! ## Counters over many calls -/

theorem spent_le (stages : List (Stage A)) (counters : Counters) (items : List A) :
    spent stages counters items ≤ counters := by
  induction stages generalizing items with
  | nil => exact le_refl counters
  | cons stage rest ih =>
      cases stage with
      | map f => exact ih _
      | filter pred => exact ih _
      | take cell count =>
          intro cell'
          rw [spent, Function.update_apply]
          split
          · next heq =>
            rw [heq]
            exact Nat.sub_le _ _
          · exact ih _ cell'

/-- A call of `transduce` with the transducer. -/
structure Call (A Acc : Type) where
  iter : List A
  rf : Acc → A → Acc
  init : Acc

namespace Call

def run (xf : Transducer A Acc) (counters : Counters) (call : Call A Acc) : Acc × Counters :=
  xf.transduce call.iter (plain call.rf) call.init counters

/-- What the calls leave of the counters, one after the other. -/
def runAll (xf : Transducer A Acc) (counters : Counters) (calls : List (Call A Acc)) : Counters :=
  calls.foldl (fun counters call => (call.run xf counters).2) counters

end Call

/-- What is left of the counters after the lists have passed. -/
def spentAll (stages : List (Stage A)) (counters : Counters) (lists : List (List A)) : Counters :=
  lists.foldl (spent stages) counters

theorem runAll_compile {stages : List (Stage A)} (h : (cells stages).Nodup) (counters : Counters)
    (calls : List (Call A Acc)) :
    Call.runAll (compile stages) counters calls
      = spentAll stages counters (calls.map Call.iter) := by
  induction calls generalizing counters with
  | nil => rfl
  | cons call calls ih =>
      have hcall : (call.run (compile stages) counters).2 = spent stages counters call.iter := by
        rw [Call.run, transduce_compile, pass_eq h]
      rw [Call.runAll, List.foldl_cons, hcall]
      exact ih _

theorem spentAll_le (stages : List (Stage A)) (counters : Counters) (lists : List (List A)) :
    spentAll stages counters lists ≤ counters := by
  induction lists generalizing counters with
  | nil => exact le_refl counters
  | cons items lists ih => exact (ih _).trans (spent_le stages counters items)

/-! ## Expressions in their place -/

namespace Pipe

/-- How many counters the expression allocates. -/
def takes : Pipe A → ℕ
  | .map _ | .filter _ => 0
  | .take _ => 1
  | .compose self inner => self.takes + inner.takes

/-- The stages from the outermost to the innermost, with their counters from `next` on. -/
def stages : Pipe A → ℕ → List (Stage A)
  | .map f, _ => [.map f]
  | .filter pred, _ => [.filter pred]
  | .take count, next => [.take next count]
  | .compose self inner, next => self.stages next ++ inner.stages (next + self.takes)

/-- The counters as they are made. -/
def alloc : Pipe A → ℕ → Counters → Counters
  | .map _, _, counters | .filter _, _, counters => counters
  | .take count, next, counters => Function.update counters next count
  | .compose self inner, next, counters =>
      inner.alloc (next + self.takes) (self.alloc next counters)

/-- The memory of a program that has made this transducer and no other. -/
def fresh (pipe : Pipe A) : Counters := pipe.alloc 0 fun _ => 0

end Pipe

theorem compile_append (xs ys : List (Stage A)) :
    (compile (xs ++ ys) : Transducer A Acc) = (compile xs).compose (compile ys) := by
  induction xs with
  | nil => rfl
  | cons stage xs ih =>
      rw [List.cons_append, compile, ih]
      rfl

theorem build_eq (pipe : Pipe A) (next : ℕ) (counters : Counters) :
    (pipe.build next counters : Transducer A Acc × ℕ × Counters)
      = (compile (pipe.stages next), next + pipe.takes, pipe.alloc next counters) := by
  induction pipe generalizing next counters with
  | map f => rfl
  | filter pred => rfl
  | take count => rfl
  | compose self inner ihself ihinner =>
      simp only [Pipe.build, ihself, ihinner, Pipe.stages, compile_append, Pipe.takes, Pipe.alloc,
        Nat.add_assoc]

theorem cells_append (xs ys : List (Stage A)) : cells (xs ++ ys) = cells xs ++ cells ys := by
  simp [cells]

theorem cells_stages (pipe : Pipe A) (next : ℕ) :
    cells (pipe.stages next) = List.range' next pipe.takes := by
  induction pipe generalizing next with
  | map f => rfl
  | filter pred => rfl
  | take count => rfl
  | compose self inner ihself ihinner =>
      rw [Pipe.stages, cells_append, ihself, ihinner, Pipe.takes, List.range'_append_1]

theorem nodup_cells (pipe : Pipe A) (next : ℕ) : (cells (pipe.stages next)).Nodup := by
  rw [cells_stages]
  exact List.nodup_range'

theorem intended_append (xs ys : List (Stage A)) (items : List A) :
    intended (xs ++ ys) items = intended ys (intended xs items) := by
  induction xs generalizing items with
  | nil => rfl
  | cons stage xs ih =>
      cases stage with
      | map f => exact ih _
      | filter pred => exact ih _
      | take cell count => exact ih _

/-- The stages stand for the pipeline. -/
theorem intended_stages (pipe : Pipe A) (next : ℕ) (items : List A) :
    intended (pipe.stages next) items = pipe.through items := by
  induction pipe generalizing next items with
  | map f => rfl
  | filter pred => rfl
  | take count => rfl
  | compose self inner ihself ihinner =>
      rw [Pipe.stages, intended_append, ihself, ihinner, Pipe.through]

/-- Every counter has its whole count. -/
def Fresh (stages : List (Stage A)) (counters : Counters) : Prop :=
  ∀ cell count, Stage.take cell count ∈ stages → counters cell = count

theorem alloc_of_lt (pipe : Pipe A) {next cell : ℕ} (h : cell < next) (counters : Counters) :
    pipe.alloc next counters cell = counters cell := by
  induction pipe generalizing next counters with
  | map f => rfl
  | filter pred => rfl
  | take count => exact Function.update_of_ne h.ne _ _
  | compose self inner ihself ihinner =>
      rw [Pipe.alloc, ihinner (Nat.lt_add_right _ h), ihself h]

theorem mem_cells {stages : List (Stage A)} {cell count : ℕ} (h : Stage.take cell count ∈ stages) :
    cell ∈ cells stages :=
  List.mem_flatMap.mpr ⟨_, h, List.mem_singleton_self cell⟩

theorem alloc_fresh (pipe : Pipe A) (next : ℕ) (counters : Counters) :
    Fresh (pipe.stages next) (pipe.alloc next counters) := by
  induction pipe generalizing next counters with
  | map f => simp [Fresh, Pipe.stages]
  | filter pred => simp [Fresh, Pipe.stages]
  | take count => simp [Fresh, Pipe.stages, Pipe.alloc]
  | compose self inner ihself ihinner =>
      intro cell count hmem
      rcases List.mem_append.mp hmem with hself | hinner
      · have hlt : cell < next + self.takes := by
          have hcell := mem_cells hself
          rw [cells_stages, List.mem_range'_1] at hcell
          exact hcell.2
        rw [Pipe.alloc, alloc_of_lt inner hlt]
        exact ihself next counters cell count hself
      · exact ihinner _ _ cell count hinner

theorem Fresh.bounded {stages : List (Stage A)} {counters : Counters} (h : Fresh stages counters) :
    Bounded stages counters :=
  fun cell count hmem => (h cell count hmem).le

theorem Fresh.yielded {stages : List (Stage A)} {counters : Counters} (h : Fresh stages counters)
    (items : List A) : yielded stages counters items = intended stages items := by
  induction stages generalizing items with
  | nil => rfl
  | cons stage rest ih =>
      have hrest : Fresh rest counters :=
        fun cell count hmem => h cell count (List.mem_cons_of_mem stage hmem)
      cases stage with
      | map f => exact ih hrest _
      | filter pred => exact ih hrest _
      | take cell count =>
          rw [Reducing.yielded, h cell count List.mem_cons_self, ih hrest, intended]

/-! ## Transducers in use -/

namespace Pipe

/-- Makes the transducer, uses it for the earlier calls, and then for this one. -/
def reuse (pipe : Pipe A) (earlier : List (Call A Acc)) (call : Call A Acc) : Acc :=
  let made : Transducer A Acc × ℕ × Counters := pipe.build 0 fun _ => 0
  (call.run made.1 (Call.runAll made.1 made.2.2 earlier)).1

/-- What the earlier calls leave of the counters. -/
def leftBy (pipe : Pipe A) (earlier : List (List A)) : Counters :=
  spentAll (pipe.stages 0) pipe.fresh earlier

end Pipe

/-- What a call yields is the fold over what its stages let through. -/
theorem reuse_eq (pipe : Pipe A) (earlier : List (Call A Acc)) (call : Call A Acc) :
    pipe.reuse earlier call
      = (yielded (pipe.stages 0) (pipe.leftBy (earlier.map Call.iter)) call.iter).foldl
          call.rf call.init := by
  simp only [Pipe.reuse, build_eq]
  rw [runAll_compile (nodup_cells pipe 0), Call.run, transduce_compile,
    pass_eq (nodup_cells pipe 0)]
  rfl

theorem foldl_push (xs out : List A) : xs.foldl (fun out x => out ++ [x]) out = out ++ xs := by
  induction xs generalizing out with
  | nil => simp
  | cons x xs ih => simp [ih]

theorem leftBy_bounded (pipe : Pipe A) (earlier : List (List A)) :
    Bounded (pipe.stages 0) (pipe.leftBy earlier) :=
  (alloc_fresh pipe 0 _).bounded.mono (spentAll_le _ _ _)

/-- After any earlier calls: the transducer is the pipeline, for every reducer, just when what the
    earlier calls have left of the counters suffices for this call. -/
theorem transduce_iff_fits (pipe : Pipe A) (earlier : List (List A)) (items : List A) :
    (∀ (Acc : Type) (calls : List (Call A Acc)) (rf : Acc → A → Acc) (init : Acc),
        calls.map Call.iter = earlier →
        pipe.reuse calls ⟨items, rf, init⟩ = (pipe.through items).foldl rf init)
      ↔ Fits (pipe.stages 0) (pipe.leftBy earlier) items := by
  rw [fits_iff (leftBy_bounded pipe earlier), intended_stages]
  constructor
  · intro h
    let calls : List (Call A (List A)) := earlier.map fun iter => ⟨iter, fun out _ => out, []⟩
    have hcalls : calls.map Call.iter = earlier := by simp [calls, Function.comp_def]
    have heq := h (List A) calls (fun out x => out ++ [x]) [] hcalls
    rw [reuse_eq, hcalls] at heq
    simpa only [foldl_push, List.nil_append] using heq
  · intro heq Acc calls rf init hcalls
    rw [reuse_eq, hcalls, heq]

/-- The first call of a transducer always has all it needs. -/
theorem transduce_first (pipe : Pipe A) (items : List A) (rf : Acc → A → Acc) (init : Acc) :
    pipe.reuse [] ⟨items, rf, init⟩ = (pipe.through items).foldl rf init := by
  have hfresh := (alloc_fresh pipe 0 fun _ => 0).yielded items
  rw [reuse_eq, ← intended_stages pipe 0, ← hfresh]
  rfl

/-- Without a `take` there is no counter, and every call is like the first one. -/
theorem transduce_of_no_takes {pipe : Pipe A} (h : pipe.takes = 0) (earlier : List (Call A Acc))
    (items : List A) (rf : Acc → A → Acc) (init : Acc) :
    pipe.reuse earlier ⟨items, rf, init⟩ = (pipe.through items).foldl rf init := by
  have hfresh : Fresh (pipe.stages 0) (pipe.leftBy (earlier.map Call.iter)) := by
    intro cell count hmem
    have hcell := mem_cells hmem
    rw [cells_stages, h] at hcell
    cases hcell
  rw [reuse_eq, hfresh.yielded, intended_stages]

/-- `take(2)` on the same three items twice. -/
theorem take_twice :
    (Pipe.take 2).reuse [] ⟨[1, 2, 3], (· + ·), 0⟩ = 3
      ∧ (Pipe.take 2).reuse [⟨[1, 2, 3], (· + ·), 0⟩] ⟨[1, 2, 3], (· + ·), 0⟩ = 0
      ∧ ((Pipe.take 2).through [1, 2, 3]).foldl (· + ·) 0 = 3 := by
  decide

end IdEffect.Reducing
