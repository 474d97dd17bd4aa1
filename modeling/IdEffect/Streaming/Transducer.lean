import IdEffect.Streaming.Combinators
import Mathlib.Data.List.Induction

set_option autoImplicit false

/-! # Transducers: `streaming/transducer.rs`

`transduce` makes one reducer and passes all elements to it. `transduce_items` makes a new one for
each element of the stream, and whatever a reducer remembers is gone with it. The two agree where
the reducer does with every element what a new one does (`agrees_iff`), as those of `map` and
`filter` do, composed or not.

`W` is the memory: what the closures own or share. A transducer may put the cells of its reducer
there, and its functions may read and write what they have captured. -/

namespace IdEffect.Streaming

variable {W A Acc E : Type}

abbrev Reducer (W A Acc : Type) : Type := Acc → A → W → Acc × W

structure Transducer (W A Acc : Type) where
  step : Reducer W A Acc → W → Reducer W A Acc × W

/-! ## The transducers of the module -/

namespace Transducer

def map (f : A → W → A × W) : Transducer W A Acc where
  step rf w := (fun acc item w => rf acc (f item w).1 (f item w).2, w)

def filter (pred : A → W → Bool × W) : Transducer W A Acc where
  step rf w :=
    (fun acc item w =>
      if (pred item w).1 then rf acc item (pred item w).2 else (acc, (pred item w).2), w)

/-- `inner` is the first to rewrite the reducer. -/
def compose (outer inner : Transducer W A Acc) : Transducer W A Acc where
  step rf w := outer.step (inner.step rf w).1 (inner.step rf w).2

/-! ## Running one -/

/-- The `for` of `transduce`. -/
def reduce (rf : Reducer W A Acc) (st : Acc × W) (items : List A) : Acc × W :=
  items.foldl (fun st item => rf st.1 item st.2) st

def transduce (xf : Transducer W A Acc) (items : List A) (rf : Reducer W A Acc) (init : Acc)
    (w : W) : Acc × W :=
  reduce (xf.step rf w).1 (init, (xf.step rf w).2) items

/-- The reducer that collects. -/
def push : Reducer W A (List A) := fun acc x w => (acc ++ [x], w)

/-- A reducer for this element only. -/
def single (xf : Transducer W A (List A)) (item : A) (w : W) : List A × W :=
  (xf.step push w).1 [] item (xf.step push w).2

/-- The body of the `for` of `transduce_items`. -/
def transduceItem (xf : Transducer W A (List A)) (st : List A × W) (item : A) : List A × W :=
  (st.1 ++ (xf.single item st.2).1, (xf.single item st.2).2)

end Transducer

/-- `transduce_items`, in the memory `w` when it is run. -/
def Stream.transduceItems (xf : Transducer W A (List A)) (w : W) (upstream : Stream A E) :
    Stream A E :=
  upstream.draining (fun st chunk => chunk.foldl xf.transduceItem st) ([], w) Prod.fst

namespace Transducer

/-! ## When they agree -/

section

variable (xf : Transducer W A (List A)) (w : W)

/-- Collecting what the stream makes of a list of elements is collecting what the iterator makes of
    it, whatever the chunks. -/
def Agrees (E : Type) : Prop :=
  ∀ (s : Stream A E) (l : List A), s.Yields l →
    (s.transduceItems xf w).runCollect (fun _ => false) = .ok (xf.transduce l push [] w).1

/-- What a reducer has collected, the memory it has left, and the memory that reducers made for one
    element each have left for the same elements. -/
inductive Reached : List A → W → W → Prop
  | start : Reached [] (xf.step push w).2 w
  | next {acc : List A} {used rebuilt : W} (x : A) (h : Reached acc used rebuilt) :
      Reached ((xf.step push w).1 acc x used).1 ((xf.step push w).1 acc x used).2
        (xf.single x rebuilt).2

/-- A reducer in use appends for each element what a new one makes of it. -/
def Elementwise : Prop :=
  ∀ (acc : List A) (used rebuilt : W) (x : A), xf.Reached w acc used rebuilt →
    ((xf.step push w).1 acc x used).1 = acc ++ (xf.single x rebuilt).1

/-- What is collected from the stream depends on its elements only. -/
theorem runCollect_transduceItems {s : Stream A E} {l : List A} (h : s.Yields l) :
    (s.transduceItems xf w).runCollect (fun _ => false) =
      .ok (l.foldl xf.transduceItem ([], w)).1 :=
  (Stream.Yields.folding h).collects _ fun _ => rfl

theorem agrees_iff_lists (E : Type) : xf.Agrees w E ↔ ∀ l : List A,
    (l.foldl xf.transduceItem ([], w)).1 = (xf.transduce l push [] w).1 := by
  constructor
  · intro h l
    have hl : (Stream.buffered l : Stream A E).Yields l := ⟨trivial, rfl⟩
    have hrun := h _ l hl
    rw [xf.runCollect_transduceItems w hl] at hrun
    exact Except.ok.inj hrun
  · intro h s l hs
    rw [xf.runCollect_transduceItems w hs, h l]

theorem transduce_concat (l : List A) (x : A) :
    xf.transduce (l ++ [x]) push [] w =
      (xf.step push w).1 (xf.transduce l push [] w).1 x (xf.transduce l push [] w).2 := by
  unfold transduce reduce
  rw [List.foldl_append]
  rfl

theorem foldl_transduceItem_concat (l : List A) (x : A) :
    (l ++ [x]).foldl xf.transduceItem ([], w) =
      xf.transduceItem (l.foldl xf.transduceItem ([], w)) x := by
  rw [List.foldl_append]
  rfl

theorem reached_transduce (l : List A) : xf.Reached w (xf.transduce l push [] w).1
    (xf.transduce l push [] w).2 (l.foldl xf.transduceItem ([], w)).2 := by
  induction l using List.reverseRecOn with
  | nil => exact .start
  | append_singleton l x ih =>
      rw [transduce_concat, foldl_transduceItem_concat]
      exact .next x ih

theorem Reached.exists_list {xf : Transducer W A (List A)} {w : W} {acc : List A} {used rebuilt : W}
    (h : xf.Reached w acc used rebuilt) :
    ∃ l, xf.transduce l push [] w = (acc, used) ∧
      (l.foldl xf.transduceItem ([], w)).2 = rebuilt := by
  induction h with
  | start => exact ⟨[], rfl, rfl⟩
  | next x _ ih =>
      obtain ⟨l, hused, hrebuilt⟩ := ih
      refine ⟨l ++ [x], ?_, ?_⟩
      · rw [transduce_concat, hused]
      · rw [foldl_transduceItem_concat, ← hrebuilt]
        rfl

end

/-- **The stream and the iterator.** They agree exactly if a reducer in use does with each element
    what a new one does. -/
theorem agrees_iff (xf : Transducer W A (List A)) (w : W) (E : Type) :
    xf.Agrees w E ↔ xf.Elementwise w := by
  rw [agrees_iff_lists]
  constructor
  · intro h acc used rebuilt x hreached
    obtain ⟨l, hused, hrebuilt⟩ := hreached.exists_list
    have hl := h l
    have hnext := h (l ++ [x])
    rw [hused] at hl
    rw [foldl_transduceItem_concat, transduce_concat, hused, transduceItem, hrebuilt, hl] at hnext
    exact hnext.symm
  · intro h l
    induction l using List.reverseRecOn with
    | nil => rfl
    | append_singleton l x ih =>
        rw [foldl_transduceItem_concat, transduce_concat, h _ _ _ x (xf.reached_transduce w l),
          transduceItem, ih]

/-! ## Without a memory of its own -/

/-- The transducer does no more than to put something else in the place of an element or to leave
    it out; its reducers have no cells. -/
def ItemByItem (xf : Transducer W A Acc) (g : A → W → Option A × W) : Prop :=
  ∀ rf w, xf.step rf w =
    (fun acc item w =>
      match (g item w).1 with
      | some x => rf acc x (g item w).2
      | none => (acc, (g item w).2), w)

theorem itemByItem_map (f : A → W → A × W) :
    (map f : Transducer W A Acc).ItemByItem fun item w => (some (f item w).1, (f item w).2) :=
  fun _ _ => rfl

theorem itemByItem_filter (pred : A → W → Bool × W) :
    (filter pred : Transducer W A Acc).ItemByItem fun item w =>
      (if (pred item w).1 then some item else none, (pred item w).2) := by
  intro rf w
  refine Prod.ext ?_ rfl
  funext acc item w
  simp only [filter]
  cases (pred item w).1 <;> rfl

theorem ItemByItem.compose {outer inner : Transducer W A Acc} {g h : A → W → Option A × W}
    (houter : outer.ItemByItem g) (hinner : inner.ItemByItem h) :
    (outer.compose inner).ItemByItem fun item w =>
      match (g item w).1 with
      | some x => h x (g item w).2
      | none => (none, (g item w).2) := by
  intro rf w
  have hstep : (outer.compose inner).step rf w =
      outer.step (inner.step rf w).1 (inner.step rf w).2 := rfl
  rw [hstep, hinner rf w, houter]
  refine Prod.ext ?_ rfl
  funext acc item w
  simp only
  cases (g item w).1 <;> rfl

theorem ItemByItem.reducer_eq {xf : Transducer W A (List A)} {g : A → W → Option A × W}
    (h : xf.ItemByItem g) (w : W) (acc : List A) (x : A) (w' : W) :
    (xf.step push w).1 acc x w' = xf.transduceItem (acc, w') x := by
  unfold transduceItem single
  rw [h push w, h push w']
  cases hg : (g x w').1 <;> simp [push, hg]

/-- Then a new reducer makes no difference: the two memories are the same all along. -/
theorem ItemByItem.elementwise {xf : Transducer W A (List A)} {g : A → W → Option A × W}
    (h : xf.ItemByItem g) (w : W) : xf.Elementwise w := by
  have hsame {acc : List A} {used rebuilt : W} (hreached : xf.Reached w acc used rebuilt) :
      used = rebuilt := by
    induction hreached with
    | start => rw [h push w]
    | next x _ ih => rw [h.reducer_eq, ih, transduceItem]
  intro acc used rebuilt x hreached
  rw [h.reducer_eq, hsame hreached, transduceItem]

/-- What `map`, `filter` and `compose` build. -/
inductive Plain : Transducer W A Acc → Prop
  | map (f : A → W → A × W) : Plain (map f)
  | filter (pred : A → W → Bool × W) : Plain (filter pred)
  | compose {outer inner : Transducer W A Acc} (houter : Plain outer) (hinner : Plain inner) :
      Plain (outer.compose inner)

theorem Plain.itemByItem {xf : Transducer W A Acc} (h : Plain xf) : ∃ g, xf.ItemByItem g := by
  induction h with
  | map f => exact ⟨_, itemByItem_map f⟩
  | filter pred => exact ⟨_, itemByItem_filter pred⟩
  | compose houter hinner ihouter ihinner =>
      obtain ⟨g, hg⟩ := ihouter
      obtain ⟨h, hh⟩ := ihinner
      exact ⟨_, hg.compose hh⟩

/-- The built-in transducers run on streams as they do on iterators. -/
theorem Plain.elementwise {xf : Transducer W A (List A)} (h : Plain xf) (w : W) :
    xf.Elementwise w := by
  obtain ⟨g, hg⟩ := h.itemByItem
  exact hg.elementwise w

/-- A transducer made by `Transducer::new`: its reducer has a flag, and lets one element through. -/
def takeOne : Transducer (List Bool) A Acc where
  step rf w :=
    (fun acc item w' =>
      if w'.getD w.length false then (acc, w') else rf acc item (w'.set w.length true),
      w ++ [false])

/-- On a stream every element finds the flag down. -/
theorem takeOne_not_agrees :
    ¬ ∀ (W A E : Type) (xf : Transducer W A (List A)) (w : W) (s : Stream A E) (l : List A),
      s.Yields l → (s.transduceItems xf w).runCollect (fun _ => false) =
        .ok (xf.transduce l push [] w).1 := by
  intro h
  have hyields : (Stream.buffered [1, 2] : Stream ℕ Empty).Yields [1, 2] := ⟨trivial, rfl⟩
  have hrun := h _ _ _ takeOne [] _ _ hyields
  rw [runCollect_transduceItems takeOne [] hyields] at hrun
  exact absurd (Except.ok.inj hrun) (by decide)

end Transducer

end IdEffect.Streaming
