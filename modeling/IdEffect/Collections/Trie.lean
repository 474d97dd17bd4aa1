import IdEffect.Lib.Assoc
import IdEffect.Compute.Dispatch
import Mathlib.Data.Char
import Mathlib.Data.String.Basic

set_option autoImplicit false

/-! # The trie

A `Trie` is a tree of nodes, each with an optional value and its children in an ordered map by
character; the key of a node is the path to it. Removing a key only takes the value out of its
node, so branches without any value stay behind. A `&mut Node` that a walk hands out is written as a
function that works on the node at the end of the walk. -/

namespace IdEffect.Collections

open Compute

variable {V R : Type}

/-! ## Nodes and trees -/

inductive Node (V : Type) where
  | mk (value : Option V) (children : List (Char × Node V))

namespace Node

def value : Node V → Option V
  | ⟨value, _⟩ => value

def children : Node V → List (Char × Node V)
  | ⟨_, children⟩ => children

@[simp] theorem children_mk (value : Option V) (children : List (Char × Node V)) :
    (mk value children).children = children := rfl

def default : Node V := ⟨none, []⟩

/-- Induction along the children. -/
theorem induct {motive : Node V → Prop}
    (mk : ∀ value children, (∀ p ∈ children, motive p.2) → motive ⟨value, children⟩) :
    ∀ node, motive node := by
  refine @Node.rec V motive (fun l => ∀ p ∈ l, motive p.2) (fun p => motive p.2) mk ?_ ?_ ?_
  · exact fun p hp => absurd hp (by simp)
  · intro p l hp hl q hq
    rcases List.mem_cons.mp hq with rfl | hq
    · exact hp
    · exact hl q hq
  · exact fun _ _ h => h

/-- The children of every node are in ascending order of their characters. -/
inductive Ordered : Node V → Prop
  | mk {value : Option V} {children : List (Char × Node V)} (ascending : Assoc.Ascending children)
      (each : ∀ p ∈ children, Ordered p.2) : Ordered ⟨value, children⟩

end Node

/-- Go down the path `key`, adding the nodes that are missing (`navigate_mut`), and let `f` work on
    the node at its end. -/
def navigateMut (f : Node V → R × Node V) : List Char → Node V → R × Node V
  | [], node => f node
  | ch :: key, ⟨value, children⟩ =>
      let (r, child) := navigateMut f key ((Assoc.get ch children).getD Node.default)
      (r, ⟨value, Assoc.insert ch child children⟩)

/-- The node at the end of the path `key`. -/
def navigateRef : List Char → Node V → Option (Node V)
  | [], node => some node
  | ch :: key, node => (Assoc.get ch node.children).bind (navigateRef key)

/-- Go down the path `key` if it is there, and let `f` work on the node at its end. -/
def navigateMutOptional (f : Node V → R × Node V) : List Char → Node V → Option (R × Node V)
  | [], node => some (f node)
  | ch :: key, ⟨value, children⟩ => do
      let child ← Assoc.get ch children
      let (r, child) ← navigateMutOptional f key child
      return (r, ⟨value, Assoc.insert ch child children⟩)

/-- `Option::replace` on the value of a node. -/
def Node.replace (v : V) : Node V → Option V × Node V
  | ⟨value, children⟩ => (value, ⟨some v, children⟩)

/-- `Option::take` on the value of a node. -/
def Node.take : Node V → Option V × Node V
  | ⟨value, children⟩ => (value, ⟨none, children⟩)

mutual

def countNodes : Node V → ℕ
  | ⟨value, children⟩ => (if value.isSome then 1 else 0) + countChildren children

def countChildren : List (Char × Node V) → ℕ
  | [] => 0
  | (_, child) :: rest => countNodes child + countChildren rest

end

mutual

/-- The same count over parallel iterators, one `bridge` for each node. -/
def countNodesPar (bridge : Node V → Arrival) : Node V → ℕ
  | ⟨value, children⟩ =>
      (if value.isSome then 1 else 0)
        + (bridge ⟨value, children⟩).sum (countChildrenPar bridge children)

def countChildrenPar (bridge : Node V → Arrival) : List (Char × Node V) → List ℕ
  | [] => []
  | (_, child) :: rest => countNodesPar bridge child :: countChildrenPar bridge rest

end

mutual

def collectKeys : Node V → String → List String → List String
  | ⟨value, children⟩, pre, out =>
      collectChildKeys children pre (if value.isSome then out ++ [pre] else out)

def collectChildKeys : List (Char × Node V) → String → List String → List String
  | [], _, out => out
  | (ch, child) :: rest, pre, out =>
      collectChildKeys rest pre (collectKeys child (pre.push ch) out)

end

mutual

def collectEntries : Node V → String → List (String × V) → List (String × V)
  | ⟨value, children⟩, pre, out =>
      collectChildEntries children pre
        (match value with
        | some v => out ++ [(pre, v)]
        | none => out)

def collectChildEntries :
    List (Char × Node V) → String → List (String × V) → List (String × V)
  | [], _, out => out
  | (ch, child) :: rest, pre, out =>
      collectChildEntries rest pre (collectEntries child (pre.push ch) out)

end

/-- The walk of `longest_prefix_of`: `idx` is the byte offset of the next character, and the last
    offset at which a value was seen is kept. -/
def longestEnd : Node V → Option ℕ → ℕ → List Char → Option ℕ
  | _, last, _, [] => last
  | cur, last, idx, c :: cs =>
      match Assoc.get c cur.children with
      | none => last
      | some next =>
          let after := idx + c.utf8Size
          longestEnd next (if next.value.isSome then some after else last) after cs

/-- The first `n` bytes of a string, if they end at a character boundary (`&key[..n]`, which panics
    otherwise). -/
def sliceTo : List Char → ℕ → Option (List Char)
  | _, 0 => some []
  | [], _ + 1 => none
  | c :: cs, n + 1 =>
      if c.utf8Size ≤ n + 1 then (sliceTo cs (n + 1 - c.utf8Size)).map (c :: ·) else none

/-! ## The order of the children is kept -/

namespace Node

theorem ordered_default : (default : Node V).Ordered :=
  .mk .nil fun p hp => absurd hp (by simp)

theorem Ordered.ascending {node : Node V} (h : node.Ordered) : Assoc.Ascending node.children := by
  obtain ⟨hasc, _⟩ := h
  exact hasc

theorem Ordered.child {node : Node V} (h : node.Ordered) {p : Char × Node V}
    (hp : p ∈ node.children) : p.2.Ordered := by
  obtain ⟨_, heach⟩ := h
  exact heach p hp

theorem Ordered.insert {value : Option V} {children : List (Char × Node V)}
    (h : (Node.mk value children).Ordered) (ch : Char) {child : Node V} (hc : child.Ordered) :
    (Node.mk value (Assoc.insert ch child children)).Ordered := by
  refine .mk (h.ascending.insert ch child) fun p hp => ?_
  rcases Assoc.mem_insert hp with rfl | hp
  · exact hc
  · exact h.child hp

theorem Ordered.replace {node : Node V} (h : node.Ordered) (v : V) :
    (node.replace v).2.Ordered := by
  obtain ⟨hasc, heach⟩ := h
  exact .mk hasc heach

theorem Ordered.take {node : Node V} (h : node.Ordered) : node.take.2.Ordered := by
  obtain ⟨hasc, heach⟩ := h
  exact .mk hasc heach

theorem Ordered.of_get {node : Node V} (h : node.Ordered) {ch : Char} {child : Node V}
    (hc : Assoc.get ch node.children = some child) : child.Ordered :=
  h.child (Assoc.mem_of_get hc)

theorem Ordered.navigateMut {f : Node V → R × Node V} (hf : ∀ n, n.Ordered → (f n).2.Ordered)
    (key : List Char) {node : Node V} (h : node.Ordered) : (navigateMut f key node).2.Ordered := by
  induction key generalizing node with
  | nil => exact hf node h
  | cons ch key ih =>
      obtain ⟨value, children⟩ := node
      refine h.insert ch (ih ?_)
      cases hch : Assoc.get ch children with
      | none => exact ordered_default
      | some child => exact h.of_get hch

theorem Ordered.navigateMutOptional {f : Node V → R × Node V}
    (hf : ∀ n, n.Ordered → (f n).2.Ordered) (key : List Char) {node : Node V} (h : node.Ordered)
    {res : R × Node V} (hres : navigateMutOptional f key node = some res) : res.2.Ordered := by
  induction key generalizing node res with
  | nil =>
      obtain rfl := Option.some.inj hres
      exact hf node h
  | cons ch key ih =>
      obtain ⟨value, children⟩ := node
      rw [Collections.navigateMutOptional] at hres
      simp only [Option.bind_eq_bind, Option.bind_eq_some_iff] at hres
      obtain ⟨child, hch, ⟨r, child'⟩, hnav, heq⟩ := hres
      obtain rfl := Option.some.inj heq
      exact h.insert ch (ih (h.of_get hch) hnav)

end Node

/-! ## The trie -/

structure Trie (V : Type) where
  root : Node V
  ordered : root.Ordered

namespace Trie

def empty : Trie V := ⟨Node.default, Node.ordered_default⟩

/-- Set `key` to `value`; the previous value at `key` is returned. -/
def insert (t : Trie V) (key : String) (value : V) : Option V × Trie V :=
  let res := navigateMut (Node.replace value) key.toList t.root
  (res.1, ⟨res.2, t.ordered.navigateMut (fun _ h => h.replace value) key.toList⟩)

/-- Remove `key`; its value is returned. -/
def remove (t : Trie V) (key : String) : Option V × Trie V :=
  match h : navigateMutOptional Node.take key.toList t.root with
  | none => (none, t)
  | some res => (res.1, ⟨res.2, t.ordered.navigateMutOptional (fun _ h => h.take) key.toList h⟩)

def get (t : Trie V) (key : String) : Option V :=
  (navigateRef key.toList t.root).bind Node.value

def has (t : Trie V) (key : String) : Bool :=
  (t.get key).isSome

/-- The longest stored key that is a prefix of `key`. The outer `none` is the panic of a slice that
    does not end at a character boundary. -/
def longestPrefixOf (t : Trie V) (key : String) : Option (Option String) :=
  match longestEnd t.root (if t.root.value.isSome then some 0 else none) 0 key.toList with
  | none => some none
  | some e => (sliceTo key.toList e).map fun s => some (String.ofList s)

/-- The number of keys. The count is made again in parallel where that is profitable. -/
def size (profitable : ℕ → Bool) (bridge : Node V → Arrival) (t : Trie V) : ℕ :=
  let serial := countNodes t.root
  parallelIfProfitable profitable serial serial (countNodesPar bridge t.root)

def keysWithPrefix (t : Trie V) (pre : String) : List String :=
  match navigateRef pre.toList t.root with
  | none => []
  | some start => collectKeys start pre []

def entriesWithPrefix (t : Trie V) (pre : String) : List (String × V) :=
  match navigateRef pre.toList t.root with
  | none => []
  | some start => collectEntries start pre []

end Trie

end IdEffect.Collections
