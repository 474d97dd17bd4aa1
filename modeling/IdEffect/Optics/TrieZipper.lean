import Mathlib.Logic.Function.Basic
import IdEffect.Lib.Navigate
import IdEffect.Lib.Transition

set_option autoImplicit false

/-! # The zipper over a trie

A `TrieZipper` is a place in a persistent trie: the node in focus, and for every step down to it the
key and a copy of the node that was left. The trie it stands for is the focus put back under these
breadcrumbs (`rebuild`), so an edit of the focus is an edit of that trie at the path of the focus
(`modify_rebuild`). A step up takes the copy for the focus and drops what was in focus. That leaves
the trie as it was exactly when the copy holds the focus under its key already
(`rebuild_ascend_iff`), and a run loses nothing exactly as long as all its steps up are of that
kind. -/

namespace IdEffect.Optics

open Transition

variable {V : Type}

/-! ## Nodes -/

/-- A node. The `HashMap` of its children is what each character is mapped to. -/
structure TrieNode (V : Type) where
  value : Option V
  children : Char → Option (TrieNode V)

namespace TrieNode

def new : TrieNode V := ⟨none, fun _ => none⟩

def leaf (value : V) : TrieNode V := ⟨some value, fun _ => none⟩

def child (node : TrieNode V) (key : Char) : Option (TrieNode V) := node.children key

def withChild (node : TrieNode V) (key : Char) (child : TrieNode V) : TrieNode V :=
  { node with children := Function.update node.children key (some child) }

def withoutChild (node : TrieNode V) (key : Char) : Option (TrieNode V) := do
  let _ ← node.children key
  return { node with children := Function.update node.children key none }

@[simp] theorem child_withChild (node : TrieNode V) (key : Char) (child : TrieNode V) :
    (node.withChild key child).child key = some child := Function.update_self ..

/-- Only the child set last counts. -/
theorem withChild_withChild (node : TrieNode V) (key : Char) (child child' : TrieNode V) :
    (node.withChild key child).withChild key child' = node.withChild key child' := by
  simp [withChild]

theorem withChild_eq_self_iff {node : TrieNode V} {key : Char} {child : TrieNode V} :
    node.withChild key child = node ↔ node.child key = some child := by
  constructor
  · intro h
    rw [← h, child_withChild]
  · intro h
    cases node with
    | mk value children =>
        have hsame : Function.update children key (some child) = children := by
          rw [← show children key = some child from h, Function.update_eq_self]
        rw [withChild, hsame]

/-- `with_child`, which never fails, as the `put` of a walk. -/
def put (node : TrieNode V) (key : Char) (child : TrieNode V) : Option (TrieNode V) :=
  some (node.withChild key child)

end TrieNode

/-! ## The zipper -/

structure TrieZipper (V : Type) where
  focus : TrieNode V
  path : List (Char × TrieNode V)

namespace TrieZipper

def new (root : TrieNode V) : TrieZipper V := ⟨root, []⟩

def descend (z : TrieZipper V) (key : Char) : Option (TrieZipper V) := do
  let child ← z.focus.child key
  return ⟨child, z.path ++ [(key, z.focus)]⟩

def ascend (z : TrieZipper V) : Option (TrieZipper V) := do
  let (_, parent) ← z.path.getLast?
  return ⟨parent, z.path.dropLast⟩

/-- The fold goes from the last breadcrumb to the first. -/
def rebuild (z : TrieZipper V) : TrieNode V :=
  z.path.foldr (fun (key, parent) child => parent.withChild key child) z.focus

def setValue (z : TrieZipper V) (value : V) : TrieZipper V :=
  { z with focus := { z.focus with value := some value } }

def insertChild (z : TrieZipper V) (key : Char) (child : TrieNode V) : TrieZipper V :=
  { z with focus := z.focus.withChild key child }

def removeChild (z : TrieZipper V) (key : Char) : Option (TrieZipper V) := do
  return { z with focus := ← z.focus.withoutChild key }

/-- The keys that lead from the root to the focus. -/
def keys (z : TrieZipper V) : List Char := z.path.map Prod.fst

/-! ### The represented trie -/

theorem locate_rebuild (z : TrieZipper V) :
    Navigate.locate TrieNode.child z.rebuild z.keys = some z.focus := by
  obtain ⟨focus, path⟩ := z
  induction path with
  | nil => rfl
  | cons crumb path ih =>
      obtain ⟨key, parent⟩ := crumb
      rw [keys, List.map_cons, Navigate.locate, rebuild, List.foldr_cons, TrieNode.child_withChild,
        Option.bind_some]
      exact ih

/-- Under the same breadcrumbs, different nodes make different tries. -/
theorem rebuild_inj {focus focus' : TrieNode V} {path : List (Char × TrieNode V)} :
    rebuild ⟨focus, path⟩ = rebuild ⟨focus', path⟩ ↔ focus = focus' := by
  refine ⟨fun h => ?_, fun h => by rw [h]⟩
  have hfocus := locate_rebuild ⟨focus, path⟩
  rw [h] at hfocus
  exact Option.some.inj (hfocus.symm.trans (locate_rebuild ⟨focus', path⟩))

/-- What changes the focus changes the rebuilt trie at the path of the focus. -/
theorem modify_rebuild {f : TrieNode V → Option (TrieNode V)} {focus focus' : TrieNode V}
    (path : List (Char × TrieNode V)) (h : f focus = some focus') :
    Navigate.modify TrieNode.child TrieNode.put f (rebuild ⟨focus, path⟩) (keys ⟨focus, path⟩) =
      some (rebuild ⟨focus', path⟩) := by
  induction path with
  | nil => exact h
  | cons crumb path ih =>
      obtain ⟨key, parent⟩ := crumb
      rw [keys, List.map_cons, Navigate.modify, rebuild, List.foldr_cons, TrieNode.child_withChild,
        Option.bind_some]
      have hchild := ih
      rw [rebuild, keys] at hchild
      rw [hchild, Option.bind_some, TrieNode.put, TrieNode.withChild_withChild]
      rfl

theorem rebuild_snoc (focus parent : TrieNode V) (path : List (Char × TrieNode V)) (key : Char) :
    rebuild ⟨focus, path ++ [(key, parent)]⟩ = rebuild ⟨parent.withChild key focus, path⟩ := by
  rw [rebuild, List.foldr_append]
  rfl

/-- A step down keeps the trie. -/
theorem rebuild_descend {z z' : TrieZipper V} {key : Char} (h : z.descend key = some z') :
    z'.rebuild = z.rebuild ∧ z'.keys = z.keys ++ [key] := by
  obtain ⟨child, hchild, h⟩ := Option.bind_eq_some_iff.mp h
  obtain rfl := Option.some.inj h
  constructor
  · rw [rebuild_snoc, TrieNode.withChild_eq_self_iff.mpr hchild]
  · rw [keys, List.map_append]
    rfl

/-- **A step up keeps the trie** exactly when the copy of the parent holds the focus already. -/
theorem rebuild_ascend_iff {z z' : TrieZipper V} (h : z.ascend = some z') :
    (z'.rebuild = z.rebuild ↔ ∀ crumb ∈ z.path.getLast?, crumb.2.child crumb.1 = some z.focus) ∧
      z'.keys = z.keys.dropLast := by
  obtain ⟨focus, path⟩ := z
  obtain ⟨⟨key, parent⟩, hlast, h⟩ := Option.bind_eq_some_iff.mp h
  obtain rfl := Option.some.inj h
  constructor
  · obtain ⟨init, rfl⟩ := List.getLast?_eq_some_iff.mp hlast
    rw [rebuild_snoc, List.dropLast_concat, rebuild_inj, eq_comm, TrieNode.withChild_eq_self_iff]
    simp
  · rw [keys, keys, List.map_dropLast]

/-! ## Runs -/

inductive Edit (V : Type) where
  | setValue (value : V)
  | insertChild (key : Char) (child : TrieNode V)
  | removeChild (key : Char)

/-- What an edit makes of the node it is applied to. -/
def Edit.apply : Edit V → TrieNode V → Option (TrieNode V)
  | .setValue value, node => some { node with value := some value }
  | .insertChild key child, node => some (node.withChild key child)
  | .removeChild key, node => node.withoutChild key

inductive Label (V : Type) where
  | descend (key : Char)
  | ascend
  | edit (edit : Edit V)

def step (z : TrieZipper V) : Label V → Option (TrieZipper V)
  | .descend key => z.descend key
  | .ascend => z.ascend
  | .edit (.setValue value) => some (z.setValue value)
  | .edit (.insertChild key child) => some (z.insertChild key child)
  | .edit (.removeChild key) => z.removeChild key

theorem step_edit (z : TrieZipper V) (edit : Edit V) :
    z.step (.edit edit) = (edit.apply z.focus).map fun focus => { z with focus } := by
  cases edit with
  | setValue value => rfl
  | insertChild key child => rfl
  | removeChild key =>
      rw [step, removeChild, Edit.apply]
      cases z.focus.withoutChild key <;> rfl

/-- The trie after a run that starts at the path `here`, each edit applied where it was made. -/
def edited (trie : TrieNode V) (here : List Char) : List (Label V) → Option (TrieNode V)
  | [] => some trie
  | .descend key :: ls => edited trie (here ++ [key]) ls
  | .ascend :: ls => edited trie here.dropLast ls
  | .edit edit :: ls => do
      let trie ← Navigate.modify TrieNode.child TrieNode.put edit.apply trie here
      edited trie here ls

/-- A step down or up leaves the represented trie as it is. -/
def MoveKeeps (z : TrieZipper V) : Label V → Prop
  | .edit _ => True
  | l => ∀ z', z.step l = some z' → z'.rebuild = z.rebuild

/-- A step up comes to a copy of the parent that holds the focus: what was edited below since the
    copy was taken has left the focus as it was. -/
def Untouched (z : TrieZipper V) : Label V → Prop
  | .ascend => ∀ crumb ∈ z.path.getLast?, crumb.2.child crumb.1 = some z.focus
  | _ => True

theorem moveKeeps_iff_untouched (z : TrieZipper V) (l : Label V) :
    MoveKeeps z l ↔ Untouched z l := by
  cases l with
  | edit edit => exact Iff.rfl
  | descend key => exact iff_of_true (fun z' h => (rebuild_descend h).1) trivial
  | ascend =>
      constructor
      · intro h crumb hcrumb
        have hup : z.ascend = some ⟨crumb.2, z.path.dropLast⟩ := by
          rw [ascend, Option.mem_def.mp hcrumb]
          rfl
        exact (rebuild_ascend_iff hup).1.mp (h _ hup) crumb hcrumb
      · exact fun h z' hup => (rebuild_ascend_iff hup).1.mpr h

/-- Every edit is an edit of the represented trie, so a run whose moves keep that trie makes of it
    what its edits make of it. -/
theorem edited_of_untouched {ls : List (Label V)} {z z' : TrieZipper V}
    (h : Along step Untouched z ls) (hrun : run step z ls = some z') :
    edited z.rebuild z.keys ls = some z'.rebuild := by
  induction ls generalizing z with
  | nil =>
      obtain rfl := Option.some.inj hrun
      rfl
  | cons l ls ih =>
      obtain ⟨m, hstep, hrest⟩ := run_cons_eq_some.mp hrun
      obtain ⟨hl, hls⟩ := (along_cons_iff hstep).mp h
      cases l with
      | descend key =>
          obtain ⟨hsame, hkeys⟩ := rebuild_descend hstep
          rw [edited, ← hsame, ← hkeys]
          exact ih hls hrest
      | ascend =>
          obtain ⟨hsame, hkeys⟩ := rebuild_ascend_iff hstep
          rw [edited, ← hsame.mpr hl, ← hkeys]
          exact ih hls hrest
      | edit edit =>
          rw [step_edit, Option.map_eq_some_iff] at hstep
          obtain ⟨focus, hfocus, rfl⟩ := hstep
          have hmod := modify_rebuild z.path hfocus
          rw [edited]
          exact Option.bind_eq_some_iff.mpr ⟨_, hmod, ih hls hrest⟩

/-- **When moving loses nothing.** In a run from the root every step down and up keeps the
    represented trie, and it ends as the original trie with the edits applied where they were made,
    if and only if every step up leaves a focus that the copy above it holds. -/
theorem rebuild_edited_iff (root : TrieNode V) (ls : List (Label V)) {z : TrieZipper V}
    (hrun : run step (new root) ls = some z) :
    Along step MoveKeeps (new root) ls ∧ edited root [] ls = some z.rebuild ↔
      Along step Untouched (new root) ls := by
  constructor
  · exact fun h => h.1.imp fun z l => (moveKeeps_iff_untouched z l).mp
  · intro h
    refine ⟨h.imp fun z l => (moveKeeps_iff_untouched z l).mpr, ?_⟩
    exact edited_of_untouched h hrun

/-- A walk to a leaf and back, then two edits of the root. -/
theorem rebuild_edited_root :
    let root : TrieNode ℕ := TrieNode.new.withChild 'a' (.leaf 1)
    let ls : List (Label ℕ) := [.descend 'a', .edit (.setValue 1), .ascend,
      .edit (.insertChild 'b' (.leaf 2)), .edit (.removeChild 'a')]
    ∃ z, run step (new root) ls = some z ∧ Along step MoveKeeps (new root) ls ∧
      edited root [] ls = some z.rebuild ∧ (z.rebuild.child 'b').bind TrieNode.value = some 2 := by
  intro root ls
  refine ⟨_, rfl, ?_⟩
  have huntouched : Along step Untouched (new root) ls := by
    refine along_cons rfl trivial (along_cons rfl trivial (along_cons rfl ?_
      (along_cons rfl trivial (along_cons rfl trivial trivial))))
    intro crumb hcrumb
    obtain rfl := Option.some.inj hcrumb
    rfl
  obtain ⟨hmoves, hedited⟩ := (rebuild_edited_iff root ls rfl).mpr huntouched
  exact ⟨hmoves, hedited, rfl⟩

/-- A value that is set at a leaf is gone after the step up. -/
theorem rebuild_edited_lost :
    ¬ ∀ (root : TrieNode ℕ) (ls : List (Label ℕ)) (z : TrieZipper ℕ),
      run step (new root) ls = some z →
        Along step MoveKeeps (new root) ls ∧ edited root [] ls = some z.rebuild := by
  intro h
  have hend := (h (TrieNode.new.withChild 'a' (.leaf 1))
    [.descend 'a', .edit (.setValue 2), .ascend] _ rfl).2
  have hvalue := congrArg (·.bind fun trie => (trie.child 'a').bind TrieNode.value) hend
  exact absurd hvalue (by decide)

end TrieZipper

end IdEffect.Optics
