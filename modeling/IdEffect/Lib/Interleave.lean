import Mathlib.Data.List.Basic

set_option autoImplicit false

/-! # Two lists in one

`Interleaves l r w` says that `w` has the elements of `l` and those of `r`, each once and in their
order. `alternate` is the fair way to do it. `servedTo k` is as much of a list that comes in chunks
as has been handed out when its element with the number `k` is: the chunk with that element is
there, and no later one. -/

variable {A : Type*}

inductive Interleaves : List A → List A → List A → Prop
  | nil : Interleaves [] [] []
  | left {a : A} {l r w : List A} (h : Interleaves l r w) : Interleaves (a :: l) r (a :: w)
  | right {a : A} {l r w : List A} (h : Interleaves l r w) : Interleaves l (a :: r) (a :: w)

namespace Interleaves

variable {l r w : List A}

theorem symm (h : Interleaves l r w) : Interleaves r l w := by
  induction h with
  | nil => exact .nil
  | left _ ih => exact .right ih
  | right _ ih => exact .left ih

theorem nil_left (r : List A) : Interleaves [] r r := by
  induction r with
  | nil => exact .nil
  | cons a r ih => exact .right ih

theorem length_eq (h : Interleaves l r w) : w.length = l.length + r.length := by
  induction h with
  | nil => rfl
  | left _ ih => rw [List.length_cons, List.length_cons, ih]; omega
  | right _ ih => rw [List.length_cons, List.length_cons, ih]; omega

theorem append {l' r' w' : List A} (h : Interleaves l r w) (h' : Interleaves l' r' w') :
    Interleaves (l ++ l') (r ++ r') (w ++ w') := by
  induction h with
  | nil => exact h'
  | left _ ih => exact .left ih
  | right _ ih => exact .right ih

theorem eq_of_nil_right (h : Interleaves l [] w) : w = l := by
  generalize hr : ([] : List A) = r at h
  induction h with
  | nil => rfl
  | left _ ih => rw [ih hr]
  | right _ _ => cases hr

end Interleaves

/-- An element of the first list, one of the second, and so on. When the list whose turn it is has
    ended, the rest of the other one. -/
def alternate : List A → List A → List A
  | [], r => r
  | a :: l, r => a :: alternate r l
termination_by l r => l.length + r.length

theorem interleaves_alternate (l r : List A) : Interleaves l r (alternate l r) := by
  fun_induction alternate l r with
  | case1 r => exact Interleaves.nil_left r
  | case2 r a l ih => exact .left ih.symm

/-- The chunks up to the one with the element number `k`, from 0; all if there is none. -/
def servedTo : ℕ → List (List A) → List A
  | _, [] => []
  | k, chunk :: chunks =>
      if k < chunk.length then chunk else chunk ++ servedTo (k - chunk.length) chunks

theorem servedTo_nil (k : ℕ) (chunks : List (List A)) :
    servedTo k ([] :: chunks) = servedTo k chunks := by
  simp [servedTo]

/-- An element may be taken off the first chunk. -/
theorem servedTo_cons (k : ℕ) (a : A) (chunk : List A) (chunks : List (List A)) :
    servedTo (k + 1) ((a :: chunk) :: chunks) = a :: servedTo k (chunk :: chunks) := by
  simp only [servedTo, List.length_cons, Nat.add_lt_add_iff_right, Nat.add_sub_add_right]
  split
  · rfl
  · rfl

/-- Nothing more is to come when the last chunk is there. -/
theorem servedTo_eq_flatten_iff {chunks : List (List A)} (hne : ∀ chunk ∈ chunks, chunk ≠ [])
    (k : ℕ) : servedTo k chunks = chunks.flatten ↔ chunks.dropLast.flatten.length ≤ k := by
  induction chunks generalizing k with
  | nil => simp [servedTo]
  | cons chunk chunks ih =>
      cases chunks with
      | nil => simp [servedTo]
      | cons next chunks =>
          have hrest := ih (fun c hc => hne c (List.mem_cons_of_mem chunk hc)) (k - chunk.length)
          have hlast : (chunk :: next :: chunks).dropLast.flatten.length =
              chunk.length + (next :: chunks).dropLast.flatten.length := by
            rw [List.dropLast_cons_cons, List.flatten_cons, List.length_append]
          rw [servedTo, List.flatten_cons, hlast]
          split
          · next hlt =>
              -- The second chunk is missing, and it is not empty.
              have hnext : 0 < next.length := List.length_pos_of_ne_nil (hne next (by simp))
              refine iff_of_false (fun heq => ?_) (by omega)
              have hlen := congrArg List.length heq
              rw [List.length_append, List.flatten_cons, List.length_append] at hlen
              omega
          · rw [List.append_cancel_left_eq, hrest]
            omega

/-- At most everything is served. -/
theorem servedTo_isPrefix (k : ℕ) (chunks : List (List A)) :
    servedTo k chunks <+: chunks.flatten := by
  induction chunks generalizing k with
  | nil => exact List.prefix_rfl
  | cons chunk chunks ih =>
      rw [servedTo, List.flatten_cons]
      split
      · exact List.prefix_append chunk chunks.flatten
      · exact (List.prefix_append_right_inj chunk).2 (ih _)
