import Mathlib.Data.List.Basic
import Mathlib.Data.List.Range

set_option autoImplicit false

/-! # A conservation ledger for FIFO buffers

Elements enter a buffer at the back and leave it at the front, either because somebody took them or
because they were evicted. The ledger remembers everything that was accepted, in order, the
positions of the evicted elements, and what was taken, in order. `Balanced` is the invariant of such
a buffer; `Balanced.kept` reads it as conservation: what was taken, followed by what is still
buffered, is what was accepted minus what was evicted. -/

namespace Ledger

variable {A : Type}

/-- The elements of `xs`, whose first one has position `i`, that were not evicted. -/
def survivors (evicted : List ℕ) : ℕ → List A → List A
  | _, [] => []
  | i, x :: xs =>
      if i ∈ evicted then survivors evicted (i + 1) xs else x :: survivors evicted (i + 1) xs

theorem survivors_append (evicted : List ℕ) (i : ℕ) (xs ys : List A) :
    survivors evicted i (xs ++ ys)
      = survivors evicted i xs ++ survivors evicted (i + xs.length) ys := by
  induction xs generalizing i with
  | nil => simp [survivors]
  | cons x xs ih =>
      have hlen : i + (x :: xs).length = i + 1 + xs.length := by simp; omega
      rw [List.cons_append, survivors, survivors, ih, hlen]
      split
      · rfl
      · rw [List.cons_append]

/-- Nothing at or behind position `i` was evicted. -/
theorem survivors_of_lt {evicted : List ℕ} {i : ℕ} (h : ∀ e ∈ evicted, e < i) (xs : List A) :
    survivors evicted i xs = xs := by
  induction xs generalizing i with
  | nil => rfl
  | cons x xs ih =>
      have hnot : i ∉ evicted := fun he => Nat.lt_irrefl i (h i he)
      rw [survivors, if_neg hnot, ih fun e he => Nat.lt_succ_of_lt (h e he)]

/-- Evicting something behind `xs` does not matter to `xs`. -/
theorem survivors_snoc {evicted : List ℕ} {i n : ℕ} (xs : List A) (h : i + xs.length ≤ n) :
    survivors (evicted ++ [n]) i xs = survivors evicted i xs := by
  induction xs generalizing i with
  | nil => rfl
  | cons x xs ih =>
      have hlen : i + 1 + xs.length ≤ n := by simp at h; omega
      have hmem : i ∈ evicted ++ [n] ↔ i ∈ evicted := by
        have hne : i ≠ n := by omega
        simp [hne]
      simp only [survivors, ih hlen, hmem]

/-- The buffer is what is left of the accepted elements once the evicted and the taken ones, which
    left it at the front, are gone. -/
def Balanced (accepted : List A) (evicted : List ℕ) (taken buf : List A) : Prop :=
  ∃ gone, accepted = gone ++ buf ∧ (∀ e ∈ evicted, e < gone.length) ∧
    survivors evicted 0 gone = taken

variable {accepted taken buf : List A} {evicted : List ℕ}

theorem balanced_nil : Balanced ([] : List A) [] [] [] := ⟨[], rfl, by simp, rfl⟩

/-- **Conservation.** -/
theorem Balanced.kept (h : Balanced accepted evicted taken buf) :
    taken ++ buf = survivors evicted 0 accepted := by
  obtain ⟨gone, rfl, hlt, rfl⟩ := h
  rw [survivors_append, Nat.zero_add, survivors_of_lt hlt]

theorem Balanced.accept (h : Balanced accepted evicted taken buf) (v : A) :
    Balanced (accepted ++ [v]) evicted taken (buf ++ [v]) := by
  obtain ⟨gone, rfl, hlt, hkept⟩ := h
  exact ⟨gone, List.append_assoc _ _ _, hlt, hkept⟩

theorem Balanced.take {v : A} (h : Balanced accepted evicted taken (v :: buf)) :
    Balanced accepted evicted (taken ++ [v]) buf := by
  obtain ⟨gone, rfl, hlt, hkept⟩ := h
  refine ⟨gone ++ [v], by simp, ?_, ?_⟩
  · intro e he
    have := hlt e he
    simp only [List.length_append, List.length_singleton]
    omega
  · rw [survivors_append, hkept, Nat.zero_add, survivors_of_lt hlt]

theorem Balanced.evict_front {v : A} (h : Balanced accepted evicted taken (v :: buf)) :
    Balanced accepted (evicted ++ [accepted.length - (v :: buf).length]) taken buf := by
  obtain ⟨gone, rfl, hlt, hkept⟩ := h
  have hpos : (gone ++ v :: buf).length - (v :: buf).length = gone.length := by simp
  rw [hpos]
  refine ⟨gone ++ [v], by simp, ?_, ?_⟩
  · intro e he
    rw [List.length_append, List.length_singleton]
    rcases List.mem_append.1 he with he | he
    · have := hlt e he
      omega
    · rw [List.mem_singleton.1 he]
      omega
  · rw [survivors_append, survivors_snoc gone (by omega), hkept, Nat.zero_add]
    simp [survivors]

/-- Evicting the `k` oldest buffered elements: their positions are those of the front of the
    buffer. -/
theorem Balanced.evict (k : ℕ) (h : Balanced accepted evicted taken buf) (hk : k ≤ buf.length) :
    Balanced accepted (evicted ++ List.range' (accepted.length - buf.length) k) taken
      (buf.drop k) := by
  induction k generalizing evicted buf with
  | zero => simpa using h
  | succ k ih =>
      cases buf with
      | nil => simp at hk
      | cons v buf =>
          have hle : (v :: buf).length ≤ accepted.length := by
            obtain ⟨gone, rfl, -, -⟩ := h
            simp
          have hrest := ih h.evict_front (by simpa using hk)
          have hnext : accepted.length - buf.length = accepted.length - (v :: buf).length + 1 := by
            simp only [List.length_cons] at hle ⊢
            omega
          rw [hnext, List.append_assoc, List.singleton_append, ← List.range'_succ] at hrest
          exact hrest

end Ledger
