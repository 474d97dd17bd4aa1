import Mathlib.Data.List.Basic
import Mathlib.Data.List.Nodup
import Mathlib.Logic.Function.Basic

set_option autoImplicit false

/-! # Keys in the order of their last use

`Recency l usedAt clock` says that `l` lists keys from the least to the most recently used one:
`usedAt k` is the time a key was last used, all of them before `clock`. To use a key is to move it
to the back and to stamp it with the time (`Recency.touch`); a key may be taken out anywhere
(`Recency.remove`), and the front is the least recently used key (`Recency.head_lt`). -/

variable {K : Type*} {l rest : List K} {usedAt : K → ℕ} {clock : ℕ} {key victim : K}

structure Recency (l : List K) (usedAt : K → ℕ) (clock : ℕ) : Prop where
  sorted : l.Pairwise fun a b => usedAt a < usedAt b
  stamped : ∀ k ∈ l, usedAt k < clock

namespace Recency

theorem nil (usedAt : K → ℕ) (clock : ℕ) : Recency [] usedAt clock :=
  ⟨.nil, by simp⟩

theorem nodup (h : Recency l usedAt clock) : l.Nodup := by
  refine h.sorted.imp ?_
  rintro a b hlt rfl
  exact Nat.lt_irrefl _ hlt

theorem sublist {l' : List K} (h : Recency l usedAt clock) (hsub : l'.Sublist l) :
    Recency l' usedAt clock :=
  ⟨h.sorted.sublist hsub, fun k hk => h.stamped k (hsub.subset hk)⟩

/-- Time passes. -/
theorem tick (h : Recency l usedAt clock) : Recency l usedAt (clock + 1) :=
  ⟨h.sorted, fun k hk => Nat.lt_succ_of_lt (h.stamped k hk)⟩

theorem head_lt (h : Recency (victim :: rest) usedAt clock) {k : K} (hk : k ∈ rest) :
    usedAt victim < usedAt k :=
  (List.pairwise_cons.1 h.sorted).1 k hk

variable [DecidableEq K]

theorem remove (h : Recency l usedAt clock) :
    Recency (l.filter fun k => decide (k ≠ key)) usedAt clock :=
  h.sublist List.filter_sublist

/-- **Using a key.** It moves to the back, stamped with the time of the use. -/
theorem touch (h : Recency l usedAt clock) :
    Recency ((l.filter fun k => decide (k ≠ key)) ++ [key]) (Function.update usedAt key clock)
      (clock + 1) := by
  have hold : ∀ k ∈ l.filter (fun k => decide (k ≠ key)),
      Function.update usedAt key clock k = usedAt k := by
    intro k hk
    refine Function.update_of_ne ?_ _ _
    simpa using (List.mem_filter.1 hk).2
  refine ⟨List.pairwise_append.2 ⟨?_, List.pairwise_singleton _ _, ?_⟩, ?_⟩
  · refine h.remove.sorted.imp_of_mem ?_
    intro a b ha hb hlt
    rwa [hold a ha, hold b hb]
  · intro a ha b hb
    obtain rfl := List.mem_singleton.1 hb
    rw [hold a ha, Function.update_self]
    exact h.remove.stamped a ha
  · intro k hk
    rcases List.mem_append.1 hk with hk | hk
    · rw [hold k hk]
      exact Nat.lt_succ_of_lt (h.remove.stamped k hk)
    · obtain rfl := List.mem_singleton.1 hk
      rw [Function.update_self]
      exact Nat.lt_succ_self _

end Recency
