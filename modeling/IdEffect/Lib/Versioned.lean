import Mathlib.Data.UInt
import Mathlib.Data.List.Chain
import Mathlib.Data.List.Pairwise

set_option autoImplicit false

/-! # Versioned cells

Optimistic concurrency keeps, beside every value, a version number that each write bumps. A reader
remembers the version it saw and later asks whether it is still the current one. This module proves
the one fact such a validation rests on: in a history of stores whose versions never go backwards,
a cell that once occurred and whose version is current *is* the current cell
(`Cell.eq_of_ver_eq`). Cells of one store may have different types: `Val id` is the type of the
values in cell `id`. -/

namespace Versioned

/-- A value together with the version of the write that produced it. -/
structure Cell (α : Type) where
  value : α
  ver : UInt64
deriving DecidableEq

/-- A store: one cell per identity. -/
abbrev Store (Val : ℕ → Type) := (id : ℕ) → Cell (Val id)

variable {α : Type} {Val : ℕ → Type}

/-- Write a value and bump the version (`fetch_add` wraps around). -/
def Cell.write (c : Cell α) (v : α) : Cell α := ⟨v, c.ver + 1⟩

/-- One store follows another by a group of writes: every cell is untouched or written once. -/
def Follows (σ σ' : Store Val) : Prop :=
  ∀ id, σ' id = σ id ∨ ∃ v, σ' id = (σ id).write v

/-- No version went backwards from one store to the next. -/
def VersionsGrow (σ σ' : Store Val) : Prop :=
  ∀ id, (σ id).ver ≤ (σ' id).ver

/-- No version of a history of stores ever wraps around. -/
def NoWrap (history : List (Store Val)) : Prop :=
  history.IsChain VersionsGrow

theorem NoWrap.of_append {h h' : List (Store Val)} (hw : NoWrap (h ++ h')) : NoWrap h :=
  List.IsChain.left_of_append hw

/-- In a history of write groups that starts at version 0, a version counts at most the groups. -/
theorem ver_toNat_le {history : List (Store Val)} (hf : history.IsChain Follows)
    (h0 : ∀ σ ∈ history.head?, ∀ id, (σ id).ver = 0) (id : ℕ) :
    ∀ (i : ℕ) (hi : i < history.length), i < 2 ^ 64 → (history[i] id).ver.toNat ≤ i := by
  intro i
  induction i with
  | zero =>
      intro hi _
      rw [h0 _ (by simp [List.head?_eq_getElem?, hi]) id]
      simp
  | succ i ih =>
      intro hi hlt
      have hprev := ih (by omega) (by omega)
      rcases List.isChain_iff_getElem.1 hf i hi id with h | ⟨v, h⟩
      · rw [h]
        omega
      · rw [h, Cell.write, UInt64.toNat_add]
        simp only [UInt64.reduceToNat]
        omega

/-- A history that starts at version 0 and has fewer than `2 ^ 64` write groups does not wrap. -/
theorem noWrap_of_length {history : List (Store Val)} (hf : history.IsChain Follows)
    (h0 : ∀ σ ∈ history.head?, ∀ id, (σ id).ver = 0) (hlen : history.length ≤ 2 ^ 64) :
    NoWrap history := by
  unfold NoWrap
  rw [List.isChain_iff_getElem]
  intro i hi id
  have hle := ver_toNat_le hf h0 id i (by omega) (by omega)
  rcases List.isChain_iff_getElem.1 hf i hi id with h | ⟨v, h⟩
  · rw [h]
    exact UInt64.le_refl _
  · rw [h, Cell.write, UInt64.le_iff_toNat_le, UInt64.toNat_add]
    simp only [UInt64.reduceToNat]
    omega

/-- `c` is `c'` itself or an older version of it. -/
def Cell.Older (c c' : Cell α) : Prop := c = c' ∨ c.ver < c'.ver

theorem Cell.Older.trans {a b c : Cell α} (hab : a.Older b) (hbc : b.Older c) : a.Older c := by
  rcases hab with rfl | hab
  · exact hbc
  · rcases hbc with rfl | hbc
    · exact Or.inr hab
    · exact Or.inr (UInt64.lt_trans hab hbc)

theorem Cell.Older.eq_of_ver_eq {c c' : Cell α} (h : c.Older c') (hv : c'.ver = c.ver) :
    c = c' := by
  rcases h with rfl | h
  · rfl
  · rw [hv] at h
    exact absurd h (UInt64.lt_irrefl _)

theorem Cell.ver_write_ne (c : Cell α) (v : α) : c.ver ≠ (c.write v).ver := by
  intro he
  have h0 : (0 : UInt64) = 1 := by simpa [Cell.write] using congrArg (· - c.ver) he
  exact absurd h0 (by decide)

theorem ver_lt_write {c : Cell α} {v : α} (h : c.ver ≤ (c.write v).ver) :
    c.ver < (c.write v).ver :=
  UInt64.lt_of_le_of_ne h (c.ver_write_ne v)

/-- Every cell of `σ` is the one of `σ'` or an older version of it. -/
def OlderThan (σ σ' : Store Val) : Prop := ∀ id, (σ id).Older (σ' id)

instance : Trans (@OlderThan Val) (@OlderThan Val) (@OlderThan Val) :=
  ⟨fun h h' id => (h id).trans (h' id)⟩

/-- Along a history of write groups without wrap-around, every cell only gets newer. -/
theorem pairwise_olderThan {history : List (Store Val)} (hf : history.IsChain Follows)
    (hw : NoWrap history) : history.Pairwise OlderThan := by
  refine List.IsChain.pairwise ?_
  rw [List.isChain_iff_getElem]
  intro i hi id
  have hle := List.IsChain.getElem hw i hi id
  rcases hf.getElem i hi id with h | ⟨v, h⟩
  · exact Or.inl h.symm
  · refine Or.inr ?_
    rw [h] at hle ⊢
    exact ver_lt_write hle

/-- **Validation.** A cell that occurred in the history and still carries the current version is the
    current cell. -/
theorem Cell.eq_of_ver_eq {history : List (Store Val)} {now : Store Val}
    (hf : (history ++ [now]).IsChain Follows) (hw : NoWrap (history ++ [now])) {id : ℕ}
    {c : Cell (Val id)} (hc : ∃ σ ∈ history ++ [now], σ id = c) (hv : (now id).ver = c.ver) :
    now id = c := by
  obtain ⟨σ, hσ, rfl⟩ := hc
  rcases List.mem_append.1 hσ with hσ | hσ
  · have hold := (List.pairwise_append.1 (pairwise_olderThan hf hw)).2.2 σ hσ now (by simp) id
    exact (hold.eq_of_ver_eq hv).symm
  · rw [List.mem_singleton.1 hσ]

end Versioned
