import Mathlib.Data.List.Basic

set_option autoImplicit false

/-! # Diffs: `diff.rs`

`apply_diff` takes the new value from the diff, and the base where the diff has none. A removal has
none, so it leaves the base in place: what is applied is never an absence (`diff_reproduces`). -/

namespace IdEffect.Parse

inductive Diff (T : Type) where
  | unchanged (value : T)
  | added (value : T)
  | removed (value : T)
  | changed (old new : T)
deriving DecidableEq, Repr

variable {T : Type} [BEq T]

def diffOption : Option T → Option T → Option (Diff T)
  | none, none => none
  | some value, none => some (.removed value)
  | none, some value => some (.added value)
  | some old, some new => if old == new then some (.unchanged old) else some (.changed old new)

omit [BEq T] in
def applyDiff (base : Option T) (diff : Diff T) : Option T :=
  (match diff with
  | .unchanged value => some value
  | .added value => some value
  | .changed _ new => some new
  | .removed _ => none).or base

/-- The same value, or one that is equal to it. -/
def Agrees (a b : Option T) : Prop := a = b ∨ (a == b) = true

/-- The base and the snapshot before, when `next` is the next one. -/
def replayStep (s : Option T × Option T) (next : Option T) : Option T × Option T :=
  match diffOption s.2 next with
  | none => (s.1, next)
  | some diff => (applyDiff s.1 diff, next)

/-- The diffs between the snapshots, applied to the first of them in turn. -/
def replay (first : Option T) (rest : List (Option T)) : Option T :=
  (rest.foldl replayStep (first, first)).1

omit [BEq T] in
/-- The last snapshot that is not an absence. -/
def lastPresent (snapshots : List (Option T)) : Option T :=
  snapshots.foldl (fun present next => next.or present) none

theorem diffOption_eq_none {before after : Option T} :
    diffOption before after = none ↔ before = none ∧ after = none := by
  cases before with
  | none => cases after <;> simp [diffOption]
  | some old =>
      cases after with
      | none => simp [diffOption]
      | some new =>
          rw [diffOption]
          split_ifs <;> simp

/-- The new value, and the base if there is none. -/
theorem applyDiff_diffOption {before after : Option T} {diff : Diff T}
    (h : diffOption before after = some diff) (base : Option T) :
    Agrees (applyDiff base diff) (after.or base) := by
  cases after with
  | none =>
      cases before with
      | none => cases h
      | some value =>
          cases h
          exact .inl rfl
  | some new =>
      cases before with
      | none =>
          cases h
          exact .inl rfl
      | some old =>
          rw [diffOption] at h
          split_ifs at h with heq
          · cases h
            exact .inr heq
          · cases h
            exact .inl rfl

/-- A diff that there is not is of two absences, and leaves the base like a removal. -/
theorem replayStep_agrees {s : Option T × Option T} {present : Option T} (h : Agrees s.1 present)
    (next : Option T) : Agrees (replayStep s next).1 (next.or present) := by
  unfold replayStep
  cases next with
  | none =>
      split
      · exact h
      · next diff hdiff =>
          obtain ⟨value, hvalue⟩ : ∃ value, s.2 = some value := by
            cases hs : s.2 with
            | none => rw [hs] at hdiff; cases hdiff
            | some value => exact ⟨value, rfl⟩
          rw [hvalue] at hdiff
          cases hdiff
          exact h
  | some new =>
      split
      · next hdiff => exact absurd (diffOption_eq_none.1 hdiff).2 (Option.some_ne_none new)
      · next diff hdiff => exact applyDiff_diffOption hdiff s.1

theorem foldl_replayStep_agrees {s : Option T × Option T} {present : Option T}
    (h : Agrees s.1 present) (rest : List (Option T)) :
    Agrees (rest.foldl replayStep s).1
      (rest.foldl (fun present next => next.or present) present) := by
  induction rest generalizing s present with
  | nil => exact h
  | cons next rest ih => exact ih (replayStep_agrees h next)

/-- **What the diffs reproduce.** There is no diff exactly between two absences. Applied to the
    value before, a diff gives the value after, and after a removal still the value before; applied
    in turn to the first of a sequence of snapshots, the diffs give the last that is present. -/
theorem diff_reproduces (before after first : Option T) (rest : List (Option T)) :
    (diffOption before after = none ↔ before = none ∧ after = none) ∧
      (∀ diff, diffOption before after = some diff →
        Agrees (applyDiff before diff) (after.or before)) ∧
      Agrees (replay first rest) (lastPresent (first :: rest)) := by
  refine ⟨diffOption_eq_none, fun diff h => applyDiff_diffOption h before, ?_⟩
  rw [lastPresent, List.foldl_cons, Option.or_none]
  exact foldl_replayStep_agrees (.inl rfl) rest

theorem diff_reproduces_removal :
    Agrees (applyDiff (some 1) (.removed 1)) (some 1) ∧
      Agrees (replay (some 1) [none, some 2, none]) (some 2) := by
  obtain ⟨-, hdiff, hreplay⟩ := diff_reproduces (some 1) none (some 1) [none, some 2, none]
  exact ⟨hdiff (.removed 1) rfl, hreplay⟩

/-- A value that was removed is there again. -/
theorem removal_not_reproduced :
    ¬ ∀ (before after : Option ℕ) (diff : Diff ℕ), diffOption before after = some diff →
      Agrees (applyDiff before diff) after := by
  intro h
  exact absurd (h (some 1) none (.removed 1) rfl) (by simp [Agrees, applyDiff])

end IdEffect.Parse
