import Mathlib.Data.List.Sort

set_option autoImplicit false

/-! # The first elements of a sorted list

A list sorted by one key keeps, among elements with the same key, the order they had. The first `n`
elements of a list are the first `n` of its sorted version exactly if each of them comes before all
that follow it (`LeastFirst`). -/

namespace Ranked

variable {α β γ : Type*} [LinearOrder β]

/-- By `f`, and by `g` where `f` does not decide. -/
def Before [LT γ] (f : α → β) (g : α → γ) (x y : α) : Prop := f x < f y ∨ (f x = f y ∧ g x < g y)

variable {f : α → β} {g : α → γ}

theorem Before.le [LT γ] {x y : α} (h : Before f g x y) : f x ≤ f y := by
  rcases h with hlt | ⟨heq, -⟩
  · exact hlt.le
  · exact heq.le

theorem Before.asymm [Preorder γ] {x y : α} (h : Before f g x y) : ¬ Before f g y x := by
  rintro (hlt | ⟨heq, hg⟩)
  · exact absurd h.le (not_le.2 hlt)
  · rcases h with hlt | ⟨-, hg'⟩
    · exact absurd heq hlt.ne'
    · exact lt_asymm hg hg'

theorem pairwise_orderedInsert [LT γ] {x : α} {l : List α} (hl : l.Pairwise (Before f g))
    (hx : ∀ y ∈ l, g x < g y) :
    (l.orderedInsert (fun x y => f x ≤ f y) x).Pairwise (Before f g) := by
  induction l with
  | nil => exact List.pairwise_singleton ..
  | cons y l ih =>
      obtain ⟨hy, hl'⟩ := List.pairwise_cons.1 hl
      rw [List.orderedInsert]
      split_ifs with hle
      · refine List.pairwise_cons.2 ⟨fun z hz => ?_, hl⟩
        have hyz : f y ≤ f z := by
          rcases List.mem_cons.1 hz with rfl | hz
          · exact le_rfl
          · exact (hy z hz).le
        rcases (hle.trans hyz).lt_or_eq with hlt | heq
        · exact .inl hlt
        · exact .inr ⟨heq, hx z hz⟩
      · refine List.pairwise_cons.2
          ⟨fun z hz => ?_, ih hl' fun z hz => hx z (List.mem_cons_of_mem _ hz)⟩
        rcases (List.mem_orderedInsert _).1 hz with rfl | hz
        · exact .inl (not_le.1 hle)
        · exact hy z hz

/-- Sorting by `f` a list in the order of `g`. -/
theorem pairwise_insertionSort [LT γ] {l : List α} (hl : l.Pairwise (g · < g ·)) :
    (l.insertionSort (fun x y => f x ≤ f y)).Pairwise (Before f g) := by
  induction l with
  | nil => exact .nil
  | cons x l ih =>
      obtain ⟨hx, hl'⟩ := List.pairwise_cons.1 hl
      exact pairwise_orderedInsert (ih hl') fun y hy => hx y ((List.mem_insertionSort _).1 hy)

/-- Each of the first `n` elements comes before all that follow it. -/
def LeastFirst (R : α → α → Prop) : ℕ → List α → Prop
  | 0, _ => True
  | _ + 1, [] => True
  | n + 1, x :: l => (∀ y ∈ l, R x y) ∧ LeastFirst R n l

instance decidableLeastFirst (R : α → α → Prop) [∀ x y, Decidable (R x y)] :
    ∀ (n : ℕ) (l : List α), Decidable (LeastFirst R n l)
  | 0, _ => .isTrue trivial
  | _ + 1, [] => .isTrue trivial
  | n + 1, x :: l =>
      have := decidableLeastFirst R n l
      inferInstanceAs (Decidable ((∀ y ∈ l, R x y) ∧ LeastFirst R n l))

theorem leastFirst_congr {R R' S : α → α → Prop} (h : ∀ x y, S x y → (R x y ↔ R' x y)) {l : List α}
    (hl : l.Pairwise S) (n : ℕ) : LeastFirst R n l ↔ LeastFirst R' n l := by
  induction l generalizing n with
  | nil => cases n <;> exact Iff.rfl
  | cons x l ih =>
      obtain ⟨hx, hl'⟩ := List.pairwise_cons.1 hl
      cases n with
      | zero => exact Iff.rfl
      | succ n => exact and_congr (forall₂_congr fun y hy => h x y (hx y hy)) (ih hl' n)

/-- The first elements are those of the sorted list exactly if each comes before the rest. -/
theorem take_eq_take_iff {R : α → α → Prop} (hR : ∀ x y, R x y → ¬ R y x) {l l' : List α}
    (hperm : l'.Perm l) (hl' : l'.Pairwise R) (n : ℕ) :
    l'.take n = l.take n ↔ LeastFirst R n l := by
  induction n generalizing l l' with
  | zero => exact iff_of_true rfl trivial
  | succ n ih =>
      cases l with
      | nil =>
          rw [List.perm_nil.1 hperm]
          exact iff_of_true rfl trivial
      | cons x l =>
          cases l' with
          | nil => exact absurd (List.nil_perm.1 hperm) (by simp)
          | cons x' l' =>
              obtain ⟨hx', htail⟩ := List.pairwise_cons.1 hl'
              rw [List.take_succ_cons, List.take_succ_cons, List.cons.injEq, LeastFirst]
              constructor
              · rintro ⟨rfl, htake⟩
                have hrest := List.perm_cons _ |>.1 hperm
                exact ⟨fun y hy => hx' y (hrest.mem_iff.2 hy), (ih hrest htail).1 htake⟩
              · rintro ⟨hx, hrest⟩
                -- the least of all comes first in both
                obtain rfl : x' = x := by
                  by_contra hne
                  have hmem : x ∈ l' :=
                    (List.mem_cons.1 (hperm.mem_iff.2 (List.mem_cons_self ..))).resolve_left
                      (Ne.symm hne)
                  have hmem' : x' ∈ l :=
                    (List.mem_cons.1 (hperm.mem_iff.1 (List.mem_cons_self ..))).resolve_left hne
                  exact hR _ _ (hx' x hmem) (hx x' hmem')
                have hperm' := List.perm_cons _ |>.1 hperm
                exact ⟨rfl, (ih hperm' htail).2 hrest⟩

end Ranked
