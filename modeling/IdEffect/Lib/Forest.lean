import Mathlib.Logic.Relation
import Mathlib.Logic.Function.Basic

set_option autoImplicit false

/-! # Forests of parent links

Nodes have at most one link to a parent. The links make a forest if following them from any node
comes to a node without a link. Taking links away keeps a forest one (`Forest.cut`); putting a node
under another one does so exactly if the node is not above that one already (`forest_link_iff`). -/

namespace Forest

variable {N : Type*}

/-- The parent of `n`, or what is above it. -/
def Reaches (up : N → Option N) : N → N → Prop :=
  Relation.ReflTransGen fun n p => up n = some p

/-- Following the links from `n` comes to a root. -/
def Rooted (up : N → Option N) (n : N) : Prop := ∃ r, Reaches up n r ∧ up r = none

def IsForest (up : N → Option N) : Prop := ∀ n, Rooted up n

variable {up up' : N → Option N} {n p x y : N}

theorem rooted_of_none (h : up n = none) : Rooted up n := ⟨n, .refl, h⟩

theorem rooted_iff (h : up n = some p) : Rooted up n ↔ Rooted up p := by
  constructor
  · rintro ⟨r, hreach, hroot⟩
    rcases Relation.ReflTransGen.cases_head hreach with rfl | ⟨q, hq, hrest⟩
    · rw [h] at hroot
      cases hroot
    · obtain rfl := Option.some.inj (h.symm.trans hq)
      exact ⟨r, hrest, hroot⟩
  · rintro ⟨r, hreach, hroot⟩
    exact ⟨r, .head h hreach, hroot⟩

/-- **Climbing rule.** What holds of a root, and of a node if it holds of its parent, holds of every
    node from which the links come to a root. -/
theorem Rooted.climb {P : N → Prop} (h : Rooted up n) (hroot : ∀ n, up n = none → P n)
    (hup : ∀ n p, up n = some p → P p → P n) : P n := by
  obtain ⟨r, hreach, hr⟩ := h
  induction hreach using Relation.ReflTransGen.head_induction_on with
  | refl => exact hroot r hr
  | head hlink _ ih => exact hup _ _ hlink ih

/-- Taking links away keeps a forest one. -/
theorem IsForest.cut (h : IsForest up) (hcut : ∀ n, up' n = up n ∨ up' n = none) :
    IsForest up' := by
  intro n
  refine (h n).climb (fun n hroot => ?_) fun n p hlink hp => ?_
  · rcases hcut n with heq | hnone
    · exact rooted_of_none (heq.trans hroot)
    · exact rooted_of_none hnone
  · rcases hcut n with heq | hnone
    · exact (rooted_iff (heq.trans hlink)).2 hp
    · exact rooted_of_none hnone

variable [DecidableEq N]

/-- A node that is put under one of those below it is on a cycle now. -/
theorem not_rooted_of_reaches (h : Reaches up p n) :
    ¬ Rooted (Function.update up n (some p)) n := by
  rintro ⟨r, hreach, hroot⟩
  -- Whatever is above `n` now was below it before, so none of it is a root.
  have hbelow : ∀ y, Reaches (Function.update up n (some p)) n y → Reaches up y n := by
    intro y hy
    induction hy with
    | refl => exact .refl
    | @tail y z _ hlink ih =>
        by_cases hyn : y = n
        · rw [hyn, Function.update_self, Option.some.injEq] at hlink
          exact hlink ▸ h
        · rw [Function.update_of_ne hyn] at hlink
          rcases Relation.ReflTransGen.cases_head ih with heq | ⟨q, hq, hrest⟩
          · exact absurd heq hyn
          · obtain rfl := Option.some.inj (hlink.symm.trans hq)
            exact hrest
  by_cases hr : r = n
  · rw [hr, Function.update_self] at hroot
    cases hroot
  · rw [Function.update_of_ne hr] at hroot
    rcases Relation.ReflTransGen.cases_head (hbelow r hreach) with heq | ⟨q, hq, _⟩
    · exact hr heq
    · rw [hroot] at hq
      cases hq

/-- **One more link.** Putting `n` under `p` keeps a forest one exactly if `n` is not above `p`. -/
theorem forest_link_iff (h : IsForest up) :
    IsForest (Function.update up n (some p)) ↔ ¬ Reaches up p n := by
  refine ⟨fun hall hreach => not_rooted_of_reaches hreach (hall n), fun hnot => ?_⟩
  -- What is not below `n` keeps its links.
  have hkept : ∀ x, ¬ Reaches up x n → Rooted (Function.update up n (some p)) x := by
    intro x
    refine (h x).climb (P := fun x => ¬ Reaches up x n → Rooted (Function.update up n (some p)) x)
      (fun x hroot hx => ?_) fun x q hlink hq hx => ?_
    · have hne : x ≠ n := fun heq => hx (heq ▸ .refl)
      exact rooted_of_none (by rw [Function.update_of_ne hne, hroot])
    · have hne : x ≠ n := fun heq => hx (heq ▸ .refl)
      refine (rooted_iff (by rw [Function.update_of_ne hne, hlink])).2 (hq fun hreach => hx ?_)
      exact .head hlink hreach
  have hn : Rooted (Function.update up n (some p)) n :=
    (rooted_iff (Function.update_self n (some p) up)).2 (hkept p hnot)
  intro x
  refine (h x).climb (fun x hroot => ?_) fun x q hlink hq => ?_
  · by_cases hx : x = n
    · exact hx ▸ hn
    · exact rooted_of_none (by rw [Function.update_of_ne hx, hroot])
  · by_cases hx : x = n
    · exact hx ▸ hn
    · exact (rooted_iff (by rw [Function.update_of_ne hx, hlink])).2 hq

end Forest
