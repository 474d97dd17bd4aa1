import Mathlib.Data.List.Basic

set_option autoImplicit false

/-! # Calls with stacks

Calls that recurse are lists of frames, the one that is being run first. A step of a call replaces
its first frame by some others. The lemmas below say what that does to the frames of all calls
together. -/

namespace Stacks

variable {F : Type} {calls : List (List F)} {i : ℕ} {f g : F} {new rest : List F}

/-- The first frame of call `i` has become `new`. -/
def replace (calls : List (List F)) (i : ℕ) (new rest : List F) : List (List F) :=
  calls.set i (new ++ rest)

theorem mem_replace (h : calls[i]? = some (f :: rest))
    (hg : g ∈ (replace calls i new rest).flatten) : g ∈ new ∨ g ∈ calls.flatten := by
  obtain ⟨stack, hstack, hmem⟩ := List.mem_flatten.1 hg
  rcases List.mem_or_eq_of_mem_set hstack with hstack | rfl
  · exact .inr (List.mem_flatten.2 ⟨stack, hstack, hmem⟩)
  · rcases List.mem_append.1 hmem with hmem | hmem
    · exact .inl hmem
    · exact .inr (List.mem_flatten.2 ⟨_, List.mem_of_getElem? h, List.mem_cons_of_mem _ hmem⟩)

theorem mem_replace_of_mem_new (h : calls[i]? = some (f :: rest)) (hg : g ∈ new) :
    g ∈ (replace calls i new rest).flatten :=
  List.mem_flatten.2 ⟨_, List.mem_set (List.getElem?_eq_some_iff.1 h).1 _,
    List.mem_append_left _ hg⟩

/-- The other frames are still there. -/
theorem mem_replace_of_mem (h : calls[i]? = some (f :: rest)) (hg : g ∈ calls.flatten) :
    g = f ∨ g ∈ (replace calls i new rest).flatten := by
  have hlt := (List.getElem?_eq_some_iff.1 h).1
  obtain ⟨stack, hstack, hmem⟩ := List.mem_flatten.1 hg
  obtain ⟨j, hj⟩ := List.mem_iff_getElem?.1 hstack
  by_cases hij : i = j
  · subst hij
    obtain rfl := Option.some.inj (h.symm.trans hj)
    rcases List.mem_cons.1 hmem with rfl | hmem
    · exact .inl rfl
    · exact .inr (List.mem_flatten.2 ⟨_, List.mem_set hlt _, List.mem_append_right _ hmem⟩)
  · refine .inr (List.mem_flatten.2 ⟨stack, ?_, hmem⟩)
    exact List.mem_of_getElem? ((List.getElem?_set_ne hij).trans hj)

theorem countP_replace (p : F → Bool) (h : calls[i]? = some (f :: rest)) (new : List F) :
    (replace calls i new rest).flatten.countP p + (p f).toNat
      = calls.flatten.countP p + new.countP p := by
  induction calls generalizing i with
  | nil => cases h
  | cons stack calls ih =>
      cases i with
      | zero =>
          obtain rfl := Option.some.inj h
          simp only [replace, List.set_cons_zero, List.flatten_cons, List.countP_append,
            List.countP_cons]
          cases hp : p f with
          | false => simp; omega
          | true => simp; omega
      | succ i =>
          have hrest := ih h
          simp only [replace] at hrest
          simp only [replace, List.set_cons_succ, List.flatten_cons, List.countP_append]
          omega

end Stacks
