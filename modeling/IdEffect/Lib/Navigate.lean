import Mathlib.Data.List.Basic

set_option autoImplicit false

/-! # Walking into nested values

`child v s` is the part of `v` that the step `s` selects, `put v s x` is `v` with `x` in its place.
`locate` follows a list of steps, and `modify` changes the value found there from the top down.
`ascend` does the same from the bottom up, reading the parent again for every step; both are one
function (`ascend_eq_modify`). A change leaves alone whatever is `Beside` its path. Two ways to walk
the same values agree on a path when they agree on each of its steps (`Follows`). -/

namespace Navigate

variable {V S T : Type}

/-- The value that the steps `p` lead to. -/
def locate (child : V → S → Option V) : V → List S → Option V
  | v, [] => some v
  | v, s :: p => (child v s).bind (locate child · p)

/-- Change the value at the end of the path; every part on the way is put back. -/
def modify (child : V → S → Option V) (put : V → S → V → Option V) (f : V → Option V) :
    V → List S → Option V
  | v, [] => f v
  | v, s :: p => (child v s).bind fun c => (modify child put f c p).bind (put v s)

/-- Set the value at a path given in reverse: assign it to its parent, then set the parent. -/
def ascend (child : V → S → Option V) (put : V → S → V → Option V) (v : V) :
    List S → V → Option V
  | [], x => some x
  | s :: r, x =>
      (locate child v r.reverse).bind fun w => (put w s x).bind (ascend child put v r)

section

variable {child : V → S → Option V} {put : V → S → V → Option V}

theorem locate_append (v : V) (p q : List S) :
    locate child v (p ++ q) = (locate child v p).bind (locate child · q) := by
  induction p generalizing v with
  | nil => rfl
  | cons s p ih =>
      rw [List.cons_append, locate, locate, Option.bind_assoc]
      exact congrArg _ (funext fun c => ih c)

theorem locate_snoc (v : V) (p : List S) (s : S) :
    locate child v (p ++ [s]) = (locate child v p).bind (child · s) := by
  rw [locate_append]
  refine congrArg _ (funext fun w => ?_)
  exact Option.bind_fun_some (child w s)

/-- Only the value at the end of the path is given to the change. -/
theorem modify_congr {f g : V → Option V} {v : V} {p : List S}
    (h : ∀ w, locate child v p = some w → f w = g w) :
    modify child put f v p = modify child put g v p := by
  induction p generalizing v with
  | nil => exact h v rfl
  | cons s p ih =>
      rw [modify, modify]
      cases hc : child v s with
      | none => rfl
      | some c =>
          rw [Option.bind_some, Option.bind_some]
          rw [ih fun w hw => h w (by rw [locate, hc, Option.bind_some, hw])]

theorem modify_eq_none {f : V → Option V} {v : V} {p : List S} (h : locate child v p = none) :
    modify child put f v p = none := by
  induction p generalizing v with
  | nil => exact absurd h (by simp [locate])
  | cons s p ih =>
      rw [modify]
      cases hc : child v s with
      | none => rfl
      | some c =>
          rw [locate, hc, Option.bind_some] at h
          rw [Option.bind_some, ih h]
          rfl

theorem modify_eq_none_of_fails {f : V → Option V} {v w : V} {p : List S}
    (h : locate child v p = some w) (hf : f w = none) : modify child put f v p = none := by
  induction p generalizing v with
  | nil =>
      obtain rfl : v = w := Option.some.inj h
      exact hf
  | cons s p ih =>
      rw [locate, Option.bind_eq_some_iff] at h
      obtain ⟨c, hc, h⟩ := h
      rw [modify, hc, Option.bind_some, ih h]
      rfl

/-- A change is made in two steps: compute the new value at the path, then set it. -/
theorem modify_eq_bind (f : V → Option V) (v : V) (p : List S) :
    modify child put f v p = (locate child v p).bind fun w =>
      (f w).bind fun w' => modify child put (fun _ => some w') v p := by
  cases hw : locate child v p with
  | none => exact modify_eq_none hw
  | some w =>
      rw [Option.bind_some]
      cases hf : f w with
      | none => exact modify_eq_none_of_fails hw hf
      | some w' =>
          refine modify_congr fun u hu => ?_
          obtain rfl : w = u := Option.some.inj (hw.symm.trans hu)
          exact hf

theorem modify_snoc (f : V → Option V) (v : V) (p : List S) (s : S) :
    modify child put f v (p ++ [s])
      = modify child put (fun w => (child w s).bind fun c => (f c).bind (put w s)) v p := by
  induction p generalizing v with
  | nil => rfl
  | cons t p ih =>
      rw [List.cons_append, modify, modify]
      exact congrArg _ (funext fun c => by rw [ih c])

/-- Setting an existing value from the bottom up is setting it from the top down. -/
theorem ascend_eq_modify_of_exists {v x : V} {r : List S}
    (h : (locate child v r.reverse).isSome) :
    ascend child put v r x = modify child put (fun _ => some x) v r.reverse := by
  induction r generalizing x with
  | nil => rfl
  | cons s r ih =>
      rw [List.reverse_cons] at h ⊢
      rw [modify_snoc, modify_eq_bind, ascend]
      rw [locate_snoc] at h
      cases hw : locate child v r.reverse with
      | none => rfl
      | some w =>
          rw [hw, Option.bind_some] at h
          obtain ⟨c, hc⟩ := Option.isSome_iff_exists.mp h
          rw [Option.bind_some, Option.bind_some, hc, Option.bind_some, Option.bind_some]
          exact congrArg _ (funext fun w' => ih (by rw [hw]; rfl))

/-- The last step may select nothing yet: then `put` decides whether it can be assigned. -/
theorem ascend_eq_modify (v x : V) (s : S) (r : List S) :
    ascend child put v (s :: r) x = modify child put (put · s x) v r.reverse := by
  rw [ascend, modify_eq_bind]
  cases hw : locate child v r.reverse with
  | none => rfl
  | some w =>
      rw [Option.bind_some, Option.bind_some]
      exact congrArg _ (funext fun w' => ascend_eq_modify_of_exists (by rw [hw]; rfl))

end

/-! ## What a change keeps -/

/-- What is put into a part is found there, every other part stays, and every part can be put
    back. -/
structure Lawful (child : V → S → Option V) (put : V → S → V → Option V) : Prop where
  child_put {v v' x : V} {s : S} (h : put v s x = some v') : child v' s = some x
  child_put_ne {v v' x : V} {s t : S} (h : put v s x = some v') (hne : s ≠ t) :
    child v' t = child v t
  put_isSome {v c : V} {s : S} (x : V) (h : child v s = some c) : (put v s x).isSome

/-- Neither path begins with the other. -/
def Apart (p q : List S) : Prop := ¬ p <+: q ∧ ¬ q <+: p

/-- The location `q` is beside the change made at the end of `p`: it leaves the path on the way, or
    it continues to a place that `Keeps` says the change does not touch. -/
inductive Beside (child : V → S → Option V) (Keeps : V → List S → Prop) : V → List S → List S → Prop
  | here {v : V} {q : List S} (h : Keeps v q) : Beside child Keeps v [] q
  | off {v : V} {s t : S} {p q : List S} (h : s ≠ t) : Beside child Keeps v (s :: p) (t :: q)
  | into {v c : V} {s : S} {p q : List S} (hc : child v s = some c) (h : Beside child Keeps c p q) :
      Beside child Keeps v (s :: p) (s :: q)

section

variable {child : V → S → Option V} {put : V → S → V → Option V}

theorem Lawful.locate_modify (hl : Lawful child put) {f : V → Option V} {v v' : V} {p : List S}
    (h : modify child put f v p = some v') : locate child v' p = (locate child v p).bind f := by
  induction p generalizing v v' with
  | nil => exact h.symm
  | cons s p ih =>
      rw [modify, Option.bind_eq_some_iff] at h
      obtain ⟨c, hc, h⟩ := h
      obtain ⟨c', hc', hput⟩ := Option.bind_eq_some_iff.mp h
      rw [locate, locate, hl.child_put hput, hc, Option.bind_some, Option.bind_some, ih hc']

theorem Lawful.modify_isSome (hl : Lawful child put) {f : V → Option V} {v w : V} {p : List S}
    (h : locate child v p = some w) (hf : (f w).isSome) : (modify child put f v p).isSome := by
  induction p generalizing v with
  | nil =>
      obtain rfl : v = w := Option.some.inj h
      exact hf
  | cons s p ih =>
      rw [locate, Option.bind_eq_some_iff] at h
      obtain ⟨c, hc, h⟩ := h
      obtain ⟨c', hc'⟩ := Option.isSome_iff_exists.mp (ih h)
      rw [modify, hc, Option.bind_some, hc', Option.bind_some]
      exact hl.put_isSome c' hc

theorem Lawful.isSome_modify (hl : Lawful child put) (f : V → Option V) (v : V) (p : List S) :
    (modify child put f v p).isSome = ((locate child v p).bind f).isSome := by
  cases hw : locate child v p with
  | none => rw [modify_eq_none hw, Option.bind_none]
  | some w =>
      rw [Option.bind_some]
      cases hf : f w with
      | none => rw [modify_eq_none_of_fails hw hf]
      | some w' => exact hl.modify_isSome hw (by rw [hf]; rfl)

/-- A change is made to a value that is there, and its result is then there. -/
theorem Lawful.exists_of_modify (hl : Lawful child put) {f : V → Option V} {v v' : V} {p : List S}
    (h : modify child put f v p = some v') :
    ∃ w w', locate child v p = some w ∧ f w = some w' ∧ locate child v' p = some w' := by
  have hloc := hl.locate_modify h
  cases hw : locate child v p with
  | none =>
      rw [modify_eq_none hw] at h
      cases h
  | some w =>
      have hsome := hl.isSome_modify f v p
      rw [h, hw, Option.bind_some] at hsome
      obtain ⟨w', hw'⟩ := Option.isSome_iff_exists.mp hsome.symm
      rw [hw, Option.bind_some, hw'] at hloc
      exact ⟨w, w', rfl, hw', hloc⟩

/-- **Frame**: what is beside a change keeps its value. -/
theorem Beside.locate_modify {Keeps : V → List S → Prop} {f : V → Option V} {v v' : V}
    {p q : List S} (hb : Beside child Keeps v p q) (hl : Lawful child put)
    (hf : ∀ w w' r, f w = some w' → Keeps w r → locate child w' r = locate child w r)
    (h : modify child put f v p = some v') : locate child v' q = locate child v q := by
  induction hb generalizing v' with
  | here hk => exact hf _ _ _ h hk
  | off hne =>
      rw [modify, Option.bind_eq_some_iff] at h
      obtain ⟨c, hc, h⟩ := h
      obtain ⟨c', hc', hput⟩ := Option.bind_eq_some_iff.mp h
      rw [locate, locate, hl.child_put_ne hput hne]
  | into hc hb ih =>
      rw [modify, hc, Option.bind_some, Option.bind_eq_some_iff] at h
      obtain ⟨c', hc', hput⟩ := h
      rw [locate, locate, hl.child_put hput, hc, Option.bind_some, Option.bind_some, ih hc']

/-- **Frame**: what is apart from the place of a change keeps its value. -/
theorem Lawful.locate_modify_apart (hl : Lawful child put) {f : V → Option V} {v v' : V}
    {p q : List S} (h : modify child put f v p = some v') (hpq : Apart p q) :
    locate child v' q = locate child v q := by
  induction p generalizing v v' q with
  | nil => exact absurd List.nil_prefix hpq.1
  | cons s p ih =>
      cases q with
      | nil => exact absurd List.nil_prefix hpq.2
      | cons t q =>
          rw [modify, Option.bind_eq_some_iff] at h
          obtain ⟨c, hc, h⟩ := h
          obtain ⟨c', hc', hput⟩ := Option.bind_eq_some_iff.mp h
          rw [locate, locate]
          by_cases hst : s = t
          · subst hst
            have hrest : Apart p q := by simpa [Apart, List.cons_prefix_cons] using hpq
            rw [hl.child_put hput, hc, Option.bind_some, Option.bind_some, ih hc' hrest]
          · rw [hl.child_put_ne hput hst]

/-- Setting the value that is there changes nothing; `Fit` is what the values on the way satisfy. -/
theorem modify_self {Fit : V → Prop} {v x : V} {p : List S} (hfit : Fit v)
    (hself : ∀ {w c s}, Fit w → child w s = some c → Fit c ∧ put w s c = some w)
    (h : locate child v p = some x) : modify child put (fun _ => some x) v p = some v := by
  induction p generalizing v with
  | nil => exact h.symm
  | cons s p ih =>
      obtain ⟨c, hc, h⟩ := Option.bind_eq_some_iff.mp h
      obtain ⟨hfit', hput⟩ := hself hfit hc
      rw [modify, hc, Option.bind_some, ih hfit' h, Option.bind_some, hput]

/-- What the change keeps of the value at the path, and `put` of the values on the way, it keeps of
    the whole. -/
theorem modify_preserves {Fit : V → Prop} {f : V → Option V} {v v' : V} {p : List S} (hfit : Fit v)
    (hchild : ∀ {w c s}, Fit w → child w s = some c → Fit c)
    (hput : ∀ {w w' x s}, Fit w → Fit x → put w s x = some w' → Fit w')
    (hf : ∀ {w w'}, Fit w → f w = some w' → Fit w') (h : modify child put f v p = some v') :
    Fit v' := by
  induction p generalizing v v' with
  | nil => exact hf hfit h
  | cons s p ih =>
      obtain ⟨c, hc, h⟩ := Option.bind_eq_some_iff.mp h
      obtain ⟨c', hc', hs⟩ := Option.bind_eq_some_iff.mp h
      exact hput hfit (ih (hchild hfit hc) hc') hs

/-- A value set after a change is set as if the change had not been made. -/
theorem Lawful.modify_overwrites (hl : Lawful child put)
    (hput : ∀ {w w' x s} y, put w s x = some w' → put w' s y = put w s y)
    {f : V → Option V} {v v' : V} {p : List S} (h : modify child put f v p = some v') (y : V) :
    modify child put (fun _ => some y) v' p = modify child put (fun _ => some y) v p := by
  induction p generalizing v v' with
  | nil => rfl
  | cons s p ih =>
      rw [modify, Option.bind_eq_some_iff] at h
      obtain ⟨c, hc, h⟩ := h
      obtain ⟨c', hc', hs⟩ := Option.bind_eq_some_iff.mp h
      rw [modify, modify, hl.child_put hs, hc, Option.bind_some, Option.bind_some, ih hc']
      exact Option.bind_congr fun x _ => hput x hs

/-! ### Changes that take a part away -/

/-- Putting another value into a part neither adds nor takes away parts. -/
theorem Lawful.isSome_child_put (hl : Lawful child put) {v v' c x : V} {s : S}
    (hc : child v s = some c) (h : put v s x = some v') (t : S) :
    (child v' t).isSome = (child v t).isSome := by
  by_cases hst : s = t
  · subst hst
    rw [hl.child_put h, hc]
    rfl
  · rw [hl.child_put_ne h hst]

theorem Lawful.modify_ne_self (hl : Lawful child put) {f : V → Option V}
    (hf : ∀ {w w'}, f w = some w' → ∃ s, (child w s).isSome ∧ child w' s = none)
    (v : V) (p : List S) : modify child put f v p ≠ some v := by
  induction p generalizing v with
  | nil =>
      intro h
      obtain ⟨s, hs, hnone⟩ := hf h
      rw [hnone] at hs
      cases hs
  | cons s p ih =>
      intro h
      rw [modify, Option.bind_eq_some_iff] at h
      obtain ⟨c, hc, h⟩ := h
      obtain ⟨c', hc', hput⟩ := Option.bind_eq_some_iff.mp h
      obtain rfl : c = c' := Option.some.inj (hc.symm.trans (hl.child_put hput))
      exact ih c hc'

/-- **The place of such a change can be told from its result**, also if two changes take away
    different parts. -/
theorem Lawful.modify_injective (hl : Lawful child put) {f g : V → Option V}
    (hf : ∀ {w w'}, f w = some w' → ∃ s, (child w s).isSome ∧ child w' s = none)
    (hg : ∀ {w w'}, g w = some w' → ∃ s, (child w s).isSome ∧ child w' s = none)
    {v v' : V} {p q : List S} (hp : modify child put f v p = some v')
    (hq : modify child put g v q = some v') : p = q := by
  -- one change takes away a part of `v` itself, the other puts another value into a part
  have hroot : ∀ {f g : V → Option V} {v v' : V} {s : S} {r : List S},
      (∀ {w w'}, f w = some w' → ∃ s, (child w s).isSome ∧ child w' s = none) → f v = some v' →
      modify child put g v (s :: r) ≠ some v' := by
    intro f g v v' s r hf hv h
    obtain ⟨t, ht, hnone⟩ := hf hv
    rw [modify, Option.bind_eq_some_iff] at h
    obtain ⟨c, hc, h⟩ := h
    obtain ⟨c', -, hput⟩ := Option.bind_eq_some_iff.mp h
    rw [← hl.isSome_child_put hc hput t, hnone] at ht
    cases ht
  induction p generalizing v v' q with
  | nil =>
      cases q with
      | nil => rfl
      | cons t q => exact absurd hq (hroot hf hp)
  | cons s p ih =>
      cases q with
      | nil => exact absurd hp (hroot hg hq)
      | cons t q =>
          rw [modify, Option.bind_eq_some_iff] at hp hq
          obtain ⟨c, hc, hp⟩ := hp
          obtain ⟨c', hc', hputc⟩ := Option.bind_eq_some_iff.mp hp
          obtain ⟨d, hd, hq⟩ := hq
          obtain ⟨d', hd', hputd⟩ := Option.bind_eq_some_iff.mp hq
          by_cases hst : s = t
          · subst hst
            obtain rfl : c = d := Option.some.inj (hc.symm.trans hd)
            obtain rfl : c' = d' :=
              Option.some.inj ((hl.child_put hputc).symm.trans (hl.child_put hputd))
            rw [ih hc' hd']
          -- beside the other change the part `s` is what it was
          · have hkeep := hl.child_put_ne hputd (Ne.symm hst)
            rw [hl.child_put hputc, hc] at hkeep
            obtain rfl : c' = c := Option.some.inj hkeep
            exact absurd hc' (hl.modify_ne_self hf c' p)

end

/-! ## Two ways to walk -/

variable {child : V → S → Option V} {put : V → S → V → Option V}
variable {child' : V → T → Option V} {put' : V → T → V → Option V}

/-- Step by step, the two paths select the same parts and put them back alike. -/
inductive Follows (child : V → S → Option V) (put : V → S → V → Option V)
    (child' : V → T → Option V) (put' : V → T → V → Option V) : V → List S → List T → Prop
  | nil (v : V) : Follows child put child' put' v [] []
  | cons {v : V} {s : S} {t : T} {p : List S} {q : List T} (hc : child v s = child' v t)
      (hp : ∀ c x, child v s = some c → put v s x = put' v t x)
      (h : ∀ c, child v s = some c → Follows child put child' put' c p q) :
      Follows child put child' put' v (s :: p) (t :: q)

theorem Follows.locate_eq {v : V} {p : List S} {q : List T}
    (h : Follows child put child' put' v p q) : locate child v p = locate child' v q := by
  induction h with
  | nil v => rfl
  | @cons v s t p q hc hp h ih =>
      rw [locate, locate, ← hc]
      cases hs : child v s with
      | none => rfl
      | some c => exact ih c hs

theorem Follows.modify_eq {f : V → Option V} {v : V} {p : List S} {q : List T}
    (h : Follows child put child' put' v p q) :
    modify child put f v p = modify child' put' f v q := by
  induction h with
  | nil v => rfl
  | @cons v s t p q hc hp h ih =>
      rw [modify, modify, ← hc]
      cases hs : child v s with
      | none => rfl
      | some c =>
          rw [Option.bind_some, Option.bind_some, ih c hs]
          exact congrArg _ (funext fun x => hp c x hs)

end Navigate
