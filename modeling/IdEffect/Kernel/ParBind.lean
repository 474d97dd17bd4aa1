import IdEffect.Capability.Run

set_option autoImplicit false

/-! # Binding effects: `par_bind.rs`, `cap_bind.rs`

`cap_into_bind` runs an effect on a copy of the environment of the body, which the body keeps as it
was; only an effect of `()` is run on the environment itself, which has nothing to change. The
`join_binds` functions give each effect a copy as well and come back when all are through, with the
first error there is. What an effect does is a function of its environment here, so it does not
matter how the effects that are joined take turns. -/

namespace IdEffect.Kernel

open IdEffect.Capability (Env verifyAll)

/-! ## Environments -/

section Environments

variable {Key : Type} [DecidableEq Key] (Val : Key → Type)

/-- `Env`, or the `CapList` of some keys. -/
inductive CapsTy (Key : Type) where
  | env
  | capList (keys : List Key)
  deriving DecidableEq

/-- `R::verify` -/
def CapsTy.verify {Val : Key → Type} (env : Env Val) : CapsTy Key → Bool
  | .env => true
  | .capList keys =>
      match verifyAll env keys with
      | .ok _ => true
      | .error _ => false

/-- An environment of the type: `CapList::new` is for one that has been verified. -/
def CapsTy.Value (t : CapsTy Key) : Type := {env : Env Val // t.verify env = true}

inductive EnvTy (Key : Type) where
  | unit
  | caps (t : CapsTy Key)

def EnvTy.Value : EnvTy Key → Type
  | .unit => Unit
  | .caps t => t.Value Val

end Environments

/-- An effect runs on an environment, which it may change. -/
abbrev Effect (A E R : Type) : Type := R → Except E A × R

/-! ## Joins -/

section Joins

inductive Or (L R : Type) where
  | left (l : L)
  | right (r : R)

def flattenOr {E : Type} : Or E E → E
  | .left e | .right e => e

variable {A B C D E E0 E1 R : Type}

def mergePair : Except E0 A → Except E1 B → Except (Or E0 E1) (A × B)
  | .ok a, .ok b => .ok (a, b)
  | .error e, _ => .error (.left e)
  | _, .error e => .error (.right e)

def mergeTriple (r0 : Except E A) (r1 : Except E B) (r2 : Except E C) : Except E (A × B × C) := do
  let a ← r0
  let b ← r1
  let c ← r2
  return (a, b, c)

def mergeQuad (r0 : Except E A) (r1 : Except E B) (r2 : Except E C) (r3 : Except E D) :
    Except E (A × B × C × D) := do
  let a ← r0
  let b ← r1
  let c ← r2
  let d ← r3
  return (a, b, c, d)

/-- Each effect has a copy of the environment, which is dropped afterwards. -/
def joinBinds2 (e0 : Effect A E0 R) (e1 : Effect B E1 R) (r : R) : Except (Or E0 E1) (A × B) :=
  mergePair (e0 r).1 (e1 r).1

def joinBinds3 (e0 : Effect A E R) (e1 : Effect B E R) (e2 : Effect C E R) (r : R) :
    Except E (A × B × C) :=
  mergeTriple (e0 r).1 (e1 r).1 (e2 r).1

def joinBinds4 (e0 : Effect A E R) (e1 : Effect B E R) (e2 : Effect C E R) (e3 : Effect D E R)
    (r : R) : Except E (A × B × C × D) :=
  mergeQuad (e0 r).1 (e1 r).1 (e2 r).1 (e3 r).1

end Joins

/-! ## `cap_into_bind` -/

section CapBind

variable {Key : Type} [DecidableEq Key] {Val : Key → Type} {Err A E : Type}

/-- A body is left early with an error, or it panics. -/
inductive Stop (E : Type) where
  | error (e : E)
  | panic
  deriving DecidableEq

/-- What can be bound in a body with an environment of some type: the implementations of `CapBind`,
    with the type of the error. -/
inductive Bindable (Err : Type) : EnvTy Key → Type where
  | unit (error : Err) : Bindable Err .unit
  | effect {wide : CapsTy Key} (narrow : CapsTy Key) (error : Err) : Bindable Err (.caps wide)
  | result {t : EnvTy Key} (error : Err) : Bindable Err t

variable (Val A E) in
def Bindable.Value {t : EnvTy Key} : Bindable Err t → Type
  | .unit _ => Effect A E Unit
  | .effect narrow _ => Effect A E (narrow.Value Val)
  | .result _ => Except E A

/-- `E` is the error of the body, which `?` makes of that of the effect. -/
def capIntoBind {t : EnvTy Key} : (b : Bindable Err t) → b.Value Val A E → t.Value Val →
    Except (Stop E) A × t.Value Val
  | .unit _, run, r => ((run r).1.mapError .error, (run r).2)
  | .effect narrow _, run, r =>
      if h : narrow.verify r.1 = true then ((run ⟨r.1, h⟩).1.mapError .error, r)
      else (.error .panic, r)
  | .result _, result, r => (result.mapError .error, r)

theorem capIntoBind_env {t : EnvTy Key} (b : Bindable Err t) (v : b.Value Val A E)
    (r : t.Value Val) : (capIntoBind b v r).2 = r := by
  cases b with
  | unit _ => rfl
  | result _ => rfl
  | effect narrow _ =>
      rw [capIntoBind]
      split
      · rfl
      · rfl

/-- An effect of the environment of the body runs: what it needs is there. -/
theorem capIntoBind_wide {wide : CapsTy Key} (error : Err) (run : Effect A E (wide.Value Val))
    (r : wide.Value Val) :
    capIntoBind (t := .caps wide) (.effect wide error) run r = ((run r).1.mapError .error, r) :=
  dif_pos r.2

end CapBind

end IdEffect.Kernel
