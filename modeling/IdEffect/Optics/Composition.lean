import Mathlib.Data.Option.Basic
import Mathlib.Data.List.Basic

set_option autoImplicit false

/-! # Composing optics

The laws of a `Lens`, a `Prism` and a `Traversal` pass to what is composed of them. Those of an
`Optional` do not quite: a composed one has nowhere to write to while the outer value is absent, so
`set_some` needs a focus to write to, and a focus that was cleared cannot be set again
(`Optional.Partial`, `Optional.compose_focused`). -/

namespace IdEffect.Composition

variable {S A B C : Type}

/-! ## Lenses -/

structure Lens (S A : Type) where
  get : S → A
  set : S → A → S

namespace Lens

def modify (l : Lens S A) (source : S) (f : A → A) : S := l.set source (f (l.get source))

/-- Focus `S → A → B`. -/
def compose (outer : Lens S A) (inner : Lens A B) : Lens S B where
  get s := inner.get (outer.get s)
  set s b := outer.set s (inner.set (outer.get s) b)

def identityLens : Lens S S := ⟨id, fun _ a => a⟩

structure Lawful (l : Lens S A) : Prop where
  get_set : ∀ s a, l.get (l.set s a) = a
  set_get : ∀ s, l.set s (l.get s) = s
  set_set : ∀ s a b, l.set (l.set s a) b = l.set s b

/-- Built from lawful parts by any number of compose steps. -/
inductive Built : {S A : Type} → Lens S A → Prop where
  | part {S A : Type} {l : Lens S A} (h : l.Lawful) : Built l
  | compose {S A B : Type} {outer : Lens S A} {inner : Lens A B} (houter : Built outer)
      (hinner : Built inner) : Built (outer.compose inner)

theorem identityLens_lawful : (identityLens : Lens S S).Lawful :=
  ⟨fun _ _ => rfl, fun _ => rfl, fun _ _ _ => rfl⟩

theorem compose_lawful {outer : Lens S A} {inner : Lens A B} (ho : outer.Lawful)
    (hi : inner.Lawful) : (outer.compose inner).Lawful where
  get_set s b := by simp [compose, ho.get_set, hi.get_set]
  set_get s := by simp [compose, hi.set_get, ho.set_get]
  set_set s a b := by simp [compose, ho.get_set, ho.set_set, hi.set_set]

theorem Built.lawful {l : Lens S A} (h : l.Built) : l.Lawful := by
  induction h with
  | part h => exact h
  | compose _ _ ho hi => exact compose_lawful ho hi

/-- Modifying twice is modifying once with both functions. -/
theorem modify_modify {l : Lens S A} (h : l.Lawful) (s : S) (f g : A → A) :
    l.modify (l.modify s f) g = l.modify s (g ∘ f) := by
  simp [modify, h.get_set, h.set_set]

theorem compose_modify (outer : Lens S A) (inner : Lens A B) (s : S) (f : B → B) :
    (outer.compose inner).modify s f = outer.modify s fun a => inner.modify a f := by
  simp [compose, modify]

end Lens

/-! ## Prisms -/

structure Prism (S A : Type) where
  preview : S → Option A
  review : A → S

namespace Prism

def modify (p : Prism S A) (source : S) (f : A → A) : S :=
  match p.preview source with
  | some a => p.review (f a)
  | none => source

def compose (outer : Prism S A) (inner : Prism A B) : Prism S B where
  preview s := (outer.preview s).bind inner.preview
  review b := outer.review (inner.review b)

def somePrism : Prism (Option A) A := ⟨id, some⟩

structure Lawful (p : Prism S A) : Prop where
  preview_review : ∀ b, p.preview (p.review b) = some b
  review_preview : ∀ s b, p.preview s = some b → p.review b = s

inductive Built : {S A : Type} → Prism S A → Prop where
  | part {S A : Type} {p : Prism S A} (h : p.Lawful) : Built p
  | compose {S A B : Type} {outer : Prism S A} {inner : Prism A B} (houter : Built outer)
      (hinner : Built inner) : Built (outer.compose inner)

theorem somePrism_lawful : (somePrism : Prism (Option A) A).Lawful :=
  ⟨fun _ => rfl, fun _ _ h => h.symm⟩

theorem compose_lawful {outer : Prism S A} {inner : Prism A B} (ho : outer.Lawful)
    (hi : inner.Lawful) : (outer.compose inner).Lawful where
  preview_review b := by simp [compose, ho.preview_review, hi.preview_review]
  review_preview s b h := by
    obtain ⟨a, ha, hb⟩ := Option.bind_eq_some_iff.mp h
    calc outer.review (inner.review b) = outer.review a := by rw [hi.review_preview a b hb]
      _ = s := ho.review_preview s a ha

theorem Built.lawful {p : Prism S A} (h : p.Built) : p.Lawful := by
  induction h with
  | part h => exact h
  | compose _ _ ho hi => exact compose_lawful ho hi

/-- Another variant is left as it is. -/
theorem preview_modify {p : Prism S A} (h : p.Lawful) (s : S) (f : A → A) :
    p.preview (p.modify s f) = (p.preview s).map f := by
  rw [modify]
  split
  · next heq => simp [heq, h.preview_review]
  · next heq => simp [heq]

end Prism

/-! ## Traversals -/

/-- The closures that are passed in are `FnMut`. `σ` is what they own. -/
structure Traversal (S A : Type) where
  modify : {σ : Type} → S → (A → σ → A × σ) → σ → S × σ
  fold : {σ : Type} → S → (A → σ → σ) → σ → σ

namespace Traversal

/-- `over`, with a function that remembers. -/
def overMut {σ : Type} (t : Traversal S A) (source : S) (f : A → σ → A × σ) (st : σ) : S × σ :=
  t.modify source f st

def «over» (t : Traversal S A) (source : S) (f : A → A) : S :=
  (t.overMut source (fun a st => (f a, st)) ()).1

def foldEach {σ : Type} (t : Traversal S A) (source : S) (visit : A → σ → σ) (st : σ) : σ :=
  t.fold source visit st

def toVec (t : Traversal S A) (source : S) : List A :=
  t.foldEach source (fun a out => out ++ [a]) []

/-- The `for item in &mut vec` that assigns every element. -/
def mapEach {σ : Type} (f : A → σ → A × σ) : List A → σ → List A × σ
  | [], st => ([], st)
  | item :: vec, st =>
      let item' := f item st
      let vec' := mapEach f vec item'.2
      (item'.1 :: vec'.1, vec'.2)

/-- The `for` that visits every element. -/
def visitEach {σ : Type} (visit : A → σ → σ) (vec : List A) (st : σ) : σ :=
  vec.foldl (fun st item => visit item st) st

def vectorEach : Traversal (List A) A where
  modify vec f st := mapEach f vec st
  fold vec visit st := visitEach visit vec st

def atVec (lens : Lens S (List A)) : Traversal S A where
  modify s f st :=
    let vec := mapEach f (lens.get s) st
    (lens.set s vec.1, vec.2)
  fold s visit st := visitEach visit (lens.get s) st

def atOption (lens : Lens S (Option A)) : Traversal S A where
  modify s f st :=
    match lens.get s with
    | some value => (lens.set s (some (f value st).1), (f value st).2)
    | none => (lens.set s none, st)
  fold s visit st :=
    match lens.get s with
    | some value => visit value st
    | none => st

/-- What is passed through, and nothing is changed by the identity. -/
structure Lawful (t : Traversal S A) : Prop where
  toVec_over : ∀ s f, t.toVec (t.over s f) = (t.toVec s).map f
  over_id : ∀ s, t.over s id = s

end Traversal

namespace Lens

/-- The lens as a traversal over exactly one focus. -/
def asTraversal (l : Lens S A) : Traversal S A where
  modify s f st := (l.set s (f (l.get s) st).1, (f (l.get s) st).2)
  fold s visit st := visit (l.get s) st

def composeTraversal (l : Lens S A) (inner : Traversal A B) : Traversal S B where
  modify s f st :=
    let updated := inner.overMut (l.get s) f st
    (l.set s updated.1, updated.2)
  fold s visit st := inner.foldEach (l.get s) visit st

end Lens

namespace Traversal

inductive Built : {S A : Type} → Traversal S A → Prop where
  | part {S A : Type} {t : Traversal S A} (h : t.Lawful) : Built t
  | asTraversal {S A : Type} {l : Lens S A} (h : l.Built) : Built l.asTraversal
  | atVec {S A : Type} {lens : Lens S (List A)} (h : lens.Built) : Built (atVec lens)
  | atOption {S A : Type} {lens : Lens S (Option A)} (h : lens.Built) : Built (atOption lens)
  | composeTraversal {S A B : Type} {l : Lens S A} {inner : Traversal A B} (h : l.Built)
      (hinner : Built inner) : Built (l.composeTraversal inner)

variable {σ : Type}

theorem mapEach_pure (f : A → A) (vec : List A) (st : σ) :
    mapEach (fun a st => (f a, st)) vec st = (vec.map f, st) := by
  induction vec with
  | nil => rfl
  | cons item vec ih => simp [mapEach, ih]

theorem visitEach_push (vec out : List A) :
    visitEach (fun a out => out ++ [a]) vec out = out ++ vec := by
  induction vec generalizing out with
  | nil => simp [visitEach]
  | cons item vec ih =>
      have hrun := ih (out ++ [item])
      simp only [visitEach] at hrun
      simp only [visitEach, List.foldl_cons, hrun, List.append_assoc, List.singleton_append]

@[simp]
theorem toVec_atVec (lens : Lens S (List A)) (s : S) : (atVec lens).toVec s = lens.get s := by
  simp [toVec, foldEach, atVec, visitEach_push]

@[simp]
theorem over_atVec (lens : Lens S (List A)) (s : S) (f : A → A) :
    (atVec lens).over s f = lens.set s ((lens.get s).map f) := by
  simp [Traversal.over, overMut, atVec, mapEach_pure]

@[simp]
theorem toVec_atOption (lens : Lens S (Option A)) (s : S) :
    (atOption lens).toVec s = (lens.get s).toList := by
  simp only [toVec, foldEach, atOption]
  cases lens.get s <;> simp

@[simp]
theorem over_atOption (lens : Lens S (Option A)) (s : S) (f : A → A) :
    (atOption lens).over s f = lens.set s ((lens.get s).map f) := by
  simp only [Traversal.over, overMut, atOption]
  cases lens.get s <;> simp

@[simp]
theorem toVec_asTraversal (l : Lens S A) (s : S) : l.asTraversal.toVec s = [l.get s] := by
  simp [toVec, foldEach, Lens.asTraversal]

@[simp]
theorem over_asTraversal (l : Lens S A) (s : S) (f : A → A) :
    l.asTraversal.over s f = l.modify s f := by
  simp [Traversal.over, overMut, Lens.asTraversal, Lens.modify]

@[simp]
theorem toVec_composeTraversal (l : Lens S A) (inner : Traversal A B) (s : S) :
    (l.composeTraversal inner).toVec s = inner.toVec (l.get s) := by
  simp [toVec, foldEach, Lens.composeTraversal]

@[simp]
theorem over_composeTraversal (l : Lens S A) (inner : Traversal A B) (s : S) (f : B → B) :
    (l.composeTraversal inner).over s f = l.set s (inner.over (l.get s) f) := by
  simp [Traversal.over, overMut, Lens.composeTraversal]

/-- Every element of a vector is the vector itself, seen through the identity. -/
theorem vectorEach_eq : (vectorEach : Traversal (List A) A) = atVec Lens.identityLens := by
  rfl

theorem asTraversal_lawful {l : Lens S A} (h : l.Lawful) : l.asTraversal.Lawful where
  toVec_over s f := by simp [Lens.modify, h.get_set]
  over_id s := by simp [Lens.modify, h.set_get]

theorem atVec_lawful {lens : Lens S (List A)} (h : lens.Lawful) : (atVec lens).Lawful where
  toVec_over s f := by simp [h.get_set]
  over_id s := by simp [h.set_get]

theorem atOption_lawful {lens : Lens S (Option A)} (h : lens.Lawful) : (atOption lens).Lawful where
  toVec_over s f := by simp [h.get_set, Option.toList_map]
  over_id s := by simp [h.set_get]

theorem composeTraversal_lawful {l : Lens S A} {inner : Traversal A B} (h : l.Lawful)
    (hi : inner.Lawful) : (l.composeTraversal inner).Lawful where
  toVec_over s f := by simp [h.get_set, hi.toVec_over]
  over_id s := by simp [hi.over_id, h.set_get]

theorem vectorEach_lawful : (vectorEach : Traversal (List A) A).Lawful := by
  rw [vectorEach_eq]
  exact atVec_lawful Lens.identityLens_lawful

theorem Built.lawful {t : Traversal S A} (h : t.Built) : t.Lawful := by
  induction h with
  | part h => exact h
  | asTraversal h => exact asTraversal_lawful h.lawful
  | atVec h => exact atVec_lawful h.lawful
  | atOption h => exact atOption_lawful h.lawful
  | composeTraversal h _ hi => exact composeTraversal_lawful h.lawful hi

end Traversal

/-! ## Optionals -/

structure Optional (S A : Type) where
  lens : Lens S (Option A)

namespace Optional

def get (o : Optional S A) (source : S) : Option A := o.lens.get source

def setSome (o : Optional S A) (source : S) (value : A) : S := o.lens.set source (some value)

def setNone (o : Optional S A) (source : S) : S := o.lens.set source none

def modify (o : Optional S A) (source : S) (f : A → A) : S :=
  o.lens.modify source fun opt => opt.map f

def set (o : Optional S A) (source : S) (value : Option A) : S := o.lens.set source value

/-- The inner lens looks into the value that is there. -/
def compose (o : Optional S A) (inner : Lens A B) : Optional S B where
  lens :=
    { get s :=
        match o.lens.get s with
        | none => none
        | some value => some (inner.get value)
      set s value :=
        match value with
        | none => o.lens.set s none
        | some innerValue =>
            o.lens.modify s fun opt => opt.map fun item => inner.set item innerValue }

/-- The laws of a focus that can always be written to. -/
structure Lawful (o : Optional S A) : Prop where
  get_setSome : ∀ s v, o.get (o.setSome s v) = some v
  get_setNone : ∀ s, o.get (o.setNone s) = none
  set_get : ∀ s, o.set s (o.get s) = s
  set_set : ∀ s x y, o.set (o.set s x) y = o.set s y

/-- The focus is there, is cleared first, and then has to be filled again. -/
def Refills (o : Optional S A) (s : S) (x y : Option A) : Prop :=
  (o.get s).isSome ∧ x = none ∧ y.isSome

/-- The laws of any focus: it can be written to when it is there. -/
structure Partial (o : Optional S A) : Prop where
  get_setSome : ∀ s v, (o.get s).isSome → o.get (o.setSome s v) = some v
  get_setNone : ∀ s, o.get (o.setNone s) = none
  set_get : ∀ s, o.set s (o.get s) = s
  set_set : ∀ s x y, ¬ o.Refills s x y → o.set (o.set s x) y = o.set s y

/-- The laws of a composed focus: it can be written to just when it is there. -/
structure Focused (o : Optional S A) : Prop where
  get_setSome : ∀ s v, o.get (o.setSome s v) = some v ↔ (o.get s).isSome
  setSome_absent : ∀ s v, o.get s = none → o.setSome s v = s
  get_setNone : ∀ s, o.get (o.setNone s) = none
  set_get : ∀ s, o.set s (o.get s) = s
  set_set : ∀ s x y, o.set (o.set s x) y = o.set s y ↔ ¬ o.Refills s x y

/-- Built from lawful parts. The index says whether there was a compose step. -/
inductive Built : {S A : Type} → Bool → Optional S A → Prop where
  | part {S A : Type} {o : Optional S A} (h : o.Lawful) : Built false o
  | new {S A : Type} {lens : Lens S (Option A)} (h : lens.Built) : Built false ⟨lens⟩
  | compose {S A B : Type} {composed : Bool} {o : Optional S A} {inner : Lens A B}
      (ho : Built composed o) (hinner : inner.Built) : Built true (o.compose inner)

theorem Lawful.toPartial {o : Optional S A} (h : o.Lawful) : o.Partial where
  get_setSome s v _ := h.get_setSome s v
  get_setNone := h.get_setNone
  set_get := h.set_get
  set_set s x y _ := h.set_set s x y

theorem Focused.toPartial {o : Optional S A} (h : o.Focused) : o.Partial where
  get_setSome s v := (h.get_setSome s v).mpr
  get_setNone := h.get_setNone
  set_get := h.set_get
  set_set s x y := (h.set_set s x y).mpr

/-- A lawful lens into an `Option` makes an optional that can always be written to. -/
theorem new_lawful {lens : Lens S (Option A)} (h : lens.Lawful) : (Optional.mk lens).Lawful where
  get_setSome s v := h.get_set s (some v)
  get_setNone s := h.get_set s none
  set_get := h.set_get
  set_set := h.set_set

@[simp]
theorem set_none (o : Optional S A) (s : S) : o.set s none = o.setNone s := by
  rfl

@[simp]
theorem set_some (o : Optional S A) (s : S) (v : A) : o.set s (some v) = o.setSome s v := by
  rfl

/-! The four operations of a composed optional, by those of the outer one. -/

section Compose

variable {o : Optional S A} {inner : Lens A B} {s : S}

theorem get_compose (o : Optional S A) (inner : Lens A B) (s : S) :
    (o.compose inner).get s = (o.get s).map inner.get := by
  simp only [get, compose]
  cases o.lens.get s <;> simp

theorem setNone_compose (o : Optional S A) (inner : Lens A B) (s : S) :
    (o.compose inner).setNone s = o.setNone s := by
  rfl

theorem setSome_compose (o : Optional S A) (inner : Lens A B) (s : S) (b : B) :
    (o.compose inner).setSome s b = o.set s ((o.get s).map fun a => inner.set a b) := by
  rfl

theorem setSome_compose_absent (h : o.Partial) (habsent : o.get s = none) (b : B) :
    (o.compose inner).setSome s b = s := by
  rw [setSome_compose, habsent, Option.map_none]
  simpa only [habsent] using h.set_get s

theorem setSome_compose_present {a : A} (hpresent : o.get s = some a) (b : B) :
    (o.compose inner).setSome s b = o.setSome s (inner.set a b) := by
  rw [setSome_compose, hpresent, Option.map_some, set_some]

theorem setNone_absent (h : o.Partial) (habsent : o.get s = none) : o.setNone s = s := by
  simpa only [habsent, set_none] using h.set_get s

/-- Nothing can be written where the outer value is absent. -/
theorem set_compose_absent (h : o.Partial) (habsent : o.get s = none) (x : Option B) :
    (o.compose inner).set s x = s := by
  cases x with
  | none => rw [set_none, setNone_compose, setNone_absent h habsent]
  | some b => rw [set_some, setSome_compose_absent h habsent]

/-- After a value was written, the last write counts. -/
theorem set_setSome_compose (h : o.Partial) (hi : inner.Lawful) {a : A}
    (hpresent : o.get s = some a) (b : B) (y : Option B) :
    (o.compose inner).set ((o.compose inner).setSome s b) y = (o.compose inner).set s y := by
  have hnot : ∀ y', ¬ o.Refills s (some (inner.set a b)) y' := by simp [Refills]
  have hget : o.get (o.setSome s (inner.set a b)) = some (inner.set a b) :=
    h.get_setSome s _ (by simp [hpresent])
  rw [setSome_compose_present hpresent]
  cases y with
  | none =>
      rw [set_none, set_none, setNone_compose, setNone_compose]
      exact h.set_set s (some (inner.set a b)) none (hnot none)
  | some c =>
      rw [set_some, set_some, setSome_compose_present hget, setSome_compose_present hpresent,
        hi.set_set]
      exact h.set_set s (some (inner.set a b)) (some (inner.set a c)) (hnot _)

/-- After it was cleared, it stays cleared. -/
theorem set_setNone_compose (h : o.Partial) (y : Option B) :
    (o.compose inner).set ((o.compose inner).setNone s) y = o.setNone s :=
  set_compose_absent h (h.get_setNone s) y

theorem compose_focused (h : o.Partial) (hi : inner.Lawful) : (o.compose inner).Focused where
  get_setSome s v := by
    cases hs : o.get s with
    | none => simp [get_compose, setSome_compose_absent h hs, hs]
    | some a =>
        have hget := h.get_setSome s (inner.set a v) (by simp [hs])
        simp [get_compose, setSome_compose_present hs, hget, hi.get_set, hs]
  setSome_absent s v hs := by
    rw [get_compose, Option.map_eq_none_iff] at hs
    exact setSome_compose_absent h hs v
  get_setNone s := by simp [get_compose, setNone_compose, h.get_setNone]
  set_get s := by
    cases hs : o.get s with
    | none => exact set_compose_absent h hs _
    | some a =>
        rw [get_compose, hs, Option.map_some, set_some, setSome_compose_present hs, hi.set_get]
        simpa only [hs, set_some] using h.set_get s
  set_set s x y := by
    cases hs : o.get s with
    | none => simp [set_compose_absent h hs, Refills, get_compose, hs]
    | some a =>
        cases x with
        | some b => simp [set_setSome_compose h hi hs, Refills]
        | none =>
            rw [set_none, set_setNone_compose h]
            cases y with
            | none => simp [Refills, setNone_compose]
            | some c =>
                have hne : o.setNone s ≠ o.setSome s (inner.set a c) := fun heq => by
                  have hget := h.get_setSome s (inner.set a c) (by simp [hs])
                  rw [← heq, h.get_setNone] at hget
                  cases hget
                simp [setSome_compose_present hs, hne, Refills, get_compose, hs]

end Compose

/-- By induction on the compose steps. -/
theorem Built.laws {composed : Bool} {o : Optional S A} (h : o.Built composed) :
    o.Partial ∧ (composed = false → o.Lawful) ∧ (composed = true → o.Focused) := by
  induction h with
  | part h => exact ⟨h.toPartial, fun _ => h, nofun⟩
  | new h =>
      have hlawful := new_lawful h.lawful
      exact ⟨hlawful.toPartial, fun _ => hlawful, nofun⟩
  | compose _ hinner ih =>
      have hfocused := compose_focused ih.1 hinner.lawful
      exact ⟨hfocused.toPartial, nofun, fun _ => hfocused⟩

end Optional

/-- The laws that pass to whatever is built from lawful parts. Only an optional loses some by its
    first compose step, and then it keeps what it has. -/
theorem built_laws {S' A' T B' U C' : Type} (l : Lens S A) (p : Prism S' A') (t : Traversal T B')
    (o : Optional U C') :
    (l.Built → l.Lawful) ∧ (p.Built → p.Lawful) ∧ (t.Built → t.Lawful)
      ∧ (o.Built false → o.Lawful) ∧ (o.Built true → o.Focused) :=
  ⟨fun h => h.lawful, fun h => h.lawful, fun h => h.lawful, fun h => h.laws.2.1 rfl,
    fun h => h.laws.2.2 rfl⟩

/-- A focus of one compose step: an `Option` as a whole, and then the whole of its value. -/
def nickname : Optional (Option ℕ) ℕ := Optional.compose ⟨Lens.identityLens⟩ Lens.identityLens

theorem nickname_built : nickname.Built true :=
  .compose (.new (.part Lens.identityLens_lawful)) (.part Lens.identityLens_lawful)

/-- A value that is absent stays absent, and one that was cleared does not come back. -/
theorem nickname_not_set :
    nickname.Built true
      ∧ nickname.get (nickname.setSome none 1) ≠ some 1
      ∧ nickname.set (nickname.set (some 0) none) (some 1) ≠ nickname.set (some 0) (some 1) :=
  ⟨nickname_built, by decide, by decide⟩

theorem nickname_laws :
    (Lens.identityLens.compose Lens.identityLens : Lens ℕ ℕ).Lawful
      ∧ (Prism.somePrism.compose Prism.somePrism : Prism (Option (Option ℕ)) ℕ).Lawful
      ∧ (Lens.identityLens.composeTraversal Traversal.vectorEach : Traversal (List ℕ) ℕ).Lawful
      ∧ (Optional.mk Lens.identityLens : Optional (Option ℕ) ℕ).Lawful ∧ nickname.Focused := by
  have hlens : (Lens.identityLens : Lens ℕ ℕ).Built := .part Lens.identityLens_lawful
  have hprism : (Prism.somePrism : Prism (Option ℕ) ℕ).Built := .part Prism.somePrism_lawful
  have hprism' : (Prism.somePrism : Prism (Option (Option ℕ)) (Option ℕ)).Built :=
    .part Prism.somePrism_lawful
  have hvec : (Traversal.vectorEach : Traversal (List ℕ) ℕ).Built :=
    .part Traversal.vectorEach_lawful
  have hopt : (Lens.identityLens : Lens (Option ℕ) (Option ℕ)).Built :=
    .part Lens.identityLens_lawful
  have laws := built_laws (Lens.identityLens.compose Lens.identityLens : Lens ℕ ℕ)
    (Prism.somePrism.compose Prism.somePrism : Prism (Option (Option ℕ)) ℕ)
    (Lens.identityLens.composeTraversal Traversal.vectorEach : Traversal (List ℕ) ℕ) nickname
  have lawsNew := built_laws (Lens.identityLens : Lens ℕ ℕ) (Prism.somePrism : Prism (Option ℕ) ℕ)
    (Traversal.vectorEach : Traversal (List ℕ) ℕ)
    (Optional.mk (Lens.identityLens : Lens (Option ℕ) (Option ℕ)))
  exact ⟨laws.1 (.compose hlens hlens), laws.2.1 (.compose hprism' hprism),
    laws.2.2.1 (.composeTraversal (.part Lens.identityLens_lawful) hvec),
    lawsNew.2.2.2.1 (.new hopt), laws.2.2.2.2 nickname_built⟩

end IdEffect.Composition
