import Mathlib.Data.List.Forall2

set_option autoImplicit false

/-! # One by one, or in phases

Each element of a list is first prepared and then performed, and either may fail. This can be done
element by element, or all can be prepared before any is performed. The results are the same; which
failure comes first is not, if the one is a failure to perform an element, and a later element
cannot be prepared (`inPhases_eq_iff`). -/

namespace Phases

variable {α β γ ε : Type}

theorem mapM_cons (f : α → Except ε β) (a : α) (l : List α) :
    (a :: l).mapM f
      = match f a with
        | .error e => .error e
        | .ok b => (l.mapM f).map (b :: ·) := by
  rw [List.mapM_cons]
  cases f a with
  | error e => rfl
  | ok b => cases l.mapM f <;> rfl

def oneByOne (prepare : α → Except ε β) (perform : β → Except ε γ) (l : List α) :
    Except ε (List γ) :=
  l.mapM fun a => prepare a >>= perform

def inPhases (prepare : α → Except ε β) (perform : β → Except ε γ) (l : List α) :
    Except ε (List γ) :=
  l.mapM prepare >>= fun bs => bs.mapM perform

/-- Whether an element can be prepared. -/
def ready (prepare : α → Except ε β) (a : α) : Except ε Unit := (prepare a).map fun _ => ()

/-- The first element that fails, if it fails when it is performed, is not followed by one that
    cannot be prepared, unless the failure is the same. -/
def InOrder (ready : α → Except ε Unit) (whole : α → Except ε γ) : List α → Prop
  | [] => True
  | a :: l => ready a = .ok () →
      (∀ c, whole a = .ok c → InOrder ready whole l)
        ∧ ∀ e e', whole a = .error e → l.mapM ready = .error e' → e' = e

theorem mapM_ready (prepare : α → Except ε β) (l : List α) :
    l.mapM (ready prepare) = (l.mapM prepare).map (List.map fun _ => ()) := by
  induction l with
  | nil => rfl
  | cons a l ih =>
      rw [mapM_cons, mapM_cons, ready, ih]
      cases prepare a with
      | error e => rfl
      | ok b => cases l.mapM prepare <;> rfl

theorem map_eq_error_iff {f : α → β} {x : Except ε α} {e : ε} :
    x.map f = .error e ↔ x = .error e := by
  cases x with
  | error e' => simp [Except.map]
  | ok a => simp [Except.map]

theorem map_cons_inj {b : β} {x y : Except ε (List β)} :
    x.map (b :: ·) = y.map (b :: ·) ↔ x = y := by
  cases x with
  | error e => cases y <;> simp [Except.map]
  | ok bs => cases y <;> simp [Except.map]

theorem inPhases_cons (prepare : α → Except ε β) (perform : β → Except ε γ) (a : α) (l : List α) :
    inPhases prepare perform (a :: l)
      = match prepare a with
        | .error e => .error e
        | .ok b =>
            match l.mapM prepare with
            | .error e => .error e
            | .ok bs =>
                match perform b with
                | .error e => .error e
                | .ok c => (bs.mapM perform).map (c :: ·) := by
  rw [inPhases, mapM_cons]
  cases prepare a with
  | error e => rfl
  | ok b =>
      cases l.mapM prepare with
      | error e => rfl
      | ok bs => exact mapM_cons perform b bs

/-- **The two ways come to the same, unless a failure comes first that should not.** -/
theorem inPhases_eq_iff (prepare : α → Except ε β) (perform : β → Except ε γ) (l : List α) :
    inPhases prepare perform l = oneByOne prepare perform l
      ↔ InOrder (ready prepare) (fun a => prepare a >>= perform) l := by
  induction l with
  | nil => exact iff_of_true rfl trivial
  | cons a l ih =>
      rw [inPhases_cons, oneByOne, mapM_cons, InOrder, mapM_ready, ready]
      simp only [map_eq_error_iff]
      rw [inPhases, oneByOne] at ih
      cases prepare a with
      | error e => exact iff_of_true rfl fun h => by cases h
      | ok b =>
          refine Iff.trans ?_ (forall_prop_of_true rfl).symm
          simp only [bind, Except.bind] at ih ⊢
          cases hb : perform b with
          | error e => cases l.mapM prepare <;> simp
          | ok c =>
              have htail := ih
              rw [← map_cons_inj (b := c)] at htail
              cases hl : l.mapM prepare with
              | error e =>
                  rw [hl] at htail
                  simpa [Except.map] using htail
              | ok bs =>
                  rw [hl] at htail
                  simpa using htail

theorem map_ok_iff {x y : Except ε α} (h : ∀ a, x = .ok a ↔ y = .ok a) (f : α → β) (b : β) :
    x.map f = .ok b ↔ y.map f = .ok b := by
  cases x with
  | ok a =>
      rw [(h a).1 rfl]
  | error e =>
      cases y with
      | ok a => cases (h a).2 rfl
      | error e' => simp [Except.map]

theorem inPhases_ok_iff (prepare : α → Except ε β) (perform : β → Except ε γ) (l : List α)
    (cs : List γ) : inPhases prepare perform l = .ok cs ↔ oneByOne prepare perform l = .ok cs := by
  induction l generalizing cs with
  | nil => exact Iff.rfl
  | cons a l ih =>
      rw [inPhases_cons, oneByOne, mapM_cons]
      rw [inPhases, oneByOne] at ih
      cases prepare a with
      | error e => exact Iff.rfl
      | ok b =>
          simp only [bind, Except.bind] at ih ⊢
          cases hb : perform b with
          | error e => cases l.mapM prepare <;> simp
          | ok c =>
              have htail := map_ok_iff ih (c :: ·) cs
              cases hl : l.mapM prepare with
              | error e =>
                  rw [hl] at htail
                  simpa [Except.map] using htail
              | ok bs =>
                  rw [hl] at htail
                  simpa using htail

/-! ## Pieces -/

/-- `P` holds of each element that is got to: all before it meet `ok`. -/
def Until (ok P : α → Prop) : List α → Prop
  | [] => True
  | a :: l => P a ∧ (ok a → Until ok P l)

theorem mapM_ok_iff {f : α → Except ε γ} {g : β → Except ε γ} {l : List α} {l' : List β}
    (h : List.Forall₂ (fun a b => ∀ c, f a = .ok c ↔ g b = .ok c) l l') (cs : List γ) :
    l.mapM f = .ok cs ↔ l'.mapM g = .ok cs := by
  induction h generalizing cs with
  | nil => exact Iff.rfl
  | @cons a b l l' hab _ ih =>
      rw [mapM_cons, mapM_cons]
      cases hg : g b with
      | ok c =>
          rw [(hab c).2 hg]
          exact map_ok_iff ih _ _
      | error e =>
          cases hf : f a with
          | ok c => cases hg.symm.trans ((hab c).1 hf)
          | error e' => simp

/-- Two functions that succeed on the same elements come to the same if they do on each element that
    is got to. -/
theorem mapM_eq_iff {f : α → Except ε γ} {g : β → Except ε γ} {P : β → Prop} {l : List α}
    {l' : List β}
    (h : List.Forall₂ (fun a b => (∀ c, f a = .ok c ↔ g b = .ok c) ∧ (f a = g b ↔ P b)) l l') :
    l.mapM f = l'.mapM g ↔ Until (fun b => ∃ c, g b = .ok c) P l' := by
  induction h with
  | nil => exact iff_of_true rfl trivial
  | @cons a b l l' hab _ ih =>
      obtain ⟨hok, hP⟩ := hab
      rw [mapM_cons, mapM_cons, Until, ← hP]
      cases hg : g b with
      | ok c =>
          rw [(hok c).2 hg]
          simpa [map_cons_inj] using ih
      | error e =>
          cases hf : f a with
          | ok c => cases hg.symm.trans ((hok c).1 hf)
          | error e' => simp

theorem map_eq_map_iff {x y : Except ε α} (h : ∀ a, x = .ok a ↔ y = .ok a) (f : α → β) :
    x.map f = y.map f ↔ x = y := by
  cases x with
  | ok a => exact iff_of_true (by rw [(h a).1 rfl]) ((h a).1 rfl).symm
  | error e =>
      cases y with
      | ok a => cases (h a).2 rfl
      | error e' => simp [Except.map]

theorem length_of_mapM_ok {f : α → Except ε β} {l : List α} {bs : List β}
    (h : l.mapM f = .ok bs) : bs.length = l.length := by
  induction l generalizing bs with
  | nil =>
      obtain rfl := Except.ok.inj h
      rfl
  | cons a l ih =>
      rw [mapM_cons] at h
      cases hf : f a with
      | error e =>
          rw [hf] at h
          cases h
      | ok b =>
          rw [hf] at h
          cases hl : l.mapM f with
          | error e =>
              rw [hl] at h
              cases h
          | ok bs' =>
              rw [hl] at h
              obtain rfl := Except.ok.inj h
              exact congrArg (· + 1) (ih hl)

theorem length_of_inPhases {prepare : α → Except ε β} {perform : β → Except ε γ} {l : List α}
    {cs : List γ} (h : inPhases prepare perform l = .ok cs) : cs.length = l.length :=
  length_of_mapM_ok ((inPhases_ok_iff prepare perform l cs).1 h)

theorem mapM_singleton (f : α → Except ε β) (l : List α) :
    (l.mapM fun a => (f a).map fun b => [b]).map List.flatten = l.mapM f := by
  induction l with
  | nil => rfl
  | cons a l ih =>
      rw [mapM_cons, mapM_cons, ← ih]
      cases f a with
      | error e => rfl
      | ok b => cases l.mapM fun a => (f a).map fun b => [b] <;> rfl

theorem mapM_flatten (f : α → Except ε β) (l : List (List α)) :
    l.flatten.mapM f = (l.mapM fun as : List α => as.mapM f).map List.flatten := by
  induction l with
  | nil => rfl
  | cons as l ih =>
      rw [List.flatten_cons, List.mapM_append, mapM_cons, ih]
      cases as.mapM f with
      | error e => rfl
      | ok bs => cases l.mapM fun as : List α => as.mapM f <;> rfl

theorem map_map (f : α → β) (g : β → γ) (x : Except ε α) :
    (x.map f).map g = x.map fun a => g (f a) := by
  cases x <;> rfl

/-! ## Lists of the same -/

theorem exists_of_mem_forall₂ {R : α → β → Prop} {l : List α} {l' : List β}
    (h : List.Forall₂ R l l') : ∀ a ∈ l, ∃ b ∈ l', R a b := by
  induction h with
  | nil => exact fun a ha => absurd ha List.not_mem_nil
  | cons hab _ ih =>
      rw [List.forall_mem_cons]
      refine ⟨⟨_, List.mem_cons_self, hab⟩, fun a ha => ?_⟩
      obtain ⟨b, hb, h⟩ := ih a ha
      exact ⟨b, List.mem_cons_of_mem _ hb, h⟩

theorem exists_forall₂ {R : α → β → Prop} {l : List α} (h : ∀ a ∈ l, ∃ b, R a b) :
    ∃ bs, List.Forall₂ R l bs := by
  induction l with
  | nil => exact ⟨[], .nil⟩
  | cons a l ih =>
      obtain ⟨b, hb⟩ := h a List.mem_cons_self
      obtain ⟨bs, hbs⟩ := ih fun c hc => h c (List.mem_cons_of_mem a hc)
      exact ⟨b :: bs, .cons hb hbs⟩

theorem pairwise_of_forall₂ {R : α → β → Prop} {P : α → α → Prop} {Q : β → β → Prop} {l : List α}
    {l' : List β} (h : List.Forall₂ R l l') (hP : l.Pairwise P)
    (hPQ : ∀ a b c d, R a b → R c d → P a c → Q b d) : l'.Pairwise Q := by
  induction h with
  | nil => exact .nil
  | @cons a b l l' hab hl ih =>
      obtain ⟨hhead, htail⟩ := List.pairwise_cons.1 hP
      refine .cons (fun d hd => ?_) (ih htail)
      obtain ⟨c, hc, hcd⟩ := exists_of_mem_forall₂ hl.flip d hd
      exact hPQ a b c d hab hcd (hhead c hc)

theorem mapM_eq_some_iff {f : α → Option β} {l : List α} : ∀ {bs : List β},
    l.mapM f = some bs ↔ List.Forall₂ (fun a b => f a = some b) l bs := by
  induction l with
  | nil =>
      intro bs
      rw [List.forall₂_nil_left_iff]
      exact Option.some_inj.trans eq_comm
  | cons a l ih =>
      intro bs
      rw [List.mapM_cons, List.forall₂_cons_left_iff]
      simp only [← ih, bind, Option.bind_eq_some_iff, pure, Option.some.injEq]
      constructor
      · rintro ⟨b, hb, bs', hbs, rfl⟩
        exact ⟨b, bs', hb, hbs, rfl⟩
      · rintro ⟨b, bs', hb, hbs, rfl⟩
        exact ⟨b, hb, bs', hbs, rfl⟩

theorem mapM_forall₂ {f : α → Except ε γ} {g : β → Except ε γ} {l : List α} {l' : List β}
    (h : List.Forall₂ (fun a b => f a = g b) l l') : l.mapM f = l'.mapM g := by
  induction h with
  | nil => rfl
  | cons hab _ ih => rw [mapM_cons, mapM_cons, hab, ih]

theorem inOrder_forall₂ {ready : α → Except ε Unit} {whole : α → Except ε γ}
    {ready' : β → Except ε Unit} {whole' : β → Except ε γ} {l : List α} {l' : List β}
    (h : List.Forall₂ (fun a b => ready a = ready' b ∧ whole a = whole' b) l l') :
    InOrder ready whole l ↔ InOrder ready' whole' l' := by
  induction h with
  | nil => exact Iff.rfl
  | cons hab hl ih =>
      rw [InOrder, InOrder, hab.1, hab.2, ih, mapM_forall₂ (hl.imp fun _ _ h => h.1)]

end Phases
