import IdEffect.Resource.Pool

set_option autoImplicit false

/-! # The permits of a pool and the finalizers that release them

A call registers two finalizers on its scope: first the release of its permit, later the check-in of
its item. `Permits` says where they are in every state: the release of a permit is registered at
most once, under the call's scope, and only while the permit is held; a check-in is registered only
for a call that has returned its item; and each check-in is above the release of its call's permit,
among the registered finalizers of a scope and among those its close is running (`Above`), so it
runs first.

The last needs the scope to be open when the check-in is registered. If it is being closed, the
drain may have taken the release of the permit already, or may be repeated and lose it
(`Sys.drainLost`), and the check-in would outlive the permit. So `Permits` is carried along the runs
in which every `get` runs while its scope is open (`OpenScope`). -/

namespace IdEffect.Pool

open Transition

variable {A E Tid Sid : Type} [DecidableEq A] [DecidableEq Tid] [DecidableEq Sid]
variable {pool : Config} {s s' : Sys A Tid Sid} {l : Label A E Tid Sid}

/-- The scope of a call that has been granted a permit and is past its registration, until its item
    is checked in. -/
def Call.covered : Call A Sid → Option Sid
  | .acquired sc => some sc
  | .making sc => some sc
  | .holding sc _ => some sc
  | .addingCheckIn sc _ => some sc
  | .out sc _ => some sc
  | _ => none

omit [DecidableEq A] [DecidableEq Sid] in
theorem Call.scope_of_covered {c : Call A Sid} {sc : Sid} (h : c.covered = some sc) :
    c.scope = some sc := by
  cases c with
  | acquired _ => exact h
  | making _ => exact h
  | holding _ _ => exact h
  | addingCheckIn _ _ => exact h
  | out _ _ => exact h
  | _ => cases h

/-- The call has no permit yet. -/
def Call.early : Call A Sid → Bool
  | .idle => true
  | .acquiring _ => true
  | _ => false

/-- The call has a permit whose release is not yet registered. -/
def Call.inHand : Call A Sid → Bool
  | .granted _ => true
  | .addingPermit _ => true
  | _ => false

def Call.unregistered (c : Call A Sid) : Bool := c.early || c.inHand

/-- Each check-in is above the release of its call's permit. -/
def Above : List (Finalizer A Tid) → Prop
  | [] => True
  | .permit _ :: fs => Above fs
  | .checkIn t _ :: fs => .permit t ∈ fs ∧ Above fs

/-- All finalizers of a scope that have not run. -/
def Sys.finalizers (s : Sys A Tid Sid) (sc : Sid) : List (Finalizer A Tid) :=
  s.bucket sc ++ s.closing sc

structure Permits (pool : Config) (s : Sys A Tid Sid) : Prop where
  nodup : s.holders.Nodup
  granted : s.holders.length ≤ pool.capacity
  holder : ∀ t ∈ s.holders, (s.calls t).early = false
  inHand : ∀ t, (s.calls t).inHand = true → t ∈ s.holders
  unique : ∀ sc, (s.finalizers sc).Nodup
  permit : ∀ sc t, .permit t ∈ s.finalizers sc →
    t ∈ s.holders ∧ (s.calls t).scope = some sc ∧ (s.calls t).unregistered = false
  checkIn : ∀ sc t a, .checkIn t a ∈ s.finalizers sc → s.calls t = .out sc a
  bucketAbove : ∀ sc, Above (s.bucket sc)
  closingAbove : ∀ sc, Above (s.closing sc)
  covered : ∀ t sc, (s.calls t).covered = some sc → s.closed sc = false → .permit t ∈ s.bucket sc
  refused : ∀ t sc a, s.calls t = .unscoped sc a → s.closed sc = true

omit [DecidableEq A] [DecidableEq Tid] [DecidableEq Sid] in
theorem Permits.init (pool : Config) : Permits pool (Sys.init : Sys A Tid Sid) where
  nodup := .nil
  granted := Nat.zero_le _
  holder := by simp [Sys.init]
  inHand := by simp [Sys.init, Call.inHand]
  unique := by simp [Sys.init, Sys.finalizers]
  permit := by simp [Sys.init, Sys.finalizers]
  checkIn := by simp [Sys.init, Sys.finalizers]
  bucketAbove := fun _ => trivial
  closingAbove := fun _ => trivial
  covered := by simp [Sys.init, Call.covered]
  refused := by simp [Sys.init]

/-- Every step of a `get` is made while its scope is open. -/
def OpenScope (s : Sys A Tid Sid) : Label A E Tid Sid → Prop
  | .step t => ∀ sc ∈ (s.calls t).scope, s.closed sc = false
  | .factory t _ => ∀ sc ∈ (s.calls t).scope, s.closed sc = false
  | _ => True

instance decidableOpenScope (s : Sys A Tid Sid) :
    ∀ l : Label A E Tid Sid, Decidable (OpenScope s l)
  | .step t => inferInstanceAs (Decidable (∀ sc ∈ (s.calls t).scope, s.closed sc = false))
  | .factory t _ => inferInstanceAs (Decidable (∀ sc ∈ (s.calls t).scope, s.closed sc = false))
  | .get _ _ => .isTrue trivial
  | .invalidate _ => .isTrue trivial
  | .close _ => .isTrue trivial
  | .drain _ _ => .isTrue trivial
  | .finalize _ => .isTrue trivial
  | .tick _ => .isTrue trivial

omit [DecidableEq A] [DecidableEq Sid] in
/-- A call moves on without touching anything else. -/
theorem Permits.setCall (hs : Permits pool s) {t : Tid} {c : Call A Sid}
    (hholder : t ∈ s.holders → c.early = false) (hinHand : c.inHand = true → t ∈ s.holders)
    (hpermit : ∀ sc, .permit t ∈ s.finalizers sc → c.scope = some sc ∧ c.unregistered = false)
    (hcheckIn : ∀ sc a, .checkIn t a ∈ s.finalizers sc → c = .out sc a)
    (hcovered : ∀ sc, c.covered = some sc → s.closed sc = false → .permit t ∈ s.bucket sc)
    (hrefused : ∀ sc a, c = .unscoped sc a → s.closed sc = true) :
    Permits pool (s.setCall t c) where
  nodup := hs.nodup
  granted := hs.granted
  holder := by
    intro u hu
    rw [setCall_calls]
    split
    · next hut => exact hholder (hut ▸ hu)
    · exact hs.holder u hu
  inHand := by
    intro u hu
    rw [setCall_calls] at hu
    split at hu
    · next hut => exact hut ▸ hinHand hu
    · exact hs.inHand u hu
  unique := hs.unique
  permit := by
    intro sc u hu
    refine ⟨(hs.permit sc u hu).1, ?_⟩
    rw [setCall_calls]
    split
    · next hut => exact hpermit sc (hut ▸ hu)
    · exact (hs.permit sc u hu).2
  checkIn := by
    intro sc u a hu
    rw [setCall_calls]
    split
    · next hut => exact hcheckIn sc a (hut ▸ hu)
    · exact hs.checkIn sc u a hu
  bucketAbove := hs.bucketAbove
  closingAbove := hs.closingAbove
  covered := by
    intro u sc hu hcl
    rw [setCall_calls] at hu
    split at hu
    · next hut => exact hut ▸ hcovered sc hu hcl
    · exact hs.covered u sc hu hcl
  refused := by
    intro u sc a hu
    rw [setCall_calls] at hu
    split at hu
    · exact hrefused sc a hu
    · exact hs.refused u sc a hu

omit [DecidableEq A] [DecidableEq Tid] [DecidableEq Sid] in
/-- Nothing here depends on the pool's own state. -/
theorem Permits.setPool (hs : Permits pool s) (st : PoolState A) : Permits pool (s.setPool st) :=
  ⟨hs.nodup, hs.granted, hs.holder, hs.inHand, hs.unique, hs.permit, hs.checkIn, hs.bucketAbove,
    hs.closingAbove, hs.covered, hs.refused⟩

omit [DecidableEq A] [DecidableEq Tid] [DecidableEq Sid] in
theorem Permits.addMade (hs : Permits pool s) (made : List A) :
    Permits pool { s with made := made } :=
  ⟨hs.nodup, hs.granted, hs.holder, hs.inHand, hs.unique, hs.permit, hs.checkIn, hs.bucketAbove,
    hs.closingAbove, hs.covered, hs.refused⟩

omit [DecidableEq A] [DecidableEq Tid] [DecidableEq Sid] in
theorem Permits.not_mem_of_unregistered (hs : Permits pool s) {t : Tid}
    (h : (s.calls t).unregistered = true) (sc : Sid) : .permit t ∉ s.finalizers sc := by
  intro hmem
  rw [(hs.permit sc t hmem).2.2] at h
  cases h

omit [DecidableEq A] [DecidableEq Tid] [DecidableEq Sid] in
theorem Permits.checkIn_not_mem (hs : Permits pool s) {t : Tid}
    (h : ∀ sc a, s.calls t ≠ .out sc a) (sc : Sid) (a : A) : .checkIn t a ∉ s.finalizers sc :=
  fun hmem => h sc a (hs.checkIn sc t a hmem)

omit [DecidableEq A] [DecidableEq Sid] in
/-- A call that has registered nothing moves on. -/
theorem Permits.setCall_unregistered (hs : Permits pool s) {t : Tid} {c : Call A Sid}
    (hun : (s.calls t).unregistered = true) (hout : ∀ sc a, s.calls t ≠ .out sc a)
    (hearly : t ∈ s.holders → c.early = false) (hhand : c.inHand = true → t ∈ s.holders)
    (hcovered : ∀ sc, c.covered ≠ some sc) (hscoped : ∀ sc a, c ≠ .unscoped sc a) :
    Permits pool (s.setCall t c) := by
  refine hs.setCall hearly hhand ?_ ?_ ?_ ?_
  · intro sc hmem
    exact absurd hmem (hs.not_mem_of_unregistered hun sc)
  · intro sc a hmem
    exact absurd hmem (hs.checkIn_not_mem hout sc a)
  · exact fun sc hc => absurd hc (hcovered sc)
  · exact fun sc a hc => absurd hc (hscoped sc a)

omit [DecidableEq A] [DecidableEq Sid] in
theorem Permits.grant (hs : Permits pool s) {t : Tid} {sc : Sid} (h : s.calls t = .acquiring sc)
    (hfree : s.holders.length < pool.capacity) :
    Permits pool ((s.grant t).setCall t (.granted sc)) := by
  have hnew : t ∉ s.holders := by
    intro hmem
    have := hs.holder t hmem
    simp [h, Call.early] at this
  have hnone := hs.not_mem_of_unregistered (t := t) (by simp [h, Call.unregistered, Call.early])
  have hout := hs.checkIn_not_mem (t := t) (by simp [h])
  have hcalls : ∀ u, u ≠ t → ((s.grant t).setCall t (.granted sc)).calls u = s.calls u := by
    intro u hu
    rw [setCall_calls, if_neg hu]
    rfl
  refine ⟨List.nodup_cons.2 ⟨hnew, hs.nodup⟩, hfree, ?_, ?_, hs.unique, ?_, ?_, hs.bucketAbove,
    hs.closingAbove, ?_, ?_⟩
  · intro u hu
    by_cases hut : u = t
    · simp [hut, Call.early]
    · rw [hcalls u hut]
      exact hs.holder u (List.mem_of_ne_of_mem hut hu)
  · intro u hu
    by_cases hut : u = t
    · exact hut ▸ List.mem_cons_self
    · rw [hcalls u hut] at hu
      exact List.mem_cons_of_mem _ (hs.inHand u hu)
  · intro sc' u hu
    have hut : u ≠ t := fun heq => hnone sc' (heq ▸ hu)
    rw [hcalls u hut]
    exact ⟨List.mem_cons_of_mem _ (hs.permit sc' u hu).1, (hs.permit sc' u hu).2⟩
  · intro sc' u a hu
    have hut : u ≠ t := fun heq => hout sc' a (heq ▸ hu)
    rw [hcalls u hut]
    exact hs.checkIn sc' u a hu
  · intro u sc' hu
    by_cases hut : u = t
    · simp [hut, Call.covered] at hu
    · rw [hcalls u hut] at hu
      exact hs.covered u sc' hu
  · intro u sc' a hu
    by_cases hut : u = t
    · simp [hut] at hu
    · rw [hcalls u hut] at hu
      exact hs.refused u sc' a hu

omit [DecidableEq A] [DecidableEq Sid] in
/-- A permit whose release is registered nowhere is released. -/
theorem Permits.release (hs : Permits pool s) {t : Tid} (hin : (s.calls t).inHand = false)
    (hnone : ∀ sc, .permit t ∉ s.finalizers sc) : Permits pool (s.release t) where
  nodup := hs.nodup.erase t
  granted := Nat.le_trans List.length_erase_le hs.granted
  holder := fun u hu => hs.holder u (List.mem_of_mem_erase hu)
  inHand := by
    intro u hu
    have hut : u ≠ t := by
      rintro rfl
      exact Bool.false_ne_true (hin.symm.trans hu)
    exact (List.mem_erase_of_ne hut).2 (hs.inHand u hu)
  unique := hs.unique
  permit := by
    intro sc u hu
    have hut : u ≠ t := fun heq => hnone sc (heq ▸ hu)
    exact ⟨(List.mem_erase_of_ne hut).2 (hs.permit sc u hu).1, (hs.permit sc u hu).2⟩
  checkIn := hs.checkIn
  bucketAbove := hs.bucketAbove
  closingAbove := hs.closingAbove
  covered := hs.covered
  refused := hs.refused

omit [DecidableEq A] [DecidableEq Tid] in
theorem push_bucket (sc sc' : Sid) (f : Finalizer A Tid) :
    (s.push sc f).bucket sc' = if sc' = sc then f :: s.bucket sc' else s.bucket sc' := by
  by_cases h : sc' = sc
  · subst h
    simp [Sys.push]
  · simp [Sys.push, h]

omit [DecidableEq A] [DecidableEq Tid] in
theorem mem_push (sc sc' : Sid) (f g : Finalizer A Tid) :
    g ∈ (s.push sc f).finalizers sc' ↔ sc' = sc ∧ g = f ∨ g ∈ s.finalizers sc' := by
  unfold Sys.finalizers
  rw [push_bucket]
  by_cases h : sc' = sc
  · simp only [h, if_true, List.cons_append, List.mem_cons, true_and]
    rfl
  · simp only [h, if_false, false_and, false_or]
    rfl

/-- The call that registered a finalizer. -/
def Finalizer.owner : Finalizer A Tid → Tid
  | .permit t => t
  | .checkIn t _ => t

omit [DecidableEq A] [DecidableEq Tid] in
/-- The finalizers of other calls were there before. -/
theorem mem_of_mem_push {sc sc' : Sid} {f g : Finalizer A Tid}
    (h : g ∈ (s.push sc f).finalizers sc') (hne : g.owner ≠ f.owner) : g ∈ s.finalizers sc' := by
  rcases (mem_push sc sc' f g).1 h with ⟨_, rfl⟩ | hold
  · exact absurd rfl hne
  · exact hold

omit [DecidableEq A] [DecidableEq Tid] in
/-- A finalizer is registered that is registered nowhere. -/
theorem nodup_push {sc : Sid} {f : Finalizer A Tid} (h : ∀ sc', (s.finalizers sc').Nodup)
    (hf : f ∉ s.finalizers sc) (sc' : Sid) : ((s.push sc f).finalizers sc').Nodup := by
  unfold Sys.finalizers
  rw [push_bucket]
  split
  · next heq =>
      subst heq
      exact List.nodup_cons.2 ⟨hf, h sc'⟩
  · exact h sc'

omit [DecidableEq A] in
/-- A call registers a finalizer of its own and moves on. -/
theorem Permits.push (hs : Permits pool s) {t : Tid} {sc : Sid} {f : Finalizer A Tid}
    {c : Call A Sid} (hown : f.owner = t)
    (hnew : f ∉ s.finalizers sc) (habove : Above (f :: s.bucket sc))
    (hholder : t ∈ s.holders) (hearly : c.unregistered = false)
    (hpermit : ∀ sc', .permit t ∈ (s.push sc f).finalizers sc' → c.scope = some sc')
    (hcheckIn : ∀ sc' a, .checkIn t a ∈ (s.push sc f).finalizers sc' → c = .out sc' a)
    (hcovered : ∀ sc', c.covered = some sc' → s.closed sc' = false →
      .permit t ∈ (s.push sc f).bucket sc')
    (hrefused : ∀ sc' a, c ≠ .unscoped sc' a) : Permits pool ((s.push sc f).setCall t c) := by
  have hearly' : c.early = false ∧ c.inHand = false := by
    simpa [Call.unregistered] using hearly
  have hcalls : ∀ u, u ≠ t → ((s.push sc f).setCall t c).calls u = s.calls u := by
    intro u hu
    rw [setCall_calls, if_neg hu]
    rfl
  have hself : ((s.push sc f).setCall t c).calls t = c := by
    rw [setCall_calls, if_pos rfl]
  refine ⟨hs.nodup, hs.granted, ?_, ?_, nodup_push hs.unique hnew, ?_, ?_, ?_, hs.closingAbove,
    ?_, ?_⟩
  · intro u hu
    by_cases hut : u = t
    · rw [hut, hself]
      exact hearly'.1
    · rw [hcalls u hut]
      exact hs.holder u hu
  · intro u hu
    by_cases hut : u = t
    · exact hut ▸ hholder
    · rw [hcalls u hut] at hu
      exact hs.inHand u hu
  · intro sc' u hu
    by_cases hut : u = t
    · subst hut
      rw [hself]
      exact ⟨hholder, hpermit sc' hu, hearly⟩
    · rw [hcalls u hut]
      exact hs.permit sc' u (mem_of_mem_push hu (hown ▸ hut))
  · intro sc' u a hu
    by_cases hut : u = t
    · subst hut
      rw [hself]
      exact hcheckIn sc' a hu
    · rw [hcalls u hut]
      exact hs.checkIn sc' u a (mem_of_mem_push hu (hown ▸ hut))
  · intro sc'
    show Above ((s.push sc f).bucket sc')
    rw [push_bucket]
    split
    · next heq => exact heq ▸ habove
    · exact hs.bucketAbove sc'
  · intro u sc' hu hcl
    by_cases hut : u = t
    · subst hut
      rw [hself] at hu
      exact hcovered sc' hu hcl
    · rw [hcalls u hut] at hu
      show .permit u ∈ (s.push sc f).bucket sc'
      have hold := hs.covered u sc' hu hcl
      rw [push_bucket]
      split
      · exact List.mem_cons_of_mem _ hold
      · exact hold
  · intro u sc' a hu
    by_cases hut : u = t
    · rw [hut, hself] at hu
      exact absurd hu (hrefused sc' a)
    · rw [hcalls u hut] at hu
      exact hs.refused u sc' a hu

omit [DecidableEq A] in
theorem Permits.addPermit (hs : Permits pool s) {t : Tid} {sc : Sid}
    (h : s.calls t = .addingPermit sc) :
    Permits pool ((s.push sc (.permit t)).setCall t (.acquired sc)) := by
  have hnone := hs.not_mem_of_unregistered (t := t) (by simp [h, Call.unregistered, Call.inHand])
  have hout := hs.checkIn_not_mem (t := t) (by simp [h])
  refine hs.push rfl (hnone sc) (hs.bucketAbove sc) (hs.inHand t (by simp [h, Call.inHand]))
    rfl ?_ ?_ ?_ (by simp)
  · intro sc' hmem
    rcases (mem_push sc sc' _ _).1 hmem with ⟨rfl, _⟩ | hold
    · rfl
    · exact absurd hold (hnone sc')
  · intro sc' a hmem
    rcases (mem_push sc sc' _ _).1 hmem with ⟨_, hf⟩ | hold
    · cases hf
    · exact absurd hold (hout sc' a)
  · intro sc' hsc _
    obtain rfl : sc = sc' := by simpa [Call.covered] using hsc
    rw [push_bucket, if_pos rfl]
    exact List.mem_cons_self

omit [DecidableEq A] in
/-- The release of the permit is below: it was registered before on the same scope, and an open
    scope has not been drained. -/
theorem Permits.addCheckIn (hs : Permits pool s) {t : Tid} {sc : Sid} {a : A}
    (h : s.calls t = .addingCheckIn sc a) (hopen : s.closed sc = false) :
    Permits pool ((s.push sc (.checkIn t a)).setCall t (.out sc a)) := by
  have hout := hs.checkIn_not_mem (t := t) (by simp [h])
  have hbelow : .permit t ∈ s.bucket sc := hs.covered t sc (by simp [h, Call.covered]) hopen
  have hmem : .permit t ∈ s.finalizers sc := List.mem_append_left _ hbelow
  refine hs.push rfl (hout sc a) ⟨hbelow, hs.bucketAbove sc⟩ (hs.permit sc t hmem).1
    rfl ?_ ?_ ?_ (by simp)
  · intro sc' hmem'
    rcases (mem_push sc sc' _ _).1 hmem' with ⟨_, hf⟩ | hold
    · cases hf
    · have hscope := (hs.permit sc' t hold).2.1
      rw [h] at hscope
      exact hscope
  · intro sc' b hmem'
    rcases (mem_push sc sc' _ _).1 hmem' with ⟨rfl, hf⟩ | hold
    · rw [(Finalizer.checkIn.inj hf).2]
    · exact absurd hold (hout sc' b)
  · intro sc' hsc _
    obtain rfl : sc = sc' := by simpa [Call.covered] using hsc
    rw [push_bucket, if_pos rfl]
    exact List.mem_cons_of_mem _ hbelow

omit [DecidableEq A] [DecidableEq Tid] in
theorem Permits.close (hs : Permits pool s) (sc : Sid) :
    Permits pool { s with closed := Function.update s.closed sc true } where
  nodup := hs.nodup
  granted := hs.granted
  holder := hs.holder
  inHand := hs.inHand
  unique := hs.unique
  permit := hs.permit
  checkIn := hs.checkIn
  bucketAbove := hs.bucketAbove
  closingAbove := hs.closingAbove
  covered := by
    intro t sc' ht hcl
    refine hs.covered t sc' ht ?_
    by_cases h : sc' = sc
    · simp [h] at hcl
    · simpa [h] using hcl
  refused := by
    intro t sc' a ht
    by_cases h : sc' = sc
    · simp [h]
    · simpa [h] using hs.refused t sc' a ht

omit [DecidableEq A] [DecidableEq Tid] in
theorem drainKept_finalizers (sc sc' : Sid) :
    (s.drainKept sc).finalizers sc' = if sc' = sc then s.bucket sc' else s.finalizers sc' := by
  by_cases h : sc' = sc
  · subst h
    simp [Sys.drainKept, Sys.finalizers]
  · simp [Sys.drainKept, Sys.finalizers, h]

omit [DecidableEq A] [DecidableEq Tid] in
theorem drainKept_sublist (sc sc' : Sid) :
    ((s.drainKept sc).finalizers sc').Sublist (s.finalizers sc') := by
  rw [drainKept_finalizers]
  split
  · exact List.sublist_append_left _ _
  · exact List.Sublist.refl _

omit [DecidableEq A] [DecidableEq Tid] in
theorem Permits.drainKept (hs : Permits pool s) {sc : Sid} (hcl : s.closed sc = true) :
    Permits pool (s.drainKept sc) where
  nodup := hs.nodup
  granted := hs.granted
  holder := hs.holder
  inHand := hs.inHand
  unique := fun sc' => (hs.unique sc').sublist (drainKept_sublist sc sc')
  permit := fun sc' t ht => hs.permit sc' t ((drainKept_sublist sc sc').subset ht)
  checkIn := fun sc' t a ht => hs.checkIn sc' t a ((drainKept_sublist sc sc').subset ht)
  bucketAbove := by
    intro sc'
    by_cases h : sc' = sc
    · subst h
      simp [Sys.drainKept, Above]
    · simpa [Sys.drainKept, h] using hs.bucketAbove sc'
  closingAbove := by
    intro sc'
    by_cases h : sc' = sc
    · subst h
      simpa [Sys.drainKept] using hs.bucketAbove sc'
    · simpa [Sys.drainKept, h] using hs.closingAbove sc'
  covered := by
    intro t sc' ht hopen
    have h : sc' ≠ sc := by
      rintro rfl
      exact Bool.false_ne_true (hopen.symm.trans hcl)
    simpa [Sys.drainKept, h] using hs.covered t sc' ht hopen
  refused := hs.refused

omit [DecidableEq A] [DecidableEq Sid] in
/-- A call that is past the registration of its permit moves on. -/
theorem Permits.progress (hs : Permits pool s) {t : Tid} {sc : Sid} (c : Call A Sid)
    (hold : (s.calls t).covered = some sc) (hout : ∀ sc a, s.calls t ≠ .out sc a)
    (hscope : c.scope = some sc) (hreg : c.unregistered = false)
    (hcovered : ∀ sc', c.covered = some sc' → sc' = sc) (href : ∀ sc a, c ≠ .unscoped sc a) :
    Permits pool (s.setCall t c) := by
  have hreg' : c.early = false ∧ c.inHand = false := by
    simpa [Call.unregistered] using hreg
  refine hs.setCall (fun _ => hreg'.1) ?_ ?_ ?_ ?_ ?_
  · intro hin
    exact absurd (hin.symm.trans hreg'.2) (Ne.symm Bool.false_ne_true)
  · intro sc' hmem
    have hscope' := (hs.permit sc' t hmem).2.1
    rw [Call.scope_of_covered hold] at hscope'
    exact ⟨hscope.trans hscope', hreg⟩
  · intro sc' a hmem
    exact absurd (hs.checkIn sc' t a hmem) (hout sc' a)
  · intro sc' hsc' hopen
    obtain rfl := hcovered sc' hsc'
    exact hs.covered t sc' hold hopen
  · intro sc' a hc
    exact absurd hc (href sc' a)

theorem drainLost_sublist (sc sc' : Sid) :
    ((s.drainLost sc).finalizers sc').Sublist (s.finalizers sc') := by
  by_cases h : sc' = sc
  · subst h
    simp [Sys.drainLost, Sys.finalizers]
  · simp [Sys.drainLost, Sys.finalizers, h]

omit [DecidableEq A] [DecidableEq Tid] [DecidableEq Sid] in
/-- The release of a permit is registered once. -/
theorem Permits.scope_eq (hs : Permits pool s) {sc sc' : Sid} {t : Tid}
    (h : .permit t ∈ s.finalizers sc) (h' : .permit t ∈ s.finalizers sc') : sc = sc' := by
  have := (hs.permit sc t h).2.1.symm.trans (hs.permit sc' t h').2.1
  exact Option.some.inj this

theorem Permits.drainLost (hs : Permits pool s) {sc : Sid} (hcl : s.closed sc = true) :
    Permits pool (s.drainLost sc) where
  nodup := hs.nodup.filter _
  granted := Nat.le_trans (List.length_filter_le _ _) hs.granted
  holder := fun t ht => hs.holder t (List.mem_of_mem_filter ht)
  inHand := by
    intro t ht
    have hnone := hs.not_mem_of_unregistered (t := t)
      (by rw [Call.unregistered, show (s.calls t).inHand = true from ht, Bool.or_true]) sc
    refine List.mem_filter.2 ⟨hs.inHand t ht, decide_eq_true ?_⟩
    exact fun hmem => hnone (List.mem_append_left _ hmem)
  unique := fun sc' => (hs.unique sc').sublist (drainLost_sublist sc sc')
  permit := by
    intro sc' t ht
    have hold := (drainLost_sublist sc sc').subset ht
    have hpermit := hs.permit sc' t hold
    refine ⟨List.mem_filter.2 ⟨hpermit.1, decide_eq_true ?_⟩, hpermit.2⟩
    intro hmem
    -- what was drained is no longer registered
    obtain rfl : sc = sc' := hs.scope_eq (List.mem_append_left _ hmem) hold
    have hclosing : .permit t ∈ s.closing sc := by
      simpa [Sys.drainLost, Sys.finalizers] using ht
    exact (List.nodup_append.1 (hs.unique sc)).2.2 _ hmem _ hclosing rfl
  checkIn := fun sc' t a ht => hs.checkIn sc' t a ((drainLost_sublist sc sc').subset ht)
  bucketAbove := by
    intro sc'
    by_cases h : sc' = sc
    · subst h
      simp [Sys.drainLost, Above]
    · simpa [Sys.drainLost, h] using hs.bucketAbove sc'
  closingAbove := hs.closingAbove
  covered := by
    intro t sc' ht hopen
    have h : sc' ≠ sc := by
      rintro rfl
      exact Bool.false_ne_true (hopen.symm.trans hcl)
    simpa [Sys.drainLost, h] using hs.covered t sc' ht hopen
  refused := hs.refused

omit [DecidableEq A] [DecidableEq Tid] in
theorem setClosing_closing (sc sc' : Sid) (fs : List (Finalizer A Tid)) :
    (s.setClosing sc fs).closing sc' = if sc' = sc then fs else s.closing sc' := by
  simp only [Sys.setClosing, Function.update_apply]

omit [DecidableEq A] [DecidableEq Tid] in
theorem setClosing_sublist {sc : Sid} {f : Finalizer A Tid} {fs : List (Finalizer A Tid)}
    (h : s.closing sc = f :: fs) (sc' : Sid) :
    ((s.setClosing sc fs).finalizers sc').Sublist (s.finalizers sc') := by
  refine List.Sublist.append_left ?_ (s.bucket sc')
  rw [setClosing_closing]
  split
  · next heq =>
      rw [heq, h]
      exact List.sublist_cons_self f fs
  · exact List.Sublist.refl _

omit [DecidableEq A] [DecidableEq Tid] in
/-- A finalizer that runs is registered nowhere any more. -/
theorem Permits.not_mem_setClosing (hs : Permits pool s) {sc : Sid} {f : Finalizer A Tid}
    {fs : List (Finalizer A Tid)} (h : s.closing sc = f :: fs) :
    f ∉ (s.setClosing sc fs).finalizers sc := by
  have hnodup := hs.unique sc
  rw [Sys.finalizers, h, List.nodup_append] at hnodup
  obtain ⟨_, hclosing, hdisj⟩ := hnodup
  intro hmem
  rcases List.mem_append.1 hmem with hb | hc
  · exact hdisj f hb f List.mem_cons_self rfl
  · rw [setClosing_closing, if_pos rfl] at hc
    exact (List.nodup_cons.1 hclosing).1 hc

omit [DecidableEq A] [DecidableEq Tid] in
theorem Above.tail {f : Finalizer A Tid} {fs : List (Finalizer A Tid)} (h : Above (f :: fs)) :
    Above fs := by
  cases f with
  | permit t => exact h
  | checkIn t a => exact h.2

omit [DecidableEq A] [DecidableEq Tid] in
theorem Permits.setClosing (hs : Permits pool s) {sc : Sid} {f : Finalizer A Tid}
    {fs : List (Finalizer A Tid)} (h : s.closing sc = f :: fs) :
    Permits pool (s.setClosing sc fs) where
  nodup := hs.nodup
  granted := hs.granted
  holder := hs.holder
  inHand := hs.inHand
  unique := fun sc' => (hs.unique sc').sublist (setClosing_sublist h sc')
  permit := fun sc' t ht => hs.permit sc' t ((setClosing_sublist h sc').subset ht)
  checkIn := fun sc' t a ht => hs.checkIn sc' t a ((setClosing_sublist h sc').subset ht)
  bucketAbove := hs.bucketAbove
  closingAbove := by
    intro sc'
    have hold := hs.closingAbove sc'
    rw [setClosing_closing]
    split
    · next heq =>
        rw [heq, h] at hold
        exact hold.tail
    · exact hold
  covered := hs.covered
  refused := hs.refused

omit [DecidableEq A] in
/-- The check-in of an item runs. -/
theorem Permits.runCheckIn (hs : Permits pool s) {sc : Sid} {t : Tid} {a : A}
    {fs : List (Finalizer A Tid)} (h : s.closing sc = .checkIn t a :: fs) :
    Permits pool ((s.setClosing sc fs).setCall t (.checkedIn sc)) := by
  have hcall : s.calls t = .out sc a :=
    hs.checkIn sc t a (List.mem_append_right _ (h ▸ List.mem_cons_self))
  refine (hs.setClosing h).setCall (fun _ => rfl) (by simp [Call.inHand]) ?_ ?_
    (by simp [Call.covered]) (by simp)
  · intro sc' hmem
    have hscope := (hs.permit sc' t ((setClosing_sublist h sc').subset hmem)).2.1
    rw [hcall] at hscope
    exact ⟨hscope, rfl⟩
  · intro sc' b hmem
    have hcall' := hs.checkIn sc' t b ((setClosing_sublist h sc').subset hmem)
    rw [hcall] at hcall'
    obtain ⟨rfl, rfl⟩ := Call.out.inj hcall'
    exact absurd hmem (hs.not_mem_setClosing h)

omit [DecidableEq A] in
/-- The release of a permit runs. -/
theorem Permits.runRelease (hs : Permits pool s) {sc : Sid} {t : Tid}
    {fs : List (Finalizer A Tid)} (h : s.closing sc = .permit t :: fs) :
    Permits pool ((s.setClosing sc fs).release t) := by
  have hmem : .permit t ∈ s.finalizers sc := List.mem_append_right _ (h ▸ List.mem_cons_self)
  refine (hs.setClosing h).release ?_ ?_
  · have := (hs.permit sc t hmem).2.2
    rw [Call.unregistered, Bool.or_eq_false_iff] at this
    exact this.2
  · intro sc' hmem'
    obtain rfl := hs.scope_eq hmem ((setClosing_sublist h sc').subset hmem')
    exact hs.not_mem_setClosing h hmem'

/-- **One step.** Permits and finalizers stay in order as long as calls run under open scopes. -/
theorem Permits.step (hs : Permits pool s) (hopen : OpenScope s l) (h : Step pool s l s') :
    Permits pool s' := by
  cases h with
  | @get t sc h =>
      refine hs.setCall_unregistered (by rw [h]; rfl) (by simp [h]) (fun hmem => ?_)
        (by simp [Call.inHand]) (by simp [Call.covered]) (by simp)
      have := hs.holder t hmem
      simp [h, Call.early] at this
  | grant h hfree => exact hs.grant h hfree
  | @refusePermit t sc h hcl =>
      have := hopen sc (by simp [h, Call.scope])
      exact absurd (this.symm.trans hcl) Bool.false_ne_true
  | @acceptPermit t sc h hcl =>
      have hmem : t ∈ s.holders := hs.inHand t (by rw [h]; rfl)
      exact hs.setCall_unregistered (by rw [h]; rfl) (by simp [h]) (fun _ => rfl) (fun _ => hmem)
        (by simp [Call.covered]) (by simp)
  | addPermit h => exact hs.addPermit h
  | @take t sc a st h htake =>
      refine Permits.setPool (s := s.setCall t (.holding sc a)) ?_ st
      exact hs.progress (.holding sc a) (by rw [h]; rfl) (by simp [h]) rfl rfl
        (by simp [Call.covered]) (by simp)
  | @takeNone t sc st h htake =>
      refine Permits.setPool (s := s.setCall t (.making sc)) ?_ st
      exact hs.progress (.making sc) (by rw [h]; rfl) (by simp [h]) rfl rfl
        (by simp [Call.covered]) (by simp)
  | @make t sc a h =>
      refine Permits.addMade (s := s.setCall t (.holding sc a)) ?_ (a :: s.made)
      exact hs.progress (.holding sc a) (by rw [h]; rfl) (by simp [h]) rfl rfl
        (by simp [Call.covered]) (by simp)
  | @fail t sc e h =>
      exact hs.progress (.failed sc) (by rw [h]; rfl) (by simp [h]) rfl rfl (by simp [Call.covered])
        (by simp)
  | @refuseCheckIn t sc a h hcl =>
      have := hopen sc (by simp [h, Call.scope])
      exact absurd (this.symm.trans hcl) Bool.false_ne_true
  | @acceptCheckIn t sc a h hcl =>
      exact hs.progress (.addingCheckIn sc a) (by rw [h]; rfl) (by simp [h]) rfl rfl
        (by simp [Call.covered]) (by simp)
  | @addCheckIn t sc a h => exact hs.addCheckIn h (hopen sc (by simp [h, Call.scope]))
  | invalidate => exact hs.setPool _
  | close => exact hs.close _
  | drainKept hcl hd => exact hs.drainKept hcl
  | drainLost hcl hd => exact hs.drainLost hcl
  | release h => exact hs.runRelease h
  | @checkIn sc t a fs h =>
      exact Permits.setPool (s := (s.setClosing sc fs).setCall t (.checkedIn sc))
        (hs.runCheckIn h) _
  | tick =>
      exact ⟨hs.nodup, hs.granted, hs.holder, hs.inHand, hs.unique, hs.permit, hs.checkIn,
        hs.bucketAbove, hs.closingAbove, hs.covered, hs.refused⟩

end IdEffect.Pool
