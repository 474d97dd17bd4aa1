import Mathlib.Logic.Function.Basic
import IdEffect.Lib.Transition

set_option autoImplicit false

/-! # Concurrent calls on a shared store

A `Machine` says how one call goes on: it starts from its request and takes atomic steps on the
store until it has an answer. Any number of calls, told apart by their numbers, run interleaved. The
rules below reduce a statement about all interleavings to one about a single step: the call that
steps must keep what is known of the store (`I`) and of itself, and must not disturb what the other
calls know (`C`). -/

namespace Calls

open Transition

variable {Store Req Local Res Env : Type}

structure Machine (Store Req Local Res Env : Type) where
  start : ℕ → Req → Local
  step : ℕ → Local → Env → Store → Option ((Local ⊕ Res) × Store)

inductive Status (Req Local Res : Type) where
  | idle
  | running (q : Req) (l : Local)
  | done (q : Req) (r : Res)
  deriving DecidableEq

structure Sys (Store Req Local Res : Type) where
  store : Store
  calls : ℕ → Status Req Local Res

inductive Label (Req Env : Type) where
  | call (t : ℕ) (q : Req)
  | step (t : ℕ) (e : Env)

/-- No call yet. -/
def Sys.init (store : Store) : Sys Store Req Local Res := ⟨store, fun _ => .idle⟩

/-- A call goes on, or has its answer. -/
def Status.next (q : Req) : Local ⊕ Res → Status Req Local Res
  | .inl l => .running q l
  | .inr r => .done q r

namespace Machine

variable (m : Machine Store Req Local Res Env)

def sysStep (s : Sys Store Req Local Res) : Label Req Env → Option (Sys Store Req Local Res)
  | .call t q =>
      match s.calls t with
      | .idle => some { s with calls := Function.update s.calls t (.running q (m.start t q)) }
      | _ => none
  | .step t e =>
      match s.calls t with
      | .running q l =>
          (m.step t l e s.store).map fun x =>
            ⟨x.2, Function.update s.calls t (.next q x.1)⟩
      | _ => none

variable {m} {s s' : Sys Store Req Local Res}

theorem sysStep_call {t : ℕ} {q : Req} (h : m.sysStep s (.call t q) = some s') :
    s.calls t = .idle
      ∧ s' = { s with calls := Function.update s.calls t (.running q (m.start t q)) } := by
  rw [sysStep] at h
  split at h
  · next hidle => exact ⟨hidle, (Option.some.inj h).symm⟩
  · cases h

theorem sysStep_step {t : ℕ} {e : Env} (h : m.sysStep s (.step t e) = some s') :
    ∃ q l x st, s.calls t = .running q l ∧ m.step t l e s.store = some (x, st)
      ∧ s' = ⟨st, Function.update s.calls t (.next q x)⟩ := by
  rw [sysStep] at h
  split at h
  · next q l hrun =>
      obtain ⟨⟨x, st⟩, hx, rfl⟩ := Option.map_eq_some_iff.mp h
      exact ⟨q, l, x, st, hrun, hx, rfl⟩
  · cases h

/-- The call `t` runs to its end with nothing in between, in the same environment all along. -/
inductive Alone (m : Machine Store Req Local Res Env) (t : ℕ) (e : Env) :
    Local → Store → Res → Store → Prop where
  | done {l : Local} {st st' : Store} {r : Res} (h : m.step t l e st = some (.inr r, st')) :
      Alone m t e l st r st'
  | next {l l' : Local} {st st' st'' : Store} {r : Res} (h : m.step t l e st = some (.inl l', st'))
      (rest : Alone m t e l' st' r st'') : Alone m t e l st r st''

/-- A call that runs alone is a run of the system. -/
theorem Alone.run {t : ℕ} {e : Env} {q : Req} {l : Local} {r : Res} {st : Store}
    (h : m.Alone t e l s.store r st) (hcall : s.calls t = .running q l) :
    ∃ ls, Transition.run m.sysStep s ls
      = some ⟨st, Function.update s.calls t (.done q r)⟩ := by
  generalize hstore : s.store = store at h
  induction h generalizing s with
  | done h =>
      refine ⟨[.step t e], ?_⟩
      rw [run_cons, sysStep, hcall, hstore]
      simp only [h, Option.map_some, Option.bind_some, run_nil, Status.next]
  | @next l l' store store' store'' r h rest ih =>
      obtain ⟨ls, hls⟩ := @ih ⟨store', Function.update s.calls t (.running q l')⟩
        (Function.update_self ..) rfl
      refine ⟨.step t e :: ls, ?_⟩
      rw [run_cons, sysStep, hcall, hstore]
      simp only [h, Option.map_some, Option.bind_some, Status.next, hls, Function.update_idem]

/-- So is a new call. -/
theorem Alone.run_call {t : ℕ} {e : Env} {q : Req} {r : Res} {st : Store}
    (hidle : s.calls t = .idle) (h : m.Alone t e (m.start t q) s.store r st) :
    ∃ ls, Transition.run m.sysStep s ls
      = some ⟨st, Function.update s.calls t (.done q r)⟩ := by
  obtain ⟨ls, hls⟩ := Alone.run (s := { s with
    calls := Function.update s.calls t (.running q (m.start t q)) }) h (Function.update_self ..)
  refine ⟨.call t q :: ls, ?_⟩
  rw [run_cons, sysStep, hidle]
  simp only [Option.bind_some, hls, Function.update_idem]

/-- A run is finite, so there always is a number that no call has. -/
theorem exists_idle {store : Store} {ls : List (Label Req Env)}
    (hrun : Transition.run m.sysStep (Sys.init store) ls = some s) : ∃ t, s.calls t = .idle := by
  have hspare : ∃ n, ∀ t, n ≤ t → s.calls t = .idle := by
    refine run_invariant (I := fun s : Sys Store Req Local Res => ∃ n, ∀ t, n ≤ t →
      s.calls t = .idle) (fun s a s' hs hstep => ?_) ⟨0, fun _ _ => rfl⟩ hrun
    obtain ⟨n, hn⟩ := hs
    -- the call that is made or steps is the only one that changes
    have hupdate : ∀ (u : ℕ) (c : Status Req Local Res),
        ∀ t, max n (u + 1) ≤ t → Function.update s.calls u c t = .idle := by
      intro u c t ht
      rw [Function.update_of_ne (by omega)]
      exact hn t (by omega)
    cases a with
    | call u q =>
        obtain ⟨-, rfl⟩ := sysStep_call hstep
        exact ⟨_, hupdate u _⟩
    | step u e =>
        obtain ⟨q, l, x, st, -, -, rfl⟩ := sysStep_step hstep
        exact ⟨_, hupdate u _⟩
  obtain ⟨n, hn⟩ := hspare
  exact ⟨n, hn n (Nat.le_refl n)⟩

/-- What is known of the store and of every call. -/
structure Knows (I : Store → Prop) (C : ℕ → Status Req Local Res → Store → Prop)
    (s : Sys Store Req Local Res) : Prop where
  store : I s.store
  calls : ∀ t, C t (s.calls t) s.store

variable {I : Store → Prop} {C : ℕ → Status Req Local Res → Store → Prop}

/-- The step of one call keeps what all of them know. -/
def Keeps (m : Machine Store Req Local Res Env) (I : Store → Prop)
    (C : ℕ → Status Req Local Res → Store → Prop) : Prop :=
  (∀ t q st, C t .idle st → C t (.running q (m.start t q)) st)
    ∧ ∀ t q l e x st st', I st → C t (.running q l) st → m.step t l e st = some (x, st') →
      I st' ∧ C t (.next q x) st' ∧ ∀ u c, u ≠ t → C u c st → C u c st'

/-- The same, for the steps that meet a guard. -/
def KeepsOn (m : Machine Store Req Local Res Env) (guard : Store → ℕ → Local → Env → Prop)
    (I : Store → Prop) (C : ℕ → Status Req Local Res → Store → Prop) : Prop :=
  (∀ t q st, C t .idle st → C t (.running q (m.start t q)) st)
    ∧ ∀ t q l e x st st', I st → C t (.running q l) st → guard st t l e →
      m.step t l e st = some (x, st') →
      I st' ∧ C t (.next q x) st' ∧ ∀ u c, u ≠ t → C u c st → C u c st'

/-- A guard on the step of a running call, as a guard on the steps of the system. -/
def guardOf (guard : Store → ℕ → Local → Env → Prop) (s : Sys Store Req Local Res) :
    Label Req Env → Prop
  | .call _ _ => True
  | .step t e => ∀ q l, s.calls t = .running q l → guard s.store t l e

theorem KeepsOn.step {guard : Store → ℕ → Local → Env → Prop} {a : Label Req Env}
    (h : KeepsOn m guard I C) (hs : Knows I C s) (hguard : guardOf guard s a)
    (hstep : m.sysStep s a = some s') : Knows I C s' := by
  cases a with
  | call t q =>
      obtain ⟨hidle, rfl⟩ := sysStep_call hstep
      refine ⟨hs.store, fun u => ?_⟩
      by_cases hu : u = t
      · subst hu
        have hc := hs.calls u
        rw [hidle] at hc
        simpa only [Function.update_self] using h.1 u q s.store hc
      · simpa only [Function.update_of_ne hu] using hs.calls u
  | step t e =>
      obtain ⟨q, l, x, st, hrun, hx, rfl⟩ := sysStep_step hstep
      have hc := hs.calls t
      rw [hrun] at hc
      -- the call that steps has changed its own status, the others see a new store only
      obtain ⟨hI, hC, hothers⟩ := h.2 t q l e x s.store st hs.store hc (hguard q l hrun) hx
      refine ⟨hI, fun u => ?_⟩
      by_cases hu : u = t
      · subst hu
        simpa only [Function.update_self] using hC
      · simpa only [Function.update_of_ne hu] using hothers u _ hu (hs.calls u)

/-- **Every interleaving of guarded steps** keeps what the calls know. -/
theorem KeepsOn.run {guard : Store → ℕ → Local → Env → Prop} {ls : List (Label Req Env)}
    (h : KeepsOn m guard I C) (hs : Knows I C s)
    (hguard : Along m.sysStep (guardOf guard) s ls)
    (hrun : Transition.run m.sysStep s ls = some s') : Knows I C s' :=
  run_invariant_along (fun _ _ _ hs hg hstep => h.step hs hg hstep) hs hguard hrun

theorem Keeps.step {a : Label Req Env} (h : Keeps m I C) (hs : Knows I C s)
    (hstep : m.sysStep s a = some s') : Knows I C s' := by
  have hon : KeepsOn m (fun _ _ _ _ => True) I C :=
    ⟨h.1, fun t q l e x st st' hI hC _ hx => h.2 t q l e x st st' hI hC hx⟩
  refine hon.step hs ?_ hstep
  cases a with
  | call t q => trivial
  | step t e => exact fun _ _ _ => trivial

/-- **Every interleaving** keeps what the calls know. -/
theorem Keeps.run {ls : List (Label Req Env)} (h : Keeps m I C) (hs : Knows I C s)
    (hrun : Transition.run m.sysStep s ls = some s') : Knows I C s' :=
  run_invariant (fun _ _ _ hs hstep => h.step hs hstep) hs hrun

/-- What the calls know may be shown in turns, the later building on the earlier. -/
theorem Keeps.and {D : ℕ → Status Req Local Res → Store → Prop} (h : Keeps m I C)
    (hstart : ∀ t q st, D t .idle st → D t (.running q (m.start t q)) st)
    (hstep : ∀ t q l e x st st', I st → C t (.running q l) st → D t (.running q l) st →
      m.step t l e st = some (x, st') →
        D t (.next q x) st' ∧ ∀ u c, u ≠ t → D u c st → D u c st') :
    Keeps m I fun t c st => C t c st ∧ D t c st := by
  refine ⟨fun t q st hc => ⟨h.1 t q st hc.1, hstart t q st hc.2⟩, ?_⟩
  intro t q l e x st st' hI hc hx
  obtain ⟨hI', hC, hothers⟩ := h.2 t q l e x st st' hI hc.1 hx
  obtain ⟨hD, hothers'⟩ := hstep t q l e x st st' hI hc.1 hc.2 hx
  exact ⟨hI', ⟨hC, hD⟩, fun u c hu hcu => ⟨hothers u c hu hcu.1, hothers' u c hu hcu.2⟩⟩

instance decidableGuardOf (guard : Store → ℕ → Local → Env → Prop)
    [∀ st t l e, Decidable (guard st t l e)] (s : Sys Store Req Local Res) :
    ∀ a : Label Req Env, Decidable (guardOf guard s a)
  | .call _ _ => .isTrue trivial
  | .step t e =>
      match h : s.calls t with
      | .idle => .isTrue fun _ _ hrun => by cases h.symm.trans hrun
      | .done _ _ => .isTrue fun _ _ hrun => by cases h.symm.trans hrun
      | .running _ l =>
          decidable_of_iff (guard s.store t l e)
            ⟨fun hg _ _ hrun => (Status.running.inj (h.symm.trans hrun)).2 ▸ hg,
              fun hg => hg _ _ h⟩

/-- **A run keeps `J` of the store exactly when all its steps meet the guard**, if this is so for
    the step of a single call. -/
theorem Keeps.run_iff_store {guard : Store → ℕ → Local → Env → Prop} {J : Store → Prop}
    {ls : List (Label Req Env)} (hk : Keeps m I C)
    (hJ : ∀ t q l e x st st', I st → C t (.running q l) st → m.step t l e st = some (x, st') →
      (J st' ↔ J st ∧ guard st t l e))
    (hs : Knows I C s) (hrun : Transition.run m.sysStep s ls = some s') :
    J s'.store ↔ J s.store ∧ Along m.sysStep (guardOf guard) s ls := by
  refine run_iff_along (J := fun s : Sys Store Req Local Res => J s.store)
    (fun _ _ _ hs _ hstep => hk.step hs hstep) (fun s a s' hs _ hstep => ?_) hs (along_true ..) hrun
  cases a with
  | call t q =>
      obtain ⟨-, rfl⟩ := sysStep_call hstep
      rw [guardOf, and_true]
  | step t e =>
      obtain ⟨q, l, x, st, hcall, hx, rfl⟩ := sysStep_step hstep
      have hc := hs.calls t
      rw [hcall] at hc
      rw [hJ t q l e x s.store st hs.store hc hx]
      refine and_congr_right fun _ => ⟨fun hg q' l' hcall' => ?_, fun hg => hg q l hcall⟩
      obtain ⟨rfl, rfl⟩ := Status.running.inj (hcall.symm.trans hcall')
      exact hg

/-- `P` is asked of the calls that have their answer. The last step of a call decides it, by meeting
    `guard` or not, and the steps of other calls do not change it. -/
def Decides (m : Machine Store Req Local Res Env) (guard : Store → ℕ → Local → Env → Prop)
    (I : Store → Prop) (C P : ℕ → Status Req Local Res → Store → Prop) : Prop :=
  (∀ t st, P t .idle st) ∧ (∀ t q l st, P t (.running q l) st)
    ∧ ∀ t q l e x st st', I st → C t (.running q l) st → m.step t l e st = some (x, st') →
      (P t (.next q x) st' ↔ guard st t l e) ∧ ∀ u c, u ≠ t → (P u c st' ↔ P u c st)

theorem Decides.step {guard : Store → ℕ → Local → Env → Prop}
    {P : ℕ → Status Req Local Res → Store → Prop} {a : Label Req Env}
    (h : Decides m guard I C P) (hs : Knows I C s) (hstep : m.sysStep s a = some s') :
    (∀ t, P t (s'.calls t) s'.store) ↔ (∀ t, P t (s.calls t) s.store) ∧ guardOf guard s a := by
  obtain ⟨hidle, hrunning, hlast⟩ := h
  cases a with
  | call t q =>
      obtain ⟨hcall, rfl⟩ := sysStep_call hstep
      rw [guardOf, and_true]
      refine forall_congr' fun u => ?_
      by_cases hu : u = t
      · subst hu
        simp only [Function.update_self, hcall]
        exact ⟨fun _ => hidle _ _, fun _ => hrunning _ _ _ _⟩
      · simp only [Function.update_of_ne hu]
  | step t e =>
      obtain ⟨q, l, x, st, hrun, hx, rfl⟩ := sysStep_step hstep
      have hc := hs.calls t
      rw [hrun] at hc
      obtain ⟨hown, hothers⟩ := hlast t q l e x s.store st hs.store hc hx
      constructor
      -- before the step nothing is asked of `t`, afterwards exactly the guard
      · intro hP
        refine ⟨fun u => ?_, fun q' l' hrun' => ?_⟩
        · by_cases hu : u = t
          · rw [hu, hrun]
            exact hrunning _ _ _ _
          · have hPu := hP u
            simp only [Function.update_of_ne hu] at hPu
            exact (hothers u _ hu).mp hPu
        · obtain ⟨rfl, rfl⟩ := Status.running.inj (hrun.symm.trans hrun')
          have hPt := hP t
          simp only [Function.update_self] at hPt
          exact hown.mp hPt
      · rintro ⟨hP, hg⟩ u
        by_cases hu : u = t
        · subst hu
          simp only [Function.update_self]
          exact hown.mpr (hg q l hrun)
        · simp only [Function.update_of_ne hu]
          exact (hothers u _ hu).mpr (hP u)

/-- **A run answers all its calls rightly exactly when all its steps meet the guard.** -/
theorem Decides.run_iff {guard : Store → ℕ → Local → Env → Prop}
    {P : ℕ → Status Req Local Res → Store → Prop} {ls : List (Label Req Env)} {store : Store}
    (hd : Decides m guard I C P) (hk : Keeps m I C) (hs : Knows I C (Sys.init store))
    (hrun : Transition.run m.sysStep (Sys.init store) ls = some s') :
    (∀ t, P t (s'.calls t) s'.store) ↔ Along m.sysStep (guardOf guard) (Sys.init store) ls := by
  have hinv : ∀ s a s', Knows I C s → True → m.sysStep s a = some s' → Knows I C s' :=
    fun _ _ _ hs _ hstep => hk.step hs hstep
  rw [run_iff_along hinv (fun _ _ _ hs _ hstep => hd.step hs hstep) hs (along_true ..) hrun]
  exact and_iff_right fun t => hd.1 t store

end Machine

end Calls
