import Mathlib.Data.List.Basic
import IdEffect.Lib.Transition

set_option autoImplicit false

/-! # A flag that is waited for

A flag goes up once and never comes down. Whoever sets it first gives a signal afterwards; whoever
waits for it loads it and, as long as it is down, creates a future for the next signal and polls it
until it is ready. The `Notifier` says at which of these steps a waiter is put on the list of those
a signal reaches. If that is done after the signal has been given, no other one will follow: this is
the only way to miss it (`never_lost_iff`). -/

namespace Gate

open Transition

inductive Poll where
  | ready
  | pending
  deriving DecidableEq, Repr

/-- How futures `F` wait for a signal of `N`. `parked n t f` is that the future of waiter `t` is on
    the list and no signal has reached it since; `registers` says which step puts it there: its
    creation (`none`), or a poll. -/
structure Notifier (N F : Type) where
  init : N
  notified : N → ℕ → F × N
  poll : N → ℕ → F → Poll × F × N
  notifyWaiters : N → N
  parked : N → ℕ → F → Bool
  registers : Option F → Bool
  parked_notified : ∀ n t, parked (notified n t).2 t (notified n t).1 = registers none
  parked_poll : ∀ n t f, (poll n t f).1 = .pending →
    parked (poll n t f).2.2 t (poll n t f).2.1 = (registers (some f) || parked n t f)
  registers_ready : ∀ n t f, (poll n t f).1 = .ready → registers (some f) = false
  others_notified : ∀ n t u g, u ≠ t → parked (notified n t).2 u g = parked n u g
  others_poll : ∀ n t f u g, u ≠ t → parked (poll n t f).2.2 u g = parked n u g
  parked_notifyWaiters : ∀ n t f, parked (notifyWaiters n) t f = false

/-- Who waits: about to load the flag, about to create a future, with a future, or through. -/
inductive Wait (F : Type) where
  | loading
  | creating
  | waiting (f : F)
  | returned
  deriving DecidableEq, Repr

/-- Who sets: about to swap the flag, about to give the signal, or through, with whether the flag
    was down. -/
inductive Setting where
  | swapping
  | notifying
  | done (first : Bool)
  deriving DecidableEq, Repr

structure State (N F : Type) where
  flag : Bool
  notify : N
  settings : List Setting
  waits : List (Wait F)
  deriving DecidableEq, Repr

/-- Another call that sets or waits, or a step of one. -/
inductive Label where
  | set
  | wait
  | stepSet (i : ℕ)
  | stepWait (t : ℕ)
  deriving DecidableEq, Repr

variable {N F : Type} (notifier : Notifier N F)

def init : State N F := ⟨false, notifier.init, [], []⟩

/-- `if flag.swap(true) { return false }; notify.notify_waiters(); true` -/
def set (s : State N F) (i : ℕ) : Setting → Option (State N F)
  | .swapping =>
      let setting := if s.flag then .done false else .notifying
      some { s with flag := true, settings := s.settings.set i setting }
  | .notifying =>
      some { s with
        notify := notifier.notifyWaiters s.notify
        settings := s.settings.set i (.done true) }
  | .done _ => none

/-- `while !flag.load() { notify.notified().await }` -/
def wait (s : State N F) (t : ℕ) : Wait F → Option (State N F)
  | .loading => some { s with waits := s.waits.set t (if s.flag then .returned else .creating) }
  | .creating =>
      let x := notifier.notified s.notify t
      some { s with notify := x.2, waits := s.waits.set t (.waiting x.1) }
  | .waiting f =>
      let x := notifier.poll s.notify t f
      let next := match x.1 with
        | .ready => .loading
        | .pending => .waiting x.2.1
      some { s with notify := x.2.2, waits := s.waits.set t next }
  | .returned => none

def step (s : State N F) : Label → Option (State N F)
  | .set => some { s with settings := s.settings ++ [.swapping] }
  | .wait => some { s with waits := s.waits ++ [.loading] }
  | .stepSet i => s.settings[i]?.bind (set notifier s i)
  | .stepWait t => s.waits[t]?.bind (wait notifier s t)

/-- The flag is up and its signal has been given. -/
def Settled (s : State N F) : Prop := s.flag = true ∧ Setting.notifying ∉ s.settings

instance (s : State N F) : Decidable (Settled s) := inferInstanceAs (Decidable (_ ∧ _))

/-- Somebody is parked that no signal will ever reach. -/
def Lost (s : State N F) : Prop :=
  Settled s ∧ ∃ t f, s.waits[t]? = some (.waiting f) ∧ notifier.parked s.notify t f = true

/-- The step puts a waiter on the list. -/
def registering (s : State N F) : Label → Bool
  | .stepWait t =>
      match s.waits[t]? with
      | some .creating => notifier.registers none
      | some (.waiting f) => notifier.registers (some f)
      | _ => false
  | _ => false

/-- Nobody is put on the list when the signal has been given. -/
def Prompt (s : State N F) (l : Label) : Prop := registering notifier s l = true → ¬ Settled s

instance (s : State N F) (l : Label) : Decidable (Prompt notifier s l) :=
  inferInstanceAs (Decidable (_ → _))

variable {notifier} {s s' : State N F} {l : Label}

/-- A waiter registers with the creation of its future or with a poll of it. -/
theorem registering_stepWait {t : ℕ} : registering notifier s (.stepWait t) = true
    ↔ (s.waits[t]? = some .creating ∧ notifier.registers none = true)
      ∨ ∃ f, s.waits[t]? = some (.waiting f) ∧ notifier.registers (some f) = true := by
  rw [registering]
  split
  · next hwait => simp [hwait]
  · next f hwait => simp [hwait]
  · next hnotCreating hnotWaiting =>
      simp only [Bool.false_eq_true, false_iff, not_or, not_exists, not_and]
      exact ⟨fun h => absurd h hnotCreating, fun f h => absurd h (hnotWaiting f)⟩

/-- A step of a waiter is late if it registers when the signal has been given. -/
theorem prompt_stepWait {t : ℕ} {registers : Prop}
    (h : registering notifier s (.stepWait t) = true ↔ registers) :
    Prompt notifier s (.stepWait t) ↔ ¬ (Settled s ∧ registers) := by
  rw [Prompt, h, not_and']

theorem prompt_of_ne (h : ∀ t, l ≠ .stepWait t) : Prompt notifier s l := by
  cases l with
  | stepWait t => exact absurd rfl (h t)
  | set | wait | stepSet _ =>
      intro hreg
      cases hreg

theorem not_lost_mono (hlost : ¬ Lost notifier s) (hsettled : Settled s' → Settled s)
    (hparked : ∀ t f, s'.waits[t]? = some (.waiting f) → notifier.parked s'.notify t f = true →
      ∃ g, s.waits[t]? = some (.waiting g) ∧ notifier.parked s.notify t g = true) :
    ¬ Lost notifier s' := by
  rintro ⟨hs, t, f, hwait, hpark⟩
  obtain ⟨g, hg⟩ := hparked t f hwait hpark
  exact hlost ⟨hsettled hs, t, g, hg⟩

theorem waiting_set {waits : List (Wait F)} {t u : ℕ} {x : Wait F} {f : F}
    (h : (waits.set t x)[u]? = some (.waiting f)) :
    u = t ∧ x = .waiting f ∨ u ≠ t ∧ waits[u]? = some (.waiting f) := by
  rw [List.getElem?_set] at h
  split at h
  · next heq =>
      split at h
      · exact .inl ⟨heq.symm, Option.some.inj h⟩
      · cases h
  · next hne => exact .inr ⟨fun heq => hne heq.symm, h⟩

/-- Whose entry is replaced was not about to give the signal. -/
theorem notifying_set {settings : List Setting} {i : ℕ} {x y : Setting}
    (h : settings[i]? = some x) (hx : x ≠ .notifying) (hy : .notifying ∉ settings.set i y) :
    .notifying ∉ settings := by
  intro hmem
  obtain ⟨j, hj⟩ := List.mem_iff_getElem?.1 hmem
  have hij : i ≠ j := by
    rintro rfl
    exact hx (Option.some.inj (h.symm.trans hj))
  exact hy (List.mem_of_getElem? ((List.getElem?_set_ne hij).trans hj))

theorem not_lost_set {i : ℕ} {setting : Setting} (hlost : ¬ Lost notifier s)
    (hi : s.settings[i]? = some setting) (h : set notifier s i setting = some s') :
    ¬ Lost notifier s' := by
  cases setting with
  | swapping =>
      obtain rfl := Option.some.inj h
      by_cases hflag : s.flag
      · refine not_lost_mono hlost (fun hs => ⟨hflag, ?_⟩) fun t f hwait hpark => ⟨f, hwait, hpark⟩
        exact notifying_set hi (fun heq => by cases heq) hs.2
      · -- whoever finds the flag down is about to give the signal
        rintro ⟨⟨-, hnotifying⟩, -⟩
        rw [if_neg hflag] at hnotifying
        exact hnotifying (List.mem_set (List.getElem?_eq_some_iff.1 hi).1 _)
  | notifying =>
      obtain rfl := Option.some.inj h
      rintro ⟨-, t, f, -, hpark⟩
      rw [notifier.parked_notifyWaiters] at hpark
      cases hpark
  | done _ => cases h

theorem not_lost_wait_iff {t : ℕ} {w : Wait F} (hlost : ¬ Lost notifier s)
    (ht : s.waits[t]? = some w) (h : wait notifier s t w = some s') :
    ¬ Lost notifier s' ↔ Prompt notifier s (.stepWait t) := by
  have hlt : t < s.waits.length := (List.getElem?_eq_some_iff.1 ht).1
  rw [Prompt, registering, ht]
  cases w with
  | loading =>
      obtain rfl := Option.some.inj h
      refine iff_of_true (not_lost_mono hlost id fun u f hwait hpark => ?_) fun h => by cases h
      rcases waiting_set hwait with ⟨-, hx⟩ | ⟨-, hu⟩
      · split at hx <;> cases hx
      · exact ⟨f, hu, hpark⟩
  | creating =>
      obtain rfl := Option.some.inj h
      refine ⟨fun hlost' hreg hsettled => hlost' ⟨hsettled, t, _, List.getElem?_set_self hlt, ?_⟩,
        fun hprompt => ?_⟩
      · exact (notifier.parked_notified ..).trans hreg
      · rintro ⟨hsettled, u, f, hwait, hpark⟩
        rcases waiting_set hwait with ⟨rfl, hx⟩ | ⟨hne, hu⟩
        · obtain rfl := Wait.waiting.inj hx
          rw [notifier.parked_notified] at hpark
          exact hprompt hpark hsettled
        · rw [notifier.others_notified _ _ _ _ hne] at hpark
          exact hlost ⟨hsettled, u, f, hu, hpark⟩
  | waiting g =>
      obtain rfl := Option.some.inj h
      have hothers : ∀ u f, u ≠ t → s.waits[u]? = some (.waiting f) →
          notifier.parked (notifier.poll s.notify t g).2.2 u f = true → ¬ Settled s := by
        intro u f hne hu hpark hsettled
        rw [notifier.others_poll _ _ _ _ _ hne] at hpark
        exact hlost ⟨hsettled, u, f, hu, hpark⟩
      cases hpoll : (notifier.poll s.notify t g).1 with
      | ready =>
          refine iff_of_true ?_ fun hreg => ?_
          · rintro ⟨hsettled, u, f, hwait, hpark⟩
            rcases waiting_set hwait with ⟨-, hx⟩ | ⟨hne, hu⟩
            · cases hx
            · exact hothers u f hne hu hpark hsettled
          · cases (notifier.registers_ready _ _ _ hpoll).symm.trans hreg
      | pending =>
          have hown := notifier.parked_poll _ _ _ hpoll
          refine ⟨fun hlost' hreg hsettled => hlost' ⟨hsettled, t, (notifier.poll s.notify t g).2.1,
            ?_, ?_⟩, fun hprompt => ?_⟩
          · exact List.getElem?_set_self hlt
          · rw [hown, show notifier.registers (some g) = true from hreg, Bool.true_or]
          · rintro ⟨hsettled, u, f, hwait, hpark⟩
            rcases waiting_set hwait with ⟨rfl, hx⟩ | ⟨hne, hu⟩
            · obtain rfl := Wait.waiting.inj hx
              rw [hown, Bool.or_eq_true] at hpark
              rcases hpark with hreg | hpark
              · exact hprompt hreg hsettled
              · exact hlost ⟨hsettled, u, g, ht, hpark⟩
            · exact hothers u f hne hu hpark hsettled
  | returned => cases h

/-- A step out of a state in which nobody is lost. -/
theorem not_lost_iff_prompt (hlost : ¬ Lost notifier s) (h : step notifier s l = some s') :
    ¬ Lost notifier s' ↔ Prompt notifier s l := by
  cases l with
  | set =>
      obtain rfl := Option.some.inj h
      refine iff_of_true (not_lost_mono hlost (fun hs => ⟨hs.1, fun hmem => ?_⟩)
        fun t f hwait hpark => ⟨f, hwait, hpark⟩) fun h => by cases h
      exact hs.2 (List.mem_append_left _ hmem)
  | wait =>
      obtain rfl := Option.some.inj h
      refine iff_of_true (not_lost_mono hlost id fun t f hwait hpark => ⟨f, ?_, hpark⟩)
        fun h => by cases h
      rw [List.getElem?_append] at hwait
      split at hwait
      · exact hwait
      · cases List.mem_singleton.1 (List.mem_of_getElem? hwait)
  | stepSet i =>
      obtain ⟨setting, hi, h⟩ := Option.bind_eq_some_iff.1 h
      exact iff_of_true (not_lost_set hlost hi h) fun h => by cases h
  | stepWait t =>
      obtain ⟨w, ht, h⟩ := Option.bind_eq_some_iff.1 h
      exact not_lost_wait_iff hlost ht h

/-- **A waiter is lost exactly when it is put on the list after the signal has been given.** -/
theorem never_lost_iff {ls : List Label} {s' : State N F}
    (hrun : run (step notifier) (init notifier) ls = some s') :
    Throughout (step notifier) (fun s => ¬ Lost notifier s) (init notifier) ls
      ↔ Along (step notifier) (Prompt notifier) (init notifier) ls := by
  refine throughout_iff_along (I := fun _ => True) (fun _ _ _ _ _ _ _ => trivial)
    (fun _ _ _ _ hlost hstep => not_lost_iff_prompt hlost hstep) trivial ?_ hrun
  rintro ⟨⟨hflag, -⟩, -⟩
  cases hflag

end Gate
