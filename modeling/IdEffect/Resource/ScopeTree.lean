import Mathlib.Logic.Relation
import IdEffect.Resource.ScopeFinalizers

set_option autoImplicit false

/-! # Closing a whole subtree

A scope closes what is in its list of children. Three things are not as they should be. `extend`
puts a scope into the list of its new parent and leaves it in the list of the old one, so that the
old parent's close still closes it. `extend` looks at the closed flag before it pushes, so that the
new parent may be closed in between and never see the new child. And a close that meets a scope
somebody else is closing does not wait for it.

In runs without these, and with finalizers added in time, a close that has returned has closed all
live scopes below, with their finalizers run, and no scope is closed by a former parent
(`close_cascades`). The argument follows each entry of a list of children: a close collects it, or
it was pushed by a `fork` that is going to look at the parent's flag and close the child itself. -/

namespace IdEffect.Scope

open Versioned Transition

variable {Tid : Type} [DecidableEq Tid] {s s' : Sys Tid} {l : Label Tid}

/-! ## The promise -/

/-- `c` lives under `p`, through scopes that are alive. -/
def Below (s : Sys Tid) (p c : ℕ) : Prop :=
  Relation.TransGen (fun a b => s.alive a = true ∧ s.link a = some b) c p

/-- A close of `p` that has returned has closed everything below `p` and run its finalizers, and no
    close has closed a scope that had been moved elsewhere before the close began. -/
structure Cascaded (s : Sys Tid) : Prop where
  subtree : ∀ t p ok, s.calls t = .closeDone p ok → ∀ c, Below s p c →
    s.closed c = true ∧ ∀ u, s.calls u = .addDone c true → s.ran.count u = 1
  reparented : ∀ p c, s.closedBy c = some p → c ∉ s.strays p

/-- Closes cascade in every run. -/
def CloseCascades (Tid : Type) [DecidableEq Tid] : Prop :=
  ∀ (ls : List (Label Tid)) (s : Sys Tid), run Sys.step Sys.init ls = some s → Cascaded s

/-- A close of `sc` is about to look at the flag: if it is set, the close is over, and if it is not,
    everything in the list of children is still there by right. -/
def ClearToClose (s : Sys Tid) (sc : ℕ) : Prop :=
  (s.closed sc = true → s.phase sc = .done) ∧
    (s.closed sc = false → ∀ c ∈ s.children sc, s.isStray sc c = false)

/-- The step is none of those that go wrong: no close meets another one under way or closes a scope
    that still lists a reparented one, and no `extend` pushes into the list of a closed scope. -/
def Orderly (s : Sys Tid) : Label Tid → Prop
  | .step t =>
      match s.calls t with
      | .closing sc => ClearToClose s sc
      | .forkClose _ c => ClearToClose s c
      | .extendPush self _ => s.closed self = false
      | _ => True
  | .closer sc =>
      match s.phase sc with
      | .closing (c :: _) => ClearToClose s c
      | _ => True
  | _ => True

omit [DecidableEq Tid] in
theorem Orderly.forkClose {t : Tid} {p c : ℕ} (ho : Orderly s (.step t))
    (h : s.calls t = .forkClose p c) : ClearToClose s c := by
  simpa [Orderly, h] using ho

omit [DecidableEq Tid] in
theorem Orderly.closing {t : Tid} {sc : ℕ} (ho : Orderly s (.step t))
    (h : s.calls t = .closing sc) : ClearToClose s sc := by
  simpa [Orderly, h] using ho

omit [DecidableEq Tid] in
theorem Orderly.closer {sc c : ℕ} {rest : List ℕ} (ho : Orderly s (.closer sc))
    (h : s.phase sc = .closing (c :: rest)) : ClearToClose s c := by
  simpa [Orderly, h] using ho

/-- **A close that does not cascade.** A scope moved under another one is closed by its former
    parent. A scope put under a parent that is being closed stays open. A scope whose own close is
    under way has not run its finalizer when the close of its parent returns. -/
theorem close_does_not_cascade :
    (∃ s : Sys ℕ, run Sys.step Sys.init [.make, .make, .fork 0 0, .step 0, .step 0, .step 0,
        .step 0, .extend 1 1 2, .step 1, .step 1, .step 1, .step 1, .step 1, .step 1, .step 1,
        .step 1, .close 9 0, .step 9, .closer 0, .closer 0] = some s ∧
      s.calls 1 = .extendDone 1 2 true ∧ s.link 2 = some 1 ∧ s.closed 1 = false ∧
      s.closed 2 = true ∧ s.closedBy 2 = some 0 ∧ s.strays 0 = [2]) ∧
    (∃ s : Sys ℕ, run Sys.step Sys.init [.make, .make, .extend 0 0 1, .step 0, .step 0, .step 0,
        .step 0, .step 0, .close 9 0, .step 9, .closer 0, .closer 0, .closer 0, .closer 0,
        .closer 0, .step 9, .step 0] = some s ∧
      s.calls 9 = .closeDone 0 true ∧ s.calls 0 = .extendDone 0 1 true ∧ s.link 1 = some 0 ∧
      s.alive 1 = true ∧ s.closed 1 = false) ∧
    (∃ s : Sys ℕ, run Sys.step Sys.init [.make, .fork 0 0, .step 0, .step 0, .step 0, .step 0,
        .addFinalizer 1 1, .step 1, .step 1, .step 1, .step 1, .step 1, .step 1, .close 8 1,
        .step 8, .close 9 0, .step 9, .closer 0, .closer 0, .closer 0, .closer 0, .closer 0,
        .closer 0, .step 9] = some s ∧
      s.calls 9 = .closeDone 0 true ∧ s.link 1 = some 0 ∧ s.calls 1 = .addDone 1 true ∧
      s.ran = []) ∧
    ¬ CloseCascades ℕ := by
  have hopen : ∃ s : Sys ℕ, run Sys.step Sys.init [.make, .make, .extend 0 0 1, .step 0, .step 0,
        .step 0, .step 0, .step 0, .close 9 0, .step 9, .closer 0, .closer 0, .closer 0, .closer 0,
        .closer 0, .step 9, .step 0] = some s ∧
      s.calls 9 = .closeDone 0 true ∧ s.calls 0 = .extendDone 0 1 true ∧ s.link 1 = some 0 ∧
      s.alive 1 = true ∧ s.closed 1 = false := ⟨_, rfl, rfl, rfl, rfl, rfl, rfl⟩
  refine ⟨⟨_, rfl, rfl, rfl, rfl, rfl, rfl, rfl⟩, hopen, ⟨_, rfl, rfl, rfl, rfl, rfl⟩, fun h => ?_⟩
  obtain ⟨s, hrun, hdone, -, hlink, halive, hclosed⟩ := hopen
  have hbelow : Below s 0 1 := .single ⟨halive, hlink⟩
  have := ((h _ s hrun).subtree 9 0 true hdone 1 hbelow).1
  rw [hclosed] at this
  cases this

/-! ## Who is being forked -/

/-- The child a call is forking and has not returned yet. -/
def Call.forkChild : Call Tid → Option ℕ
  | .forked _ c | .forkClose _ c | .forkWaiting _ c | .forkReturning _ c => some c
  | .walk _ (.fork _ c) | .climb _ (.fork _ c) => some c
  | _ => none

/-- The scope a call is putting under another one. -/
def Call.extendOther : Call Tid → Option ℕ
  | .extendParent _ c | .extendPush _ c => some c
  | .walk _ (.extendSelf _ c) | .climb _ (.extendSelf _ c) => some c
  | .walk _ (.extendOther _ c) | .climb _ (.extendOther _ c) => some c
  | _ => none

def Forking (s : Sys Tid) (c : ℕ) : Prop := ∃ t, (s.calls t).forkChild = some c

/-- A scope that is being forked is known to one call only, which has not returned yet: nobody has a
    handle of it, and nobody puts it anywhere. -/
structure Forks (s : Sys Tid) : Prop where
  made : ∀ c, Forking s c → c < s.next
  unique : ∀ t u c, (s.calls t).forkChild = some c → (s.calls u).forkChild = some c → t = u
  handed : ∀ c, s.handed c = true → c < s.next ∧ ¬ Forking s c
  linked : ∀ c p, s.link c = some p → c < s.next ∧ ¬ Forking s c
  extended : ∀ t c, (s.calls t).extendOther = some c → c < s.next ∧ ¬ Forking s c

omit [DecidableEq Tid] in
theorem Check.answer_forkChild (k : Check) (b : Bool) (cur : ℕ) :
    (k.answer b : Call Tid).forkChild = (Call.walk cur k : Call Tid).forkChild := by
  cases k <;> cases b <;> rfl

omit [DecidableEq Tid] in
theorem Check.answer_extendOther (k : Check) (b : Bool) (cur c : ℕ)
    (h : (k.answer b : Call Tid).extendOther = some c) :
    (Call.walk cur k : Call Tid).extendOther = some c := by
  cases k <;> cases b <;> first | exact h | cases h

/-- A call moves on with the same child to fork, if any, and nothing new to put anywhere. -/
theorem Forks.setCall {m : Sys Tid} {t : Tid} {c : Call Tid} (hs : Forks s) (hm : m.calls = s.calls)
    (hn : m.next = s.next) (hh : ∀ q, m.handed q = true → s.handed q = true)
    (hl : m.link = s.link) (hf : c.forkChild = (s.calls t).forkChild)
    (he : ∀ q, c.extendOther = some q → q < s.next ∧ ¬ Forking s q) : Forks (m.setCall t c) := by
  have hchild : ∀ u, ((m.setCall t c).calls u).forkChild = (s.calls u).forkChild := by
    intro u
    rw [setCall_calls, hm]
    split
    · next hu => rw [hu, hf]
    · rfl
  have hforking : ∀ q, Forking (m.setCall t c) q ↔ Forking s q := fun q =>
    exists_congr fun u => by rw [hchild u]
  have hnext : (m.setCall t c).next = s.next := hn
  refine ⟨fun q hq => ?_, fun u v q hu hv => ?_, fun q hq => ?_, fun q p hq => ?_, fun u q hu => ?_⟩
  · rw [hnext]
    exact hs.made q ((hforking q).1 hq)
  · exact hs.unique u v q (by rw [← hchild u]; exact hu) (by rw [← hchild v]; exact hv)
  · rw [hnext, hforking]
    exact hs.handed q (hh q hq)
  · rw [hnext, hforking]
    exact hs.linked q p (by rw [← hl]; exact hq)
  · rw [hnext, hforking]
    rw [setCall_calls, hm] at hu
    split at hu
    · exact he q hu
    · exact hs.extended u q hu

/-- A call moves on that is neither before nor after forking or putting anything. -/
theorem Forks.setCall_free {m : Sys Tid} {t : Tid} {c : Call Tid} (hs : Forks s)
    (hm : m.calls = s.calls) (hn : m.next = s.next) (hh : m.handed = s.handed)
    (hl : m.link = s.link) (hf : c.forkChild = (s.calls t).forkChild)
    (he : c.extendOther = none) : Forks (m.setCall t c) :=
  hs.setCall hm hn (fun q hq => by rw [← hh]; exact hq) hl hf fun q hq => by rw [he] at hq; cases hq

theorem Forks.startFork (hs : Forks s) {t : Tid} {p : ℕ} :
    Forks ((s.makeChild p).setCall t (.forked p s.next)) := by
  have hchild : ∀ u c, (((s.makeChild p).setCall t (.forked p s.next)).calls u).forkChild = some c →
      (u = t ∧ c = s.next) ∨ (s.calls u).forkChild = some c := by
    intro u c hu
    rw [setCall_calls] at hu
    split at hu
    · next he => exact Or.inl ⟨he, (Option.some.inj hu).symm⟩
    · exact Or.inr hu
  have hlt : ∀ {u c}, (s.calls u).forkChild = some c → c < s.next := fun {u c} hu =>
    hs.made c ⟨u, hu⟩
  -- the new child has a number nobody has heard of
  have hext : ∀ {c : ℕ}, c < s.next ∧ ¬ Forking s c →
      c < s.next + 1 ∧ ¬ Forking ((s.makeChild p).setCall t (.forked p s.next)) c := by
    rintro c ⟨hc, hnot⟩
    refine ⟨Nat.lt_succ_of_lt hc, ?_⟩
    rintro ⟨u, hu⟩
    rcases hchild u c hu with ⟨-, rfl⟩ | hold
    · exact absurd hc (Nat.lt_irrefl _)
    · exact hnot ⟨u, hold⟩
  refine ⟨?_, fun u v c hu hv => ?_, fun c hc => hext (hs.handed c hc),
    fun c q hc => hext (hs.linked c q hc), fun u c hu => ?_⟩
  · rintro c ⟨u, hu⟩
    rcases hchild u c hu with ⟨-, rfl⟩ | hold
    · exact Nat.lt_succ_self _
    · exact Nat.lt_succ_of_lt (hlt hold)
  · rcases hchild u c hu with ⟨hut, hc⟩ | hold <;> rcases hchild v c hv with ⟨hvt, hc'⟩ | hold'
    · rw [hut, hvt]
    · exact absurd (hc ▸ hlt hold') (Nat.lt_irrefl _)
    · exact absurd (hc' ▸ hlt hold) (Nat.lt_irrefl _)
    · exact hs.unique u v c hold hold'
  · rw [setCall_calls] at hu
    split at hu
    · cases hu
    · exact hext (hs.extended u c hu)

theorem Forks.forkReturn (hs : Forks s) {t : Tid} {p c : ℕ} (h : s.calls t = .forkReturning p c) :
    Forks ((s.handOut p c).setCall t (.forkDone p c)) := by
  have ht : (s.calls t).forkChild = some c := by rw [h]; rfl
  have hchild : ∀ u q, (((s.handOut p c).setCall t (.forkDone p c)).calls u).forkChild = some q →
      u ≠ t ∧ (s.calls u).forkChild = some q := by
    intro u q hu
    rw [setCall_calls] at hu
    split at hu
    · cases hu
    · next he => exact ⟨he, hu⟩
  have hext : ∀ {q : ℕ}, q < s.next ∧ ¬ Forking s q →
      q < s.next ∧ ¬ Forking ((s.handOut p c).setCall t (.forkDone p c)) q := by
    rintro q ⟨hq, hnot⟩
    refine ⟨hq, ?_⟩
    rintro ⟨u, hu⟩
    exact hnot ⟨u, (hchild u q hu).2⟩
  -- the call was the only one to know the child
  have hc : c < s.next ∧ ¬ Forking ((s.handOut p c).setCall t (.forkDone p c)) c := by
    refine ⟨hs.made c ⟨t, ht⟩, ?_⟩
    rintro ⟨u, hu⟩
    obtain ⟨hne, hold⟩ := hchild u c hu
    exact hne (hs.unique u t c hold ht)
  refine ⟨?_, fun u v q hu hv => hs.unique u v q (hchild u q hu).2 (hchild v q hv).2,
    fun q hq => ?_, fun q r hq => ?_, fun u q hu => ?_⟩
  · rintro q ⟨u, hu⟩
    exact hs.made q ⟨u, (hchild u q hu).2⟩
  · have hq : Function.update s.handed c true q = true := hq
    rw [Function.update_apply] at hq
    split at hq
    · next he => exact he ▸ hc
    · exact hext (hs.handed q hq)
  · have hq : Function.update s.link c (some p) q = some r := hq
    rw [Function.update_apply] at hq
    split at hq
    · next he => exact he ▸ hc
    · exact hext (hs.linked q r hq)
  · rw [setCall_calls] at hu
    split at hu
    · cases hu
    · exact hext (hs.extended u q hu)

theorem Forks.extendPush (hs : Forks s) {t : Tid} {self other : ℕ}
    (h : s.calls t = .extendPush self other) :
    Forks ((s.attach self other).setCall t (.extendDone self other true)) := by
  have hpush := hs.setCall_free (m := s.pushChild self other) (t := t)
    (c := .extendDone self other true) rfl rfl rfl rfl (by rw [h]; rfl) rfl
  refine ⟨hpush.made, hpush.unique, hpush.handed, fun q r hq => ?_, hpush.extended⟩
  have hq : Function.update s.link other (some self) q = some r := hq
  rw [Function.update_apply] at hq
  split at hq
  · next he =>
      obtain ⟨hlt, hnot⟩ := hs.extended t other (by rw [h]; rfl)
      subst he
      refine ⟨hlt, ?_⟩
      rintro ⟨u, hu⟩
      rw [setCall_calls] at hu
      split at hu
      · cases hu
      · exact hnot ⟨u, hu⟩
  · exact hpush.linked q r hq

/-- A call that walks up, or has walked up, keeps what it is about. -/
theorem Forks.answer (hs : Forks s) {t : Tid} {cur : ℕ} {k : Check} (b : Bool)
    (h : s.calls t = .walk cur k ∨ s.calls t = .climb cur k) :
    Forks (s.setCall t (k.answer b)) := by
  have hwalk : (s.calls t).forkChild = (Call.walk cur k : Call Tid).forkChild ∧
      (s.calls t).extendOther = (Call.walk cur k : Call Tid).extendOther := by
    rcases h with h | h <;> rw [h] <;> cases k <;> exact ⟨rfl, rfl⟩
  refine hs.setCall rfl rfl (fun _ h => h) rfl ?_ fun q hq => ?_
  · rw [hwalk.1, k.answer_forkChild b cur]
  · exact hs.extended t q (hwalk.2.trans (k.answer_extendOther b cur q hq))

theorem Forks.step (hs : Forks s) (h : Step s l s') : Forks s' := by
  cases h with
  | make =>
      have hext : ∀ {c : ℕ}, c < s.next ∧ ¬ Forking s c → c < s.next + 1 ∧ ¬ Forking s c :=
        fun hc => ⟨Nat.lt_succ_of_lt hc.1, hc.2⟩
      refine ⟨fun c hc => Nat.lt_succ_of_lt (hs.made c hc), hs.unique, fun c hc => ?_,
        fun c p hc => hext (hs.linked c p hc), fun t c hc => hext (hs.extended t c hc)⟩
      have hc : Function.update s.handed s.next true c = true := hc
      rw [Function.update_apply] at hc
      split at hc
      · next he =>
          subst he
          exact ⟨Nat.lt_succ_self _, fun hf => absurd (hs.made _ hf) (Nat.lt_irrefl _)⟩
      · exact hext (hs.handed c hc)
  | @drop sc h =>
      refine ⟨hs.made, hs.unique, fun c hc => hs.handed c ?_, hs.linked, hs.extended⟩
      have hc : Function.update s.handed sc false c = true := hc
      rw [Function.update_apply] at hc
      split at hc
      · cases hc
      · exact hc
  | startFork h hp => exact hs.startFork
  | @startExtend t self other h hself hother =>
      refine hs.setCall rfl rfl (fun _ h => h) rfl (by rw [h]; rfl) fun q hq => ?_
      exact Option.some.inj hq ▸ hs.handed other hother
  | startAdd h _ | startClose h _ | forkPush h | forkLost h _ | forkSwap h _ | forkWaited h _
  | attempt h | commit h _ | abort h _ | closeLost h _ | closeSwap h _ | closeWaited h _ =>
      exact hs.setCall_free rfl rfl rfl rfl (by rw [h]; rfl) rfl
  | walkClosed h hcl => exact hs.answer true (Or.inl h)
  | @walkOpen t cur k h _ | @climb t cur _ k h _ =>
      refine hs.setCall rfl rfl (fun _ h => h) rfl (by rw [h]; cases k <;> rfl) fun q hq => ?_
      exact hs.extended t q (by rw [h]; cases k <;> exact hq)
  | climbTop h => exact hs.answer false (Or.inr h)
  | forkReturn h => exact hs.forkReturn h
  | @extendParent t self other h =>
      refine hs.setCall rfl rfl (fun _ h => h) rfl (by rw [h]; rfl) fun q hq => ?_
      exact hs.extended t q (by rw [h]; exact hq)
  | extendPush h => exact hs.extendPush h
  | _ => exact ⟨hs.made, hs.unique, hs.handed, hs.linked, hs.extended⟩

/-! ## Every entry of a list of children is taken care of -/

/-- The child `c` of `p` whose `fork` has yet to find out that `p` is closed, or has, and closes it.
    -/
def Call.late : Call Tid → Option (ℕ × ℕ)
  | .walk cur (.fork p c) => if cur = p then some (p, c) else none
  | .forkClose p c | .forkWaiting p c => some (p, c)
  | _ => none

/-- The close of `c` is over, or a `fork` sees to it. -/
def Settled (s : Sys Tid) (p c : ℕ) : Prop :=
  s.phase c = .done ∨ ∃ t, (s.calls t).late = some (p, c)

/-- What the close of `p` still owes to the entry `c` of its list of children. -/
def Cover (s : Sys Tid) (p c : ℕ) : Prop :=
  match s.phase p with
  | .idle | .swapped => True
  | .closing rest => c ∈ rest ∨ Settled s p c
  | .waiting d rest => c = d ∨ c ∈ rest ∨ Settled s p c
  | _ => Settled s p c

def Covers (s : Sys Tid) : Prop :=
  ∀ p, ∀ c ∈ s.children p, s.alive c = true → Cover s p c

omit [DecidableEq Tid] in
theorem Cover.mono {p c : ℕ} (h : Cover s p c) (hp : s'.phase p = s.phase p)
    (hset : s.phase p ≠ .idle → Settled s p c → Settled s' p c) : Cover s' p c := by
  unfold Cover at h ⊢
  rw [hp]
  cases hph : s.phase p with
  | idle => trivial
  | swapped => trivial
  | closing rest =>
      rw [hph] at h hset
      exact h.imp_right (hset (by simp))
  | waiting d rest =>
      rw [hph] at h hset
      exact h.imp_right (Or.imp_right (hset (by simp)))
  | draining =>
      rw [hph] at h hset
      exact hset (by simp) h
  | drained txn fs =>
      rw [hph] at h hset
      exact hset (by simp) h
  | running fs =>
      rw [hph] at h hset
      exact hset (by simp) h
  | done =>
      rw [hph] at h hset
      exact hset (by simp) h

/-- A call moves on. If it was a late `fork`, it still is, or the child is settled, or the parent is
    open. -/
theorem settled_setCall {m : Sys Tid} {t : Tid} {c : Call Tid} {p q : ℕ} (hm : m.calls = s.calls)
    (hph : s.phase q = .done → m.phase q = .done)
    (hlate : (s.calls t).late = some (p, q) → c.late = some (p, q) ∨ s.phase q = .done)
    (h : Settled s p q) : Settled (m.setCall t c) p q := by
  rcases h with h | ⟨u, hu⟩
  · exact Or.inl (hph h)
  · by_cases hut : u = t
    · subst hut
      rcases hlate hu with hc | hd
      · exact Or.inr ⟨u, by simpa using hc⟩
      · exact Or.inl (hph hd)
    · exact Or.inr ⟨u, by rw [setCall_calls, if_neg hut, hm]; exact hu⟩

theorem Covers.setCall {m : Sys Tid} {t : Tid} {c : Call Tid} (hs : Covers s)
    (hm : m.calls = s.calls) (hch : m.children = s.children) (hph : m.phase = s.phase)
    (ha : ∀ q, m.alive q = true → s.alive q = true)
    (hlate : ∀ p q, (s.calls t).late = some (p, q) → s.phase p ≠ .idle →
      c.late = some (p, q) ∨ s.phase q = .done) : Covers (m.setCall t c) := by
  intro p q hq halive
  have hq : q ∈ m.children p := hq
  rw [hch] at hq
  refine (hs p q hq (ha q halive)).mono ?_ fun hne => ?_
  · show m.phase p = s.phase p
    rw [hph]
  · exact settled_setCall hm (by rw [hph]; exact id) fun hl => hlate p q hl hne

/-- A call moves on that was no late `fork`. -/
theorem Covers.setCall_free {m : Sys Tid} {t : Tid} {c : Call Tid} (hs : Covers s)
    (hm : m.calls = s.calls) (hch : m.children = s.children) (hph : m.phase = s.phase)
    (ha : m.alive = s.alive) (h : (s.calls t).late = none) : Covers (m.setCall t c) :=
  hs.setCall hm hch hph (fun q hq => by rw [← ha]; exact hq) fun p q hl => by
    rw [h] at hl
    cases hl

omit [DecidableEq Tid] in
theorem settled_setPhase {m : Sys Tid} {sc p c : ℕ} {ph : Phase Tid} (hm : m.calls = s.calls)
    (hph : m.phase = s.phase) (hnd : s.phase sc ≠ .done) (h : Settled s p c) :
    Settled (m.setPhase sc ph) p c := by
  rcases h with hd | ⟨t, ht⟩
  · refine Or.inl ?_
    rw [setPhase_phase, if_neg, hph]
    · exact hd
    · rintro rfl
      exact hnd hd
  · exact Or.inr ⟨t, by show (m.calls t).late = _; rw [hm]; exact ht⟩

omit [DecidableEq Tid] in
/-- The close of `sc` goes on, and does right by its own list. -/
theorem Covers.setPhase {m : Sys Tid} {sc : ℕ} {ph : Phase Tid} (hs : Covers s)
    (hm : m.calls = s.calls) (hch : m.children = s.children) (hph : m.phase = s.phase)
    (ha : m.alive = s.alive) (hnd : s.phase sc ≠ .done)
    (hnew : ∀ c ∈ s.children sc, s.alive c = true → Cover (m.setPhase sc ph) sc c) :
    Covers (m.setPhase sc ph) := by
  intro p q hmem hlive
  have hq : q ∈ s.children p := by
    rw [← hch]
    exact hmem
  have halive : s.alive q = true := by
    rw [← ha]
    exact hlive
  by_cases hp : p = sc
  · rw [hp] at hq ⊢
    exact hnew q hq halive
  · exact (hs p q hq halive).mono (by rw [setPhase_phase, if_neg hp, hph]) fun _ hset =>
      settled_setPhase hm hph hnd hset

omit [DecidableEq Tid] in
/-- A close that has won the swap has everything in its list before it. -/
theorem Covers.beginClose (hs : Covers s) {sc : ℕ} (h : s.phase sc = .idle) :
    Covers (s.beginClose sc) := by
  have hset : Covers (s.setPhase sc .swapped) := by
    refine hs.setPhase rfl rfl rfl rfl (by simp [h]) fun c _ _ => ?_
    unfold Cover
    rw [setPhase_phase, if_pos rfl]
    trivial
  exact hset

/-- The phases after the children: the close owes them nothing any more. -/
def Phase.pastChildren : Phase Tid → Bool
  | .draining | .drained _ _ | .running _ | .done => true
  | _ => false

omit [DecidableEq Tid] in
theorem cover_iff_settled {p c : ℕ} (h : (s.phase p).pastChildren = true) :
    Cover s p c ↔ Settled s p c := by
  unfold Cover
  revert h
  cases s.phase p <;> simp [Phase.pastChildren]

omit [DecidableEq Tid] in
/-- The close of `sc` goes on once its children are closed. -/
theorem Covers.setPhase_past {m : Sys Tid} {sc : ℕ} {ph : Phase Tid} (hs : Covers s)
    (hm : m.calls = s.calls) (hch : m.children = s.children) (hph : m.phase = s.phase)
    (ha : m.alive = s.alive) (hnd : s.phase sc ≠ .done) (hpast : (s.phase sc).pastChildren = true)
    (hph' : ph.pastChildren = true) : Covers (m.setPhase sc ph) := by
  refine hs.setPhase hm hch hph ha hnd fun c hc hlive => ?_
  rw [cover_iff_settled (by rw [setPhase_phase, if_pos rfl]; exact hph')]
  exact settled_setPhase hm hph hnd ((cover_iff_settled hpast).1 (hs sc c hc hlive))

omit [DecidableEq Tid] in
theorem mem_pushChild {p q a b : ℕ} :
    b ∈ (s.pushChild p q).children a ↔ b ∈ s.children a ∨ a = p ∧ b = q := by
  show b ∈ Function.update s.children p (s.children p ++ [q]) a ↔ _
  rw [Function.update_apply]
  split
  · next h => simp [h]
  · next h => simp [h]

/-- An entry is pushed: by a late `fork`, or into the list of an open scope. -/
theorem Covers.push {m : Sys Tid} {t : Tid} {c : Call Tid} {p q : ℕ} (hs : Covers s)
    (hm : m.calls = s.calls) (hch : m.children = (s.pushChild p q).children)
    (hph : m.phase = s.phase) (ha : m.alive = s.alive) (h : (s.calls t).late = none)
    (hnew : c.late = some (p, q) ∨ s.phase p = .idle) : Covers (m.setCall t c) := by
  intro a b hmem hlive
  have hb : b ∈ s.children a ∨ a = p ∧ b = q := by
    rw [← mem_pushChild, ← hch]
    exact hmem
  have halive : s.alive b = true := by
    rw [← ha]
    exact hlive
  rcases hb with hb | ⟨rfl, rfl⟩
  · refine (hs a b hb halive).mono (by show m.phase a = _; rw [hph]) fun _ hset => ?_
    exact settled_setCall hm (by rw [hph]; exact id) (fun hl => by rw [h] at hl; cases hl) hset
  · unfold Cover
    rw [show (m.setCall t c).phase a = s.phase a by show m.phase a = _; rw [hph]]
    rcases hnew with hnew | hidle
    · have hset : Settled (m.setCall t c) a b := Or.inr ⟨t, by simpa using hnew⟩
      split
      · trivial
      · trivial
      · exact Or.inr hset
      · exact Or.inr (Or.inr hset)
      · exact hset
    · rw [hidle]
      trivial

omit [DecidableEq Tid] in
theorem Check.answer_late {k : Check} {cur p c : ℕ}
    (h : (Call.walk cur k : Call Tid).late = some (p, c)) :
    cur = p ∧ (k.answer true : Call Tid).late = some (p, c) := by
  cases k with
  | fork p' c' =>
      simp only [Call.late] at h
      split at h
      · next he =>
          simp only [Option.some.injEq, Prod.mk.injEq] at h
          obtain ⟨rfl, rfl⟩ := h
          exact ⟨he, rfl⟩
      · cases h
  | extendSelf self other => cases h
  | extendOther self other => cases h
  | addFinalizer sc => cases h

omit [DecidableEq Tid] in
/-- The close of `sc` goes on to its next child once `c` is closed. -/
theorem Covers.nextChild (hs : Covers s) {sc c : ℕ} {rest : List ℕ} (hnd : s.phase sc ≠ .done)
    (hdone : s.phase c = .done)
    (hcov : ∀ q, Cover s sc q → q = c ∨ q ∈ rest ∨ Settled s sc q) :
    Covers (s.setPhase sc (.closing rest)) := by
  refine hs.setPhase rfl rfl rfl rfl hnd fun q hq hlive => ?_
  have hkeep : Settled s sc q → Settled (s.setPhase sc (.closing rest)) sc q :=
    settled_setPhase rfl rfl hnd
  unfold Cover
  rw [setPhase_phase, if_pos rfl]
  rcases hcov q (hs sc q hq hlive) with rfl | hmem | hset
  · exact Or.inr (hkeep (Or.inl hdone))
  · exact Or.inl hmem
  · exact Or.inr (hkeep hset)

omit [DecidableEq Tid] in
/-- The close of `sc` begins that of its next child `c` and waits for it. -/
theorem Covers.beginChild (hs : Covers s) {sc c : ℕ} {rest : List ℕ}
    (h : s.phase sc = .closing (c :: rest)) (hidle : s.phase c = .idle) :
    Covers ({ s.beginClose c with
      closedBy := Function.update s.closedBy c (some sc) }.setPhase sc (.waiting c rest)) := by
  have hsc : (s.beginClose c).phase sc = .closing (c :: rest) := by
    rw [beginClose_phase, if_neg]
    · exact h
    · rintro rfl
      rw [h] at hidle
      cases hidle
  have hbegin := hs.beginClose hidle
  refine hbegin.setPhase rfl rfl rfl rfl (by rw [hsc]; simp) fun q hq hlive => ?_
  have hcov := hbegin sc q hq hlive
  unfold Cover at hcov ⊢
  rw [hsc] at hcov
  rw [setPhase_phase, if_pos rfl]
  rcases hcov with hmem | hset
  · rcases List.mem_cons.1 hmem with rfl | hmem
    · exact Or.inl rfl
    · exact Or.inr (Or.inl hmem)
  · exact Or.inr (Or.inr (settled_setPhase rfl rfl (by rw [hsc]; simp) hset))

/-- **Every orderly step takes care of every entry.** -/
theorem Covers.step (hs : Covers s) (hflag : FlagOk s) (h : Step s l s') (ho : Orderly s l) :
    Covers s' := by
  cases h with
  | make => exact hs
  | @drop sc h =>
      intro p c hc hlive
      refine (hs p c hc ?_).mono rfl fun _ hset => hset
      have hlive : Function.update s.alive sc false c = true := hlive
      rw [Function.update_apply] at hlive
      split at hlive
      · cases hlive
      · exact hlive
  | startFork h _ | startExtend h _ _ | startAdd h _ | startClose h _ | climb h _ | climbTop h
  | forkReturn h | extendParent h | attempt h | commit h _ | abort h _ | closeLost h _
  | closeWaited h _ => exact hs.setCall_free rfl rfl rfl rfl (by rw [h]; rfl)
  | walkClosed h hcl =>
      refine hs.setCall rfl rfl rfl (fun _ h => h) fun p c hl _ => ?_
      rw [h] at hl
      exact Or.inl (Check.answer_late hl).2
  | walkOpen h hcl =>
      -- a `fork` that finds its parent open pushed before the parent was closed
      refine hs.setCall rfl rfl rfl (fun _ h => h) fun p c hl hne => ?_
      rw [h] at hl
      rw [(Check.answer_late hl).1] at hcl
      exact absurd ((hflag p).2 hcl) hne
  | forkPush h =>
      exact hs.push rfl rfl rfl rfl (by rw [h]; rfl) (Or.inl (by simp [Call.late]))
  | forkLost h hcl =>
      have hdone := (ho.forkClose h).1 hcl
      refine hs.setCall rfl rfl rfl (fun _ h => h) fun p c hl _ => ?_
      rw [h] at hl
      cases hl
      exact Or.inr hdone
  | forkSwap h hcl =>
      refine (hs.beginClose ((hflag _).2 hcl)).setCall rfl rfl rfl (fun _ h => h) fun p c hl _ => ?_
      have hl : (s.calls _).late = some (p, c) := hl
      rw [h] at hl
      exact Or.inl hl
  | forkWaited h hd =>
      refine hs.setCall rfl rfl rfl (fun _ h => h) fun p c hl _ => ?_
      rw [h] at hl
      cases hl
      exact Or.inr hd
  | @extendPush t self other h =>
      have hopen : s.closed self = false := by simpa [Orderly, h] using ho
      exact hs.push rfl rfl rfl rfl (by rw [h]; rfl) (Or.inr ((hflag self).2 hopen))
  | closeSwap h hcl =>
      refine (hs.beginClose ((hflag _).2 hcl)).setCall_free rfl rfl rfl rfl ?_
      show (s.calls _).late = none
      rw [h]
      rfl
  | collect h =>
      refine hs.setPhase rfl rfl rfl rfl (by simp [h]) fun c hc hlive => ?_
      unfold Cover
      rw [setPhase_phase, if_pos rfl]
      exact Or.inl (List.mem_filter.2 ⟨hc, hlive⟩)
  | @childrenDone sc h =>
      refine hs.setPhase rfl rfl rfl rfl (by simp [h]) fun c hc hlive => ?_
      rw [cover_iff_settled (by rw [setPhase_phase, if_pos rfl]; rfl)]
      have hcov := hs sc c hc hlive
      unfold Cover at hcov
      rw [h] at hcov
      exact settled_setPhase rfl rfl (by simp [h]) (hcov.resolve_left List.not_mem_nil)
  | @childLost sc c rest h hcl =>
      have hdone := (ho.closer h).1 hcl
      refine hs.nextChild (by simp [h]) hdone fun q hcov => ?_
      unfold Cover at hcov
      rw [h] at hcov
      simpa [or_assoc] using hcov
  | childSwap h hcl => exact hs.beginChild h ((hflag _).2 hcl)
  | childWaited h hd =>
      refine hs.nextChild (by simp [h]) hd fun q hcov => ?_
      unfold Cover at hcov
      rw [h] at hcov
      exact hcov
  | drain h | drainCommit h _ | drainAbort h _ | runOne h | finish h =>
      exact hs.setPhase_past rfl rfl rfl rfl (by simp [h]) (by rw [h]; rfl) rfl

/-! ## Links, returned closes and strays -/

/-- The entry a `fork` has pushed and not returned yet. -/
def Call.pushed : Call Tid → Option (ℕ × ℕ)
  | .walk _ (.fork p c) | .climb _ (.fork p c) => some (p, c)
  | .forkClose p c | .forkWaiting p c | .forkReturning p c => some (p, c)
  | _ => none

/-- A linked scope is in the list it should be in, a close that has returned is over, and no close
    has had a stray in its list. -/
structure Links (s : Sys Tid) : Prop where
  link : ∀ c p, s.link c = some p → c ∈ s.children p
  pushed : ∀ t p c, (s.calls t).pushed = some (p, c) → c ∈ s.children p
  returned : ∀ t p ok, s.calls t = .closeDone p ok → s.phase p = .done
  strays : ∀ p, s.strays p = []

theorem Links.setCall {m : Sys Tid} {t : Tid} {c : Call Tid} (hs : Links s) (hm : m.calls = s.calls)
    (hch : ∀ p, ∀ q ∈ s.children p, q ∈ m.children p) (hl : m.link = s.link)
    (hst : m.strays = s.strays) (hph : ∀ p, s.phase p = .done → m.phase p = .done)
    (hp : ∀ p q, c.pushed = some (p, q) → q ∈ m.children p)
    (hc : ∀ p ok, c = .closeDone p ok → m.phase p = .done) : Links (m.setCall t c) := by
  refine ⟨fun q p hq => ?_, fun u p q hu => ?_, fun u p ok hu => ?_, fun p => ?_⟩
  · have hq : m.link q = some p := hq
    rw [hl] at hq
    exact hch p q (hs.link q p hq)
  · rw [setCall_calls, hm] at hu
    split at hu
    · exact hp p q hu
    · exact hch p q (hs.pushed u p q hu)
  · rw [setCall_calls, hm] at hu
    split at hu
    · exact hc p ok hu
    · exact hph p (hs.returned u p ok hu)
  · show m.strays p = []
    rw [hst]
    exact hs.strays p

/-- A call moves on that has pushed no more than before and does not return from a close. -/
theorem Links.setCall_free {m : Sys Tid} {t : Tid} {c : Call Tid} (hs : Links s)
    (hm : m.calls = s.calls) (hch : m.children = s.children) (hl : m.link = s.link)
    (hst : m.strays = s.strays) (hph : ∀ p, s.phase p = .done → m.phase p = .done)
    (hp : ∀ x, c.pushed = some x → (s.calls t).pushed = some x)
    (hc : ∀ p ok, c ≠ .closeDone p ok) : Links (m.setCall t c) :=
  hs.setCall hm (fun p q hq => by rw [hch]; exact hq) hl hst hph
    (fun p q hq => by rw [hch]; exact hs.pushed t p q (hp _ hq)) fun p ok h => absurd h (hc p ok)

/-- A call moves on to where it has pushed nothing. -/
theorem Links.setCall_clear {m : Sys Tid} {t : Tid} {c : Call Tid} (hs : Links s)
    (hm : m.calls = s.calls) (hch : m.children = s.children) (hl : m.link = s.link)
    (hst : m.strays = s.strays) (hph : ∀ p, s.phase p = .done → m.phase p = .done)
    (hp : c.pushed = none) (hc : ∀ p ok, c ≠ .closeDone p ok) : Links (m.setCall t c) :=
  hs.setCall_free hm hch hl hst hph (fun x hx => by rw [hp] at hx; cases hx) hc

omit [DecidableEq Tid] in
theorem Links.setPhase {m : Sys Tid} {sc : ℕ} {ph : Phase Tid} (hs : Links s)
    (hm : m.calls = s.calls) (hch : m.children = s.children) (hl : m.link = s.link)
    (hst : m.strays = s.strays) (hph : m.phase = s.phase) (hnd : s.phase sc ≠ .done) :
    Links (m.setPhase sc ph) := by
  refine ⟨fun q p hq => ?_, fun u p q hu => ?_, fun u p ok hu => ?_, fun p => ?_⟩
  · show q ∈ m.children p
    rw [hch]
    exact hs.link q p (by rw [← hl]; exact hq)
  · show q ∈ m.children p
    rw [hch]
    exact hs.pushed u p q (by rw [← hm]; exact hu)
  · have hdone := hs.returned u p ok (by rw [← hm]; exact hu)
    rw [setPhase_phase, if_neg, hph]
    · exact hdone
    · rintro rfl
      exact hnd hdone
  · show m.strays p = []
    rw [hst]
    exact hs.strays p

omit [DecidableEq Tid] in
theorem Links.pushChild (hs : Links s) (p c : ℕ) : Links (s.pushChild p c) where
  link := fun q r hq => mem_pushChild.2 (Or.inl (hs.link q r hq))
  pushed := fun t r q hq => mem_pushChild.2 (Or.inl (hs.pushed t r q hq))
  returned := hs.returned
  strays := hs.strays

omit [DecidableEq Tid] in
/-- A scope is linked to one that lists it. -/
theorem Links.relink (hs : Links s) {p c : ℕ} (hmem : c ∈ s.children p) :
    Links { s with link := Function.update s.link c (some p) } := by
  refine ⟨fun q r hq => ?_, hs.pushed, hs.returned, hs.strays⟩
  have hq : Function.update s.link c (some p) q = some r := hq
  rw [Function.update_apply] at hq
  split at hq
  · next he =>
      cases hq
      rw [he]
      exact hmem
  · exact hs.link q r hq

omit [DecidableEq Tid] in
/-- A close begins whose list has no strays in it. -/
theorem Links.beginClose (hs : Links s) {sc : ℕ} (hidle : s.phase sc = .idle)
    (hclear : ∀ c ∈ s.children sc, s.isStray sc c = false) : Links (s.beginClose sc) := by
  have hset : Links (s.setPhase sc .swapped) := hs.setPhase rfl rfl rfl rfl rfl (by simp [hidle])
  refine ⟨hset.link, hset.pushed, hset.returned, fun p => ?_⟩
  show Function.update s.strays sc ((s.children sc).filter (s.isStray sc)) p = []
  rw [Function.update_apply]
  split
  · rw [List.filter_eq_nil_iff]
    intro c hc
    simp [hclear c hc]
  · exact hs.strays p

omit [DecidableEq Tid] in
theorem Check.answer_pushed (k : Check) (b : Bool) (x : ℕ × ℕ)
    (h : (k.answer b : Call Tid).pushed = some x) (cur : ℕ) :
    (Call.walk cur k : Call Tid).pushed = some x ∧
      (Call.climb cur k : Call Tid).pushed = some x := by
  cases k <;> cases b <;> exact ⟨h, h⟩

omit [DecidableEq Tid] in
theorem Check.answer_ne_closeDone (k : Check) (b : Bool) (p : ℕ) (ok : Bool) :
    (k.answer b : Call Tid) ≠ .closeDone p ok := by
  cases k <;> cases b <;> simp [Check.answer]

theorem Links.step (hs : Links s) (hflag : FlagOk s) (h : Step s l s') (ho : Orderly s l) :
    Links s' := by
  cases h with
  | make | drop => exact ⟨hs.link, hs.pushed, hs.returned, hs.strays⟩
  | startFork | startExtend | startAdd | startClose | extendParent | attempt | commit | abort =>
      exact hs.setCall_clear rfl rfl rfl rfl (fun _ h => h) rfl (by simp)
  | @walkClosed t cur k h hcl =>
      refine hs.setCall_free rfl rfl rfl rfl (fun _ h => h) (fun x hx => ?_)
        (k.answer_ne_closeDone true)
      rw [h]
      exact (k.answer_pushed true x hx cur).1
  | @walkOpen t cur k h hcl =>
      refine hs.setCall_free rfl rfl rfl rfl (fun _ h => h) (fun x hx => ?_) (by simp)
      rw [h]
      cases k <;> exact hx
  | @climb t cur p k h hp =>
      refine hs.setCall_free rfl rfl rfl rfl (fun _ h => h) (fun x hx => ?_) (by simp)
      rw [h]
      cases k <;> exact hx
  | @climbTop t cur k h =>
      refine hs.setCall_free rfl rfl rfl rfl (fun _ h => h) (fun x hx => ?_)
        (k.answer_ne_closeDone false)
      rw [h]
      exact (k.answer_pushed false x hx cur).2
  | @forkPush t p c h =>
      refine (hs.pushChild p c).setCall rfl (fun _ _ h => h) rfl rfl (fun _ h => h)
        (fun a q hq => ?_) (by simp)
      cases hq
      exact mem_pushChild.2 (Or.inr ⟨rfl, rfl⟩)
  | forkLost h _ | forkWaited h _ =>
      exact hs.setCall_free rfl rfl rfl rfl (fun _ h => h) (fun x hx => by rw [h]; exact hx)
        (by simp)
  | @forkSwap t p c h hcl =>
      have hidle := (hflag c).2 hcl
      have hclear := (ho.forkClose h).2 hcl
      refine (hs.beginClose hidle hclear).setCall_free rfl rfl rfl rfl (fun _ h => h)
        (fun x hx => ?_) (by simp)
      show (s.calls t).pushed = some x
      rw [h]
      exact hx
  | @forkReturn t p c h =>
      have hmem : c ∈ s.children p := hs.pushed t p c (by rw [h]; rfl)
      exact (hs.relink hmem).setCall_clear rfl rfl rfl rfl (fun _ h => h) rfl (by simp)
  | @extendPush t self other h =>
      have hmem : other ∈ (s.pushChild self other).children self :=
        mem_pushChild.2 (Or.inr ⟨rfl, rfl⟩)
      exact ((hs.pushChild self other).relink hmem).setCall_clear rfl rfl rfl rfl (fun _ h => h)
        rfl (by simp)
  | @closeLost t sc h hcl =>
      have hdone := (ho.closing h).1 hcl
      refine hs.setCall rfl (fun _ _ h => h) rfl rfl (fun _ h => h) (by simp [Call.pushed]) ?_
      rintro p ok he
      cases he
      exact hdone
  | @closeSwap t sc h hcl =>
      have hidle := (hflag sc).2 hcl
      have hclear := (ho.closing h).2 hcl
      exact (hs.beginClose hidle hclear).setCall_clear rfl rfl rfl rfl (fun _ h => h) rfl (by simp)
  | closeWaited h hd =>
      refine hs.setCall rfl (fun _ _ h => h) rfl rfl (fun _ h => h) (by simp [Call.pushed]) ?_
      rintro p ok he
      cases he
      exact hd
  | @childSwap sc c rest h hcl =>
      have hidle := (hflag c).2 hcl
      have hclear := (ho.closer h).2 hcl
      refine (hs.beginClose hidle hclear).setPhase rfl rfl rfl rfl rfl ?_
      rw [beginClose_phase]
      split <;> simp [h]
  | collect h | childrenDone h | childLost h _ | childWaited h _ | drain h | drainCommit h _
  | drainAbort h _ | runOne h | finish h => exact hs.setPhase rfl rfl rfl rfl rfl (by simp [h])

/-! ## Whole runs -/

/-- Everything the orderly runs keep. -/
structure TreeInv (s : Sys Tid) : Prop where
  flags : FlagOk s
  finalizers : FinInv s
  notLost : ∀ sc, NotLost sc s
  forks : Forks s
  covers : Covers s
  links : Links s

theorem treeInv_init : TreeInv (Sys.init : Sys Tid) where
  flags := flagOk_init
  finalizers := finInv_init
  notLost := fun _ _ h => by cases h
  forks := by
    refine ⟨?_, ?_, ?_, ?_, ?_⟩
    · rintro c ⟨t, ht⟩
      cases ht
    · intro t u c ht
      cases ht
    · intro c hc
      cases hc
    · intro c p hc
      cases hc
    · intro t c ht
      cases ht
  covers := fun _ c hc => by cases hc
  links := by
    refine ⟨?_, ?_, ?_, fun _ => rfl⟩
    · intro c p hc
      cases hc
    · intro t p c ht
      cases ht
    · intro t p ok ht
      cases ht

theorem TreeInv.step (hs : TreeInv s) (h : Step s l s') (ho : Orderly s l) (hw : NoWrap s l)
    (hin : ∀ sc, InTime sc s l) : TreeInv s' where
  flags := hs.flags.step h
  finalizers := hs.finalizers.step hw (.of_step hs.flags h)
  notLost := fun sc =>
    (notLost_step hs.finalizers hw (.of_step hs.flags h) sc).2 ⟨hs.notLost sc, hin sc⟩
  forks := hs.forks.step h
  covers := hs.covers.step hs.flags h ho
  links := hs.links.step hs.flags h ho

omit [DecidableEq Tid] in
theorem Call.forkChild_of_late {c : Call Tid} {p q : ℕ} (h : c.late = some (p, q)) :
    c.forkChild = some q := by
  cases c with
  | walk cur k =>
      cases k with
      | fork p' c' =>
          simp only [Call.late] at h
          split at h
          · simp only [Option.some.injEq, Prod.mk.injEq] at h
            rw [Call.forkChild, h.2]
          · cases h
      | _ => cases h
  | forkClose p' c' =>
      simp only [Call.late, Option.some.injEq, Prod.mk.injEq] at h
      rw [Call.forkChild, h.2]
  | forkWaiting p' c' =>
      simp only [Call.late, Option.some.injEq, Prod.mk.injEq] at h
      rw [Call.forkChild, h.2]
  | _ => cases h

/-- A scope whose close is over has seen to every live scope linked under it. -/
theorem TreeInv.child_done (hs : TreeInv s) {p c : ℕ} (hp : s.phase p = .done)
    (halive : s.alive c = true) (hlink : s.link c = some p) : s.phase c = .done := by
  have hcov := hs.covers p c (hs.links.link c p hlink) halive
  rw [cover_iff_settled (by rw [hp]; rfl)] at hcov
  rcases hcov with hd | ⟨t, ht⟩
  · exact hd
  · exact absurd ⟨t, Call.forkChild_of_late ht⟩ (hs.forks.linked c p hlink).2

theorem TreeInv.cascaded (hs : TreeInv s) : Cascaded s := by
  refine ⟨fun t p ok hret c hbelow => ?_, fun p c _ => ?_⟩
  · have hp := hs.links.returned t p ok hret
    have hc : s.phase c = .done := by
      induction hbelow using Relation.TransGen.head_induction_on with
      | single h => exact hs.child_done hp h.1 h.2
      | head h _ ih => exact hs.child_done ih h.1 h.2
    refine ⟨?_, ((hs.finalizers.runOnce_iff hc).2 (hs.notLost c)).1⟩
    refine eq_true_of_ne_false fun hf => ?_
    rw [(hs.flags c).2 hf] at hc
    cases hc
  · rw [hs.links.strays p]
    exact List.not_mem_nil

/-- **A close cascades.** In every run of orderly steps, with finalizers added in time, every close
    that has returned has closed all the live scopes below and had their finalizers run once, and no
    scope was closed by a parent it had been taken away from. -/
theorem close_cascades (ls : List (Label Tid)) (s : Sys Tid)
    (hrun : run Sys.step Sys.init ls = some s)
    (hg : Along Sys.step (fun s l => Orderly s l ∧ NoWrap s l ∧ ∀ sc, InTime sc s l) Sys.init ls) :
    Cascaded s :=
  (run_invariant_along (I := TreeInv) (fun _ _ _ hs hg h => hs.step (.of_step h) hg.1 hg.2.1 hg.2.2)
    treeInv_init hg hrun).cascaded

/-- A test for a step of a run without finalizers: a close that is about to look at the flag finds
    it not set, and everything in the list of children there by right. -/
def smooth (s : Sys ℕ) : Label ℕ → Bool
  | .step t =>
      match s.calls t with
      | .closing sc => clear s sc
      | .forkClose _ _ | .extendPush _ _ | .added _ _ => false
      | _ => true
  | .closer sc =>
      match s.phase sc with
      | .closing (c :: _) => clear s c
      | _ => true
  | _ => true
where
  clear (s : Sys ℕ) (sc : ℕ) : Bool :=
    !s.closed sc && (s.children sc).all fun c => !s.isStray sc c

theorem clearToClose_of_smooth {s : Sys ℕ} {sc : ℕ} (h : smooth.clear s sc = true) :
    ClearToClose s sc := by
  simp only [smooth.clear, Bool.and_eq_true, Bool.not_eq_true', List.all_eq_true] at h
  refine ⟨fun hclosed => ?_, fun _ c hc => h.2 c hc⟩
  rw [h.1] at hclosed
  cases hclosed

theorem orderly_of_smooth {s : Sys ℕ} {l : Label ℕ} (h : smooth s l = true) :
    Orderly s l ∧ ∀ sc, InTime sc s l := by
  unfold smooth at h
  unfold Orderly InTime
  cases l with
  | step t =>
      simp only at h ⊢
      cases hcall : s.calls t with
      | closing sc =>
          rw [hcall] at h
          exact ⟨clearToClose_of_smooth h, nofun⟩
      | forkClose p c =>
          rw [hcall] at h
          cases h
      | extendPush self other =>
          rw [hcall] at h
          cases h
      | added sc txn =>
          rw [hcall] at h
          cases h
      | _ => exact ⟨trivial, nofun⟩
  | closer sc =>
      simp only at h ⊢
      refine ⟨?_, fun _ => trivial⟩
      split at h
      · next c rest hphase =>
          rw [hphase]
          exact clearToClose_of_smooth h
      · next hno =>
          split
          · next c rest hphase => exact absurd hphase (hno c rest)
          · trivial
  | _ => exact ⟨trivial, fun _ => trivial⟩

/-- The call 9 has closed the scope 0, and with it the scope 1. -/
def childClosed (s : Sys ℕ) : Bool :=
  match s.calls 9 with
  | .closeDone 0 true => s.link 1 == some 0 && s.closed 1
  | _ => false

/-- A child is closed by its parent. -/
theorem close_cascades_child : ∃ s : Sys ℕ,
    run Sys.step Sys.init [.make, .fork 0 0, .step 0, .step 0, .step 0, .step 0, .close 9 0,
      .step 9, .closer 0, .closer 0, .closer 1, .closer 1, .closer 1, .closer 1, .closer 1,
      .closer 0, .closer 0, .closer 0, .closer 0, .closer 0, .step 9] = some s ∧
    s.calls 9 = .closeDone 0 true ∧ s.link 1 = some 0 ∧ s.closed 1 = true ∧ Cascaded s := by
  have hsmooth : Along Sys.step (fun s l => smooth s l = true) Sys.init [.make, .fork 0 0, .step 0,
      .step 0, .step 0, .step 0, .close 9 0, .step 9, .closer 0, .closer 0, .closer 1, .closer 1,
      .closer 1, .closer 1, .closer 1, .closer 0, .closer 0, .closer 0, .closer 0, .closer 0,
      .step 9] := by decide +kernel
  obtain ⟨s, hrun, hclosed⟩ : ∃ s, run Sys.step Sys.init [.make, .fork 0 0, .step 0, .step 0,
      .step 0, .step 0, .close 9 0, .step 9, .closer 0, .closer 0, .closer 1, .closer 1, .closer 1,
      .closer 1, .closer 1, .closer 0, .closer 0, .closer 0, .closer 0, .closer 0, .step 9] =
        some s ∧ childClosed s = true := exists_run _ (by decide +kernel)
  have hcascaded := close_cascades _ s hrun
    ((hsmooth.imp fun _ _ => orderly_of_smooth).and (along_noWrap _ 0 _ (fun _ => Nat.le_refl _)
      (by decide)) |>.imp fun _ _ h => ⟨h.1.1, h.2, h.1.2⟩)
  unfold childClosed at hclosed
  split at hclosed
  · next hcall =>
      rw [Bool.and_eq_true, beq_iff_eq] at hclosed
      exact ⟨s, hrun, hcall, hclosed.1, hclosed.2, hcascaded⟩
  · cases hclosed

end IdEffect.Scope
