import Mathlib.Data.Set.Card
import IdEffect.Streaming.ChannelRuns
import IdEffect.Streaming.Combinators

set_option autoImplicit false

/-! # Producers of a stream that has been dropped

`Drop for Stream` does nothing to a channel: the queue stays open, and its receiver is kept alive by
the senders. A producer that offers its message until it is accepted does so for ever once the queue
is full, since nobody takes anything out any more. Which calls return is therefore a matter of the
room that is left (`producers_stop_iff`). -/

namespace IdEffect.Channels

open Transition Streaming

variable {Tid A E : Type} [DecidableEq Tid] {capacity : ℕ} {policy : BackpressurePolicy}

/-! ## Streams that can be dropped -/

/-- A channel, and whether its `Stream` has been dropped. -/
structure Handle (Tid A E : Type) where
  sys : Sys Tid A E
  dropped : Bool

inductive HandleLabel (Tid A E : Type) where
  | on (l : Label Tid A E)
  | drop

namespace Handle

/-- `stream_from_channel_with_policy` -/
def init (capacity : ℕ) (policy : BackpressurePolicy) : Handle Tid A E :=
  ⟨.init capacity policy, false⟩

/-- A stream that has been dropped is not pulled. `Drop for Stream` closes the scope of a
    `DirectQueue` and leaves a channel as it is. -/
def step (h : Handle Tid A E) : HandleLabel Tid A E → Option (Handle Tid A E)
  | .on l =>
      if h.dropped && l.isPull then none else (h.sys.step l).map fun s => { h with sys := s }
  | .drop => if h.dropped then none else some { h with dropped := true }

end Handle

/-- An iteration of the offer loop of the call `t`. -/
def HandleLabel.isAttempt (t : Tid) : HandleLabel Tid A E → Bool
  | .on (.step u) => decide (u = t)
  | _ => false

/-- The call is in a loop that goes on after a refused offer. -/
def Call.retries (policy : BackpressurePolicy) : Call A E → Bool
  | .sending _ => decide (policy = .boundedBlock)
  | .terminating _ => true
  | .idle | .pushed | .returned | .full => false

/-- The call can still put a message into the queue. -/
def Call.MayPush (c : Call A E) : Prop := c = .idle ∨ c.offers ≠ none

namespace Handle

/-- The call `t` leaves its loop after finitely many iterations, whatever the others do. -/
def Returns (h : Handle Tid A E) (t : Tid) : Prop :=
  ∃ n, ∀ ls h', run step h ls = some h' → n ≤ ls.countP (HandleLabel.isAttempt t) →
    (h'.sys.calls t).offers = none

/-- The other calls that can still put a message into the queue. -/
def rivals (h : Handle Tid A E) (t : Tid) : Set Tid := {u | u ≠ t ∧ (h.sys.calls u).MayPush}

/-- Nothing can come to keep the call `t` in its loop. -/
def Free (capacity : ℕ) (policy : BackpressurePolicy) (t : Tid) (h : Handle Tid A E) : Prop :=
  policy = .dropOldest ∨ (h.sys.calls t).retries policy = false ∨
    (h.sys.queue.buffered.length : ℕ∞) + (h.rivals t).encard < (max capacity 1 : ℕ)

end Handle

/-! ## One step of a producer -/

section Sys

variable {s s' : Sys Tid A E} {l : Label Tid A E} {t : Tid} {m : ChannelMessage A E}

theorem not_mayPush {c : Call A E} (hidle : c ≠ .idle) (hoffers : c.offers = none) :
    ¬ c.MayPush := by
  rintro (h | h)
  · exact hidle h
  · exact h hoffers

omit [DecidableEq Tid] in
theorem not_mayPush_afterPush (s : Sys Tid A E) : ¬ s.afterPush.MayPush := by
  unfold Sys.afterPush
  split
  · exact not_mayPush nofun rfl
  · exact not_mayPush nofun rfl

/-- An attempt is an offer. If it is refused, a call that retries is where it was, and any other
    call is done. -/
theorem attempt (h : (s.calls t).offers = some m) :
    ∃ refused, s.step (.step t) = some (s.offer t m refused) ∧
      ((s.calls t).retries s.policy = true → refused = s.calls t) ∧
      ((s.calls t).retries s.policy = false → ¬ refused.MayPush) := by
  cases hc : s.calls t with
  | sending chunk =>
      rw [hc] at h
      obtain rfl := Option.some.inj h
      refine ⟨Sys.refusedChunk s.policy chunk, by simp only [Sys.step, Sys.stepCall, hc], ?_, ?_⟩
      · intro hretries
        rw [of_decide_eq_true hretries]
        rfl
      · intro hretries
        have hp := of_decide_eq_false hretries
        unfold Sys.refusedChunk
        split
        · next hblock => exact absurd hblock hp
        · exact not_mayPush (by simp) rfl
        · exact not_mayPush (by simp) rfl
        · exact not_mayPush (by simp) rfl
  | terminating n =>
      rw [hc] at h
      obtain rfl := Option.some.inj h
      exact ⟨.terminating n, by simp only [Sys.step, Sys.stepCall, hc], fun _ => rfl,
        by simp [Call.retries]⟩
  | idle => simp [hc, Call.offers] at h
  | pushed => simp [hc, Call.offers] at h
  | returned => simp [hc, Call.offers] at h
  | full => simp [hc, Call.offers] at h

/-- With room in the queue, the message goes in. -/
theorem attempt_room (hs : Shape capacity policy s) (h : (s.calls t).offers = some m)
    (hroom : s.queue.buffered.length < max capacity 1) :
    ∃ s', s.step (.step t) = some s' ∧ s'.calls = Function.update s.calls t s.afterPush ∧
      s'.queue.buffered.length = s.queue.buffered.length + 1 := by
  obtain ⟨refused, hstep, -⟩ := attempt h
  rw [offer_room hs hroom] at hstep
  exact ⟨_, hstep, rfl, by simp [Sys.setCall]⟩

/-- A full queue that evicts nothing leaves a call that retries where it was. -/
theorem attempt_full (hs : Shape capacity policy s) (h : (s.calls t).offers = some m)
    (hfull : ¬ s.queue.buffered.length < max capacity 1) (hp : policy ≠ .dropOldest)
    (hretries : (s.calls t).retries policy = true) : s.step (.step t) = some s := by
  obtain ⟨refused, hstep, hstay, -⟩ := attempt h
  rw [hs.policy_eq] at hstay
  rw [hstep, offer_refused hs hfull hp, hstay hretries, Sys.setCall, Function.update_eq_self]

/-- The call `u` goes to `c`. Either it pushes a message and has no other, or the queue does not
    grow. -/
structure Acted (s s' : Sys Tid A E) (u : Tid) (c : Call A E) : Prop where
  calls : s'.calls = Function.update s.calls u c
  begun : c ≠ .idle
  length : (s'.queue.buffered.length ≤ s.queue.buffered.length ∧
      (c.MayPush → (s.calls u).MayPush)) ∨
    (s'.queue.buffered.length = s.queue.buffered.length + 1 ∧ (s.calls u).offers ≠ none ∧
      ¬ c.MayPush)

theorem Acted.of_start {c : Call A E} (hc : c ≠ .idle) (h : s.start t c = some s') :
    s.calls t = .idle ∧ Acted s s' t c := by
  unfold Sys.start at h
  split at h
  · next hidle =>
      obtain rfl := Option.some.inj h
      exact ⟨hidle, rfl, hc, .inl ⟨le_rfl, fun _ => .inl hidle⟩⟩
  · cases h

/-- An attempt, whatever comes of it. -/
theorem Acted.of_attempt (hs : Shape capacity policy s) (h : (s.calls t).offers = some m)
    (hstep : s.step (.step t) = some s') : ∃ c, Acted s s' t c := by
  have hne : (s.calls t).offers ≠ none := by simp [h]
  by_cases hroom : s.queue.buffered.length < max capacity 1
  · obtain ⟨s'', hstep', hcalls, hlen⟩ := attempt_room hs h hroom
    obtain rfl := Option.some.inj (hstep.symm.trans hstep')
    have hpushed := not_mayPush_afterPush s
    exact ⟨s.afterPush, hcalls, fun hidle => hpushed (.inl hidle), .inr ⟨hlen, hne, hpushed⟩⟩
  · obtain ⟨refused, hstep', hstay, hdone⟩ := attempt h
    rw [hstep', Option.some.injEq] at hstep
    subst hstep
    by_cases hp : policy = .dropOldest
    · subst hp
      obtain ⟨old, rest, hbuf, -, hoffer⟩ := offer_evicts hs t m refused hroom
      rw [hoffer]
      refine ⟨.pushed, rfl, nofun, .inl ⟨?_, fun _ => .inr hne⟩⟩
      simp [Sys.setCall, hbuf]
    · rw [offer_refused hs hroom hp]
      refine ⟨refused, rfl, ?_, .inl ⟨le_rfl, fun _ => .inr hne⟩⟩
      rintro rfl
      cases hretries : (s.calls t).retries s.policy with
      | false => exact hdone hretries (.inl rfl)
      | true =>
          rw [← hstay hretries] at h
          cases h

/-- What the step of a producer does. -/
theorem producer_step (hs : Shape capacity policy s) (h : s.step l = some s')
    (hl : l.isPull = false) :
    ∃ u c, (l = .step u ∨ s.calls u = .idle) ∧ Acted s s' u c := by
  cases l with
  | sendChunk u chunk =>
      obtain ⟨hidle, hacted⟩ := Acted.of_start (c := .sending chunk) (by simp) h
      exact ⟨u, _, .inr hidle, hacted⟩
  | fail u error =>
      obtain ⟨hidle, hacted⟩ := Acted.of_start (c := .terminating (.fail error)) (by simp) h
      exact ⟨u, _, .inr hidle, hacted⟩
  | endStream u =>
      obtain ⟨hidle, hacted⟩ := Acted.of_start (c := .terminating .endStream) (by simp) h
      exact ⟨u, _, .inr hidle, hacted⟩
  | pull size => cases hl
  | step u =>
      cases hoffers : (s.calls u).offers with
      | some n =>
          obtain ⟨c, hacted⟩ := Acted.of_attempt hs hoffers h
          exact ⟨u, c, .inl rfl, hacted⟩
      | none =>
          -- The call that has pushed wakes the consumer; any other has no step.
          have hc : s.calls u = .pushed := by
            cases hc : s.calls u with
            | pushed => rfl
            | sending chunk => simp [hc, Call.offers] at hoffers
            | terminating n => simp [hc, Call.offers] at hoffers
            | idle => simp [Sys.step, Sys.stepCall, hc] at h
            | returned => simp [Sys.step, Sys.stepCall, hc] at h
            | full => simp [Sys.step, Sys.stepCall, hc] at h
          simp only [Sys.step, Sys.stepCall, hc, Option.some.injEq] at h
          subst h
          exact ⟨u, .returned, .inl rfl, rfl, by simp,
            .inl ⟨le_rfl, fun h => absurd h (not_mayPush (by simp) rfl)⟩⟩

/-- A call whose offer is accepted, or that does not retry, is done after an attempt. -/
theorem attempt_leaves (hs : Shape capacity policy s) (h : (s.calls t).offers = some m)
    (hfree : policy = .dropOldest ∨ (s.calls t).retries policy = false ∨
      s.queue.buffered.length < max capacity 1) (hstep : s.step (.step t) = some s') :
    ¬ (s'.calls t).MayPush := by
  by_cases hroom : s.queue.buffered.length < max capacity 1
  · obtain ⟨s'', hstep', hcalls, -⟩ := attempt_room hs h hroom
    obtain rfl := Option.some.inj (hstep.symm.trans hstep')
    rw [hcalls, Function.update_self]
    exact not_mayPush_afterPush s
  · obtain ⟨refused, hstep', -, hdone⟩ := attempt h
    rw [hs.policy_eq] at hdone
    rw [hstep', Option.some.injEq] at hstep
    subst hstep
    by_cases hp : policy = .dropOldest
    · subst hp
      obtain ⟨old, rest, -, -, hoffer⟩ := offer_evicts hs t m refused hroom
      rw [hoffer]
      show ¬ (Function.update s.calls t .pushed t).MayPush
      rw [Function.update_self]
      exact not_mayPush nofun rfl
    · rw [offer_refused hs hroom hp]
      show ¬ (Function.update s.calls t refused t).MayPush
      rw [Function.update_self]
      exact hdone ((hfree.resolve_left hp).resolve_right hroom)

end Sys

/-! ## Runs after the drop -/

section Handle

variable {h h' : Handle Tid A E} {l : HandleLabel Tid A E} {t : Tid}

theorem Handle.step_on {s s' : Sys Tid A E} {l : Label Tid A E} (hl : l.isPull = false)
    (hstep : s.step l = some s') (d : Bool) :
    Handle.step ⟨s, d⟩ (.on l) = some ⟨s', d⟩ := by
  simp [Handle.step, hl, hstep]

theorem Handle.shape_step (hs : Shape capacity policy h.sys) (hstep : h.step l = some h') :
    Shape capacity policy h'.sys := by
  cases l with
  | on l =>
      simp only [Handle.step] at hstep
      split at hstep
      · cases hstep
      · obtain ⟨s, hsys, rfl⟩ := Option.map_eq_some_iff.1 hstep
        exact hs.step (.of_step hs hsys)
  | drop =>
      simp only [Handle.step] at hstep
      split at hstep
      · cases hstep
      · obtain rfl := Option.some.inj hstep
        exact hs

theorem Handle.shape_of_run {ls : List (HandleLabel Tid A E)}
    (hrun : run Handle.step (Handle.init capacity policy) ls = some h) :
    Shape capacity policy h.sys :=
  run_invariant (I := fun h => Shape capacity policy h.sys)
    (fun _ _ _ hs hstep => Handle.shape_step hs hstep) (Inv.init capacity policy).toShape hrun

/-- After the drop there are only steps of producers. -/
theorem Handle.step_dropped (hd : h.dropped = true) (hstep : h.step l = some h') :
    ∃ k : Label Tid A E, l = .on k ∧ k.isPull = false ∧ h.sys.step k = some h'.sys ∧
      h'.dropped = true := by
  cases l with
  | on k =>
      simp only [Handle.step, hd, Bool.true_and] at hstep
      split at hstep
      · cases hstep
      · next hpull =>
          obtain ⟨s, hsys, rfl⟩ := Option.map_eq_some_iff.1 hstep
          exact ⟨k, rfl, eq_false_of_ne_true hpull, hsys, rfl⟩
  | drop => simp [Handle.step, hd] at hstep

/-- A call that is done stays done. -/
theorem Handle.done_step (hs : Shape capacity policy h.sys) (hd : h.dropped = true)
    (hdone : ¬ (h.sys.calls t).MayPush) (hstep : h.step l = some h') :
    ¬ (h'.sys.calls t).MayPush := by
  obtain ⟨k, -, hk, hsys, -⟩ := Handle.step_dropped hd hstep
  obtain ⟨u, c, -, hacted⟩ := producer_step hs hsys hk
  rw [hacted.calls]
  by_cases hut : t = u
  · subst hut
    rw [Function.update_self]
    rcases hacted.length with ⟨-, hc⟩ | ⟨-, hoffers, -⟩
    · exact fun h => hdone (hc h)
    · exact absurd (.inr hoffers) hdone
  · rwa [Function.update_of_ne hut]

/-- A producer other than `t` pushes no more than it was counted for. -/
theorem Handle.rivals_step {u : Tid} {c : Call A E} (hacted : Acted h.sys h'.sys u c)
    (hne : u ≠ t) : (h'.sys.queue.buffered.length : ℕ∞) + (h'.rivals t).encard ≤
      h.sys.queue.buffered.length + (h.rivals t).encard := by
  have hcalls : ∀ v, v ≠ u → h'.sys.calls v = h.sys.calls v := fun v hv => by
    rw [hacted.calls, Function.update_of_ne hv]
  have hu : h'.sys.calls u = c := by rw [hacted.calls, Function.update_self]
  rcases hacted.length with ⟨hlen, hc⟩ | ⟨hlen, hoffers, hc⟩
  · refine add_le_add (by exact_mod_cast hlen) (Set.encard_le_encard fun v hv => ⟨hv.1, ?_⟩)
    have hmay := hv.2
    by_cases hvu : v = u
    · rw [hvu] at hmay ⊢
      exact hc (hu ▸ hmay)
    · rwa [hcalls v hvu] at hmay
  · have hmem : u ∈ h.rivals t := ⟨hne, .inr hoffers⟩
    have hsub : h'.rivals t ⊆ h.rivals t \ {u} := by
      intro v hv
      have hvu : v ≠ u := by
        rintro rfl
        exact hc (hu ▸ hv.2)
      exact ⟨⟨hv.1, hcalls v hvu ▸ hv.2⟩, hvu⟩
    rw [hlen, ← Set.encard_sdiff_singleton_add_one hmem, Nat.cast_add, Nat.cast_one, add_assoc,
      add_comm 1]
    gcongr

/-- The stream is gone, and nothing can come to keep the call `t`, which has begun, in its loop. -/
structure Handle.Held (capacity : ℕ) (policy : BackpressurePolicy) (t : Tid)
    (h : Handle Tid A E) : Prop where
  dropped : h.dropped = true
  shape : Shape capacity policy h.sys
  begun : h.sys.calls t ≠ .idle
  free : h.Free capacity policy t

theorem retries_eq_false {c : Call A E} (h : ¬ c.MayPush) : c.retries policy = false := by
  cases c with
  | sending chunk => exact absurd (.inr nofun) h
  | terminating m => exact absurd (.inr nofun) h
  | idle => rfl
  | pushed => rfl
  | returned => rfl
  | full => rfl

/-- An attempt of such a call is its last. -/
theorem Handle.Held.attempt (hh : h.Held capacity policy t)
    (hstep : h.step (.on (.step t)) = some h') : ¬ (h'.sys.calls t).MayPush := by
  obtain ⟨k, hk, -, hsys, -⟩ := Handle.step_dropped hh.dropped hstep
  obtain rfl := HandleLabel.on.inj hk
  cases hoffers : (h.sys.calls t).offers with
  | none => exact Handle.done_step hh.shape hh.dropped (not_mayPush hh.begun hoffers) hstep
  | some m =>
      refine attempt_leaves hh.shape hoffers (hh.free.imp_right (.imp_right fun hlt => ?_)) hsys
      exact_mod_cast lt_of_le_of_lt le_self_add hlt

theorem Handle.Held.step (hh : h.Held capacity policy t) (hstep : h.step l = some h') :
    h'.Held capacity policy t := by
  obtain ⟨k, rfl, hk, hsys, hd⟩ := Handle.step_dropped hh.dropped hstep
  obtain ⟨u, c, hu, hacted⟩ := producer_step hh.shape hsys hk
  have hshape := Handle.shape_step hh.shape hstep
  by_cases hut : u = t
  · subst hut
    obtain rfl := hu.resolve_right hh.begun
    have hdone := hh.attempt hstep
    refine ⟨hd, hshape, fun hidle => hdone (.inl hidle), .inr (.inl ?_)⟩
    exact retries_eq_false hdone
  · have hcall : h'.sys.calls t = h.sys.calls t := by
      rw [hacted.calls, Function.update_of_ne (Ne.symm hut)]
    refine ⟨hd, hshape, hcall ▸ hh.begun, ?_⟩
    rcases hh.free with hp | hretries | hlt
    · exact .inl hp
    · exact .inr (.inl (hcall ▸ hretries))
    · exact .inr (.inr (lt_of_le_of_lt (Handle.rivals_step hacted hut) hlt))

theorem Handle.Held.returns (hh : h.Held capacity policy t) : h.Returns t := by
  refine ⟨1, fun ls h' hrun hcount => ?_⟩
  have hvariant := run_variant (c := HandleLabel.isAttempt t)
    (I := fun h : Handle Tid A E => h.Held capacity policy t)
    (P := fun h => ¬ (h.sys.calls t).MayPush) (μ := fun _ => 1)
    (fun h l h' hh _ hstep => hh.step hstep)
    (fun h l h' hh hdone hstep => Handle.done_step hh.shape hh.dropped hdone hstep)
    (fun h l h' hh _ _ hstep => ?_) hh (along_true _ _ ls) hrun
  · rcases hvariant with hdone | hle
    · by_contra hoffers
      exact hdone (.inr hoffers)
    · omega
  · by_cases hl : l = .on (.step t)
    · subst hl
      exact .inl (hh.attempt hstep)
    · refine .inr ?_
      have hother : HandleLabel.isAttempt t l = false := by
        unfold HandleLabel.isAttempt
        split
        · exact decide_eq_false fun hut => hl (hut ▸ rfl)
        · rfl
      rw [hother]
      rfl

/-! ### A queue that is filled -/

/-- Other calls can push as long as there is room. -/
theorem Handle.fill (us : List Tid) {s : Sys Tid A E} (hs : Shape capacity policy s)
    (hnodup : us.Nodup) (hus : ∀ u ∈ us, u ≠ t ∧ (s.calls u).MayPush)
    (hroom : s.queue.buffered.length + us.length ≤ max capacity 1) (d : Bool) :
    ∃ ls s', run Handle.step ⟨s, d⟩ ls = some ⟨s', d⟩ ∧ Shape capacity policy s' ∧
      s'.calls t = s.calls t ∧
      s'.queue.buffered.length = s.queue.buffered.length + us.length := by
  induction us generalizing s with
  | nil => exact ⟨[], s, rfl, hs, rfl, rfl⟩
  | cons u us ih =>
      obtain ⟨hnotin, hnodup⟩ := List.nodup_cons.1 hnodup
      obtain ⟨hut, hmay⟩ := hus u List.mem_cons_self
      rw [List.length_cons] at hroom
      -- The call begins if it has not, and then its attempt succeeds.
      obtain ⟨ls, s₁, hrun, hs₁, m, hoffers, hcalls, hlen⟩ : ∃ ls s₁,
          run Handle.step ⟨s, d⟩ ls = some ⟨s₁, d⟩ ∧ Shape capacity policy s₁ ∧
          ∃ m, (s₁.calls u).offers = some m ∧ (∀ v, v ≠ u → s₁.calls v = s.calls v) ∧
            s₁.queue = s.queue := by
        rcases hmay with hidle | hoffers
        · have hstart : s.step (.sendChunk u []) = some (s.setCall u (.sending [])) := by
            simp only [Sys.step, Sys.start, hidle]
          refine ⟨[.on (.sendChunk u [])], _,
            run_cons_eq_some.2 ⟨_, Handle.step_on rfl hstart d, rfl⟩,
            ⟨hs.policy_eq, hs.queue, hs.length_le⟩, .chunk [], ?_, fun v hv => ?_, rfl⟩
          · simp [Sys.setCall, Call.offers]
          · exact Function.update_of_ne hv _ _
        · obtain ⟨m, hm⟩ := Option.ne_none_iff_exists'.1 hoffers
          exact ⟨[], s, rfl, hs, m, hm, fun _ _ => rfl, rfl⟩
      rw [← hlen] at hroom
      obtain ⟨s₂, hstep, hcalls₂, hlen₂⟩ := attempt_room hs₁ hoffers (by omega)
      have hs₂ := hs₁.step (.of_step hs₁ hstep)
      have hothers : ∀ v, v ≠ u → s₂.calls v = s.calls v := fun v hv => by
        rw [hcalls₂, Function.update_of_ne hv, hcalls v hv]
      obtain ⟨ls', s', hrun', hs', hcall, hlen'⟩ := ih hs₂ hnodup
        (fun v hv => by
          have hvu : v ≠ u := fun heq => hnotin (heq ▸ hv)
          rw [hothers v hvu]
          exact hus v (List.mem_cons_of_mem _ hv))
        (by omega)
      refine ⟨ls ++ .on (.step u) :: ls', s', ?_, hs', ?_, ?_⟩
      · rw [run_append hrun]
        exact run_cons_eq_some.2 ⟨_, Handle.step_on rfl hstep d, hrun'⟩
      · rw [hcall, hothers t (Ne.symm hut)]
      · rw [hlen', hlen₂, hlen, List.length_cons]
        omega

/-- A call that retries in a full queue has no last attempt. -/
theorem Handle.spins {s : Sys Tid A E} {m : ChannelMessage A E} (hs : Shape capacity policy s)
    (hoffers : (s.calls t).offers = some m) (hfull : ¬ s.queue.buffered.length < max capacity 1)
    (hp : policy ≠ .dropOldest) (hretries : (s.calls t).retries policy = true) (d : Bool) (n : ℕ) :
    run Handle.step ⟨s, d⟩ (List.replicate n (.on (.step t))) = some ⟨s, d⟩ := by
  induction n with
  | zero => rfl
  | succ n ih =>
      have hstay := attempt_full hs hoffers hfull hp hretries
      exact run_cons_eq_some.2 ⟨_, Handle.step_on rfl hstay d, ih⟩

/-- Where it is not free, others can come first, and then the call does not return. -/
theorem Handle.not_returns {m : ChannelMessage A E} (hs : Shape capacity policy h.sys)
    (hoffers : (h.sys.calls t).offers = some m) (hfree : ¬ h.Free capacity policy t) :
    ¬ h.Returns t := by
  rw [Handle.Free, not_or, not_or, not_lt, Bool.not_eq_false] at hfree
  obtain ⟨hp, hretries, hle⟩ := hfree
  rintro ⟨n, hreturns⟩
  have hlen := hs.length_le
  -- As many rivals as there is room for.
  have hcard : ((max capacity 1 - h.sys.queue.buffered.length : ℕ) : ℕ∞) ≤
      (h.rivals t).encard := by
    rw [← Nat.sub_add_cancel hlen, Nat.cast_add, add_comm] at hle
    exact (ENat.add_le_add_iff_left (ENat.natCast_ne_top _)).1 hle
  obtain ⟨us, hus, husCard⟩ := Set.exists_subset_encard_eq hcard
  have hfinite : us.Finite := Set.finite_of_encard_eq_coe husCard
  have hlength : hfinite.toFinset.toList.length =
      max capacity 1 - h.sys.queue.buffered.length := by
    rw [hfinite.encard_eq_coe_toFinset_card] at husCard
    rw [Finset.length_toList]
    exact_mod_cast husCard
  obtain ⟨ls, s', hrun, hs', hcall, hlen'⟩ := Handle.fill hfinite.toFinset.toList hs
    (Finset.nodup_toList _)
    (fun u hu => hus (hfinite.mem_toFinset.1 (Finset.mem_toList.1 hu))) (by omega) h.dropped
  have hspins := Handle.spins hs' (hcall ▸ hoffers) (by omega) hp (hcall ▸ hretries) h.dropped n
  have hnone := hreturns (ls ++ List.replicate n (.on (.step t))) _
    ((run_append hrun).trans hspins) (by simp [HandleLabel.isAttempt, List.countP_replicate])
  rw [hcall, hoffers] at hnone
  cases hnone

end Handle

/-! ## Pumps -/

/-- A thread with messages to send, one after another, the queue of the stream they are for, and
    whether this stream has been dropped. -/
structure Pump (A E : Type) where
  queue : Queue (ChannelMessage A E)
  todo : List (ChannelMessage A E)
  dropped : Bool

inductive PumpLabel where
  | attempt
  | take
  | drop

namespace Pump

/-- `stream_from_channel`, and a thread that is spawned with the sender. -/
def new (capacity : ℕ) (todo : List (ChannelMessage A E)) : Pump A E :=
  ⟨queueOf capacity .boundedBlock, todo, false⟩

/-- The pump is the only producer, and each of its sends offers until it is accepted. -/
def step (p : Pump A E) : PumpLabel → Option (Pump A E)
  | .attempt =>
      match p.todo with
      | [] => none
      | m :: todo =>
          match p.queue.offer m with
          | (true, queue) => some { p with queue := queue, todo := todo }
          | (false, queue) => some { p with queue := queue }
  | .take => if p.dropped then none else p.queue.recv.map fun r => { p with queue := r.2 }
  | .drop => if p.dropped then none else some { p with dropped := true }

/-- `body_as_chunk_stream` -/
def bodyAsChunkStream (body : List A) (chunkSize : ℕ) : Pump A E :=
  new 8 ((groups (max chunkSize 1) body).map .chunk ++ [.endStream])

/-- What `execute_stream` sends for the answers of `resp.chunk()`, of which the last is `Ok(None)`:
    an error, or too many bytes in all, ends it early. -/
def responseMessages (max : ℕ) (bodyTooLarge : ℕ → E) :
    ℕ → List (Except E (List A)) → List (ChannelMessage A E)
  | _, [] => [.endStream]
  | _, .error e :: _ => [.fail e]
  | total, .ok bytes :: results =>
      if total + bytes.length > max then [.fail (bodyTooLarge (total + bytes.length))]
      else .chunk bytes :: responseMessages max bodyTooLarge (total + bytes.length) results

/-- `ReqwestHttpClient::execute_stream` -/
def executeStream (max : ℕ) (bodyTooLarge : ℕ → E) (results : List (Except E (List A))) :
    Pump A E :=
  new 16 (responseMessages max bodyTooLarge 0 results)

/-- By its own attempts the pump comes to the end of its messages. -/
def Finishes (p : Pump A E) : Prop :=
  ∃ n p', run step p (List.replicate n .attempt) = some p' ∧ p'.todo = []

variable {p p' : Pump A E}

/-- The queue of a pump. -/
structure Shape (capacity : ℕ) (p : Pump A E) : Prop where
  queue : p.queue = queueWith capacity .boundedBlock p.queue.buffered
  length_le : p.queue.buffered.length ≤ max capacity 1

/-- An attempt moves a message into the queue if there is room, and does nothing otherwise. -/
theorem step_attempt (hp : p.Shape capacity) {m : ChannelMessage A E}
    {todo : List (ChannelMessage A E)} (htodo : p.todo = m :: todo) :
    p.step .attempt = some (if p.queue.buffered.length < max capacity 1 then
      { p with queue := queueWith capacity .boundedBlock (p.queue.buffered ++ [m]), todo := todo }
      else p) := by
  have hoffer := offer_eq_decision .boundedBlock m hp.length_le
  rw [← hp.queue] at hoffer
  simp only [step, htodo]
  by_cases hroom : p.queue.buffered.length < max capacity 1
  · rw [decision_room hroom] at hoffer
    rw [hoffer, if_pos hroom]
  · rw [decision_full hroom] at hoffer
    have hrefused : p.queue.offer m = (false, p.queue) := hoffer
    rw [hrefused, if_neg hroom, ← htodo]

/-- An attempt moves a message or leaves everything where it is. -/
theorem step_attempt_count (hp : p.Shape capacity) (hstep : p.step .attempt = some p') :
    p'.todo.length + p'.queue.buffered.length = p.todo.length + p.queue.buffered.length := by
  cases htodo : p.todo with
  | nil => simp [Pump.step, htodo] at hstep
  | cons m todo =>
      rw [step_attempt hp htodo, Option.some.injEq] at hstep
      subst hstep
      split
      · simp only [queueWith_buffered, List.length_append, List.length_cons, List.length_nil]
        omega
      · rw [htodo]

theorem Shape.step (hp : p.Shape capacity) {l : PumpLabel} (hstep : p.step l = some p') :
    p'.Shape capacity := by
  cases l with
  | attempt =>
      cases htodo : p.todo with
      | nil => simp [Pump.step, htodo] at hstep
      | cons m todo =>
          rw [step_attempt hp htodo, Option.some.injEq] at hstep
          subst hstep
          split
          · next hroom =>
              refine ⟨by rw [queueWith_buffered], ?_⟩
              rw [queueWith_buffered, List.length_append, List.length_singleton]
              omega
          · exact hp
  | take =>
      simp only [Pump.step] at hstep
      split at hstep
      · cases hstep
      · have hlen := hp.length_le
        cases hbuf : p.queue.buffered with
        | nil =>
            rw [hp.queue, hbuf, queueWith_recv_nil] at hstep
            cases hstep
        | cons m rest =>
            rw [hp.queue, hbuf, queueWith_recv_cons, Option.map_some, Option.some.injEq] at hstep
            subst hstep
            rw [hbuf, List.length_cons] at hlen
            exact ⟨by rw [queueWith_buffered], by rw [queueWith_buffered]; omega⟩
  | drop =>
      simp only [Pump.step] at hstep
      split at hstep
      · cases hstep
      · obtain rfl := Option.some.inj hstep
        exact ⟨hp.queue, hp.length_le⟩

theorem shape_new (capacity : ℕ) (todo : List (ChannelMessage A E)) :
    (new capacity todo).Shape capacity := by
  have hbuf : (new capacity todo).queue.buffered = [] := by
    rw [new, queueOf_eq_queueWith, queueWith_buffered]
  refine ⟨?_, hbuf ▸ Nat.zero_le _⟩
  rw [hbuf]
  exact queueOf_eq_queueWith capacity .boundedBlock

/-- A pump that is left alone moves its messages into the room there is. -/
theorem finishes_iff (hp : p.Shape capacity) :
    p.Finishes ↔ p.todo.length + p.queue.buffered.length ≤ max capacity 1 := by
  constructor
  · rintro ⟨n, p', hrun, hdone⟩
    have hcount : p'.Shape capacity ∧ p'.todo.length + p'.queue.buffered.length =
        p.todo.length + p.queue.buffered.length := by
      clear hdone
      induction n generalizing p with
      | zero =>
          obtain rfl := Option.some.inj hrun
          exact ⟨hp, rfl⟩
      | succ n ih =>
          obtain ⟨q, hstep, hrest⟩ := run_cons_eq_some.1 hrun
          obtain ⟨hshape, hcount⟩ := ih (hp.step hstep) hrest
          exact ⟨hshape, hcount.trans (step_attempt_count hp hstep)⟩
    have hlen := hcount.1.length_le
    rw [hdone, List.length_nil] at hcount
    omega
  · intro hle
    induction htodo : p.todo generalizing p with
    | nil => exact ⟨0, p, rfl, htodo⟩
    | cons m todo ih =>
        rw [htodo, List.length_cons] at hle
        have hroom : p.queue.buffered.length < max capacity 1 := by omega
        have hstep := step_attempt hp htodo
        rw [if_pos hroom] at hstep
        obtain ⟨n, p', hrun, hdone⟩ := ih (hp.step hstep) (by
          simp only [queueWith_buffered, List.length_append, List.length_singleton]
          omega) rfl
        exact ⟨n + 1, p', run_cons_eq_some.2 ⟨_, hstep, hrun⟩, hdone⟩

end Pump

/-- **When producers stop.** Of a stream that has been dropped, whatever its policy, its capacity
    and its run so far, a call in its offer loop returns if and only if the queue evicts, the call
    does not retry, or there is more room than there are other calls to push a message. A pump that
    is the only producer of its stream comes to its end if and only if there is room for all its
    messages. -/
theorem producers_stop_iff {Tid A E : Type} [DecidableEq Tid] :
    (∀ (capacity : ℕ) (policy : BackpressurePolicy) (ls : List (HandleLabel Tid A E))
      (h : Handle Tid A E) (t : Tid), run Handle.step (Handle.init capacity policy) ls = some h →
      h.dropped = true → (h.sys.calls t).offers ≠ none →
        (h.Returns t ↔ h.Free capacity policy t)) ∧
    ∀ (capacity : ℕ) (todo : List (ChannelMessage A E)) (ls : List PumpLabel) (p : Pump A E),
      run Pump.step (Pump.new capacity todo) ls = some p → p.dropped = true →
        (p.Finishes ↔ p.todo.length + p.queue.buffered.length ≤ max capacity 1) := by
  constructor
  · intro capacity policy ls h t hrun hd hoffers
    obtain ⟨m, hm⟩ := Option.ne_none_iff_exists'.1 hoffers
    have hs := Handle.shape_of_run hrun
    constructor
    · intro hreturns
      by_contra hfree
      exact Handle.not_returns hs hm hfree hreturns
    · intro hfree
      have hbegun : h.sys.calls t ≠ .idle := by
        intro hidle
        rw [hidle] at hm
        cases hm
      exact Handle.Held.returns ⟨hd, hs, hbegun, hfree⟩
  · intro capacity todo ls p hrun _
    have hp := run_invariant (I := fun p : Pump A E => p.Shape capacity)
      (fun _ _ _ hp hstep => hp.step hstep) (Pump.shape_new capacity todo) hrun
    exact Pump.finishes_iff hp

/-- A body of five bytes in chunks of two is dropped at once, and a failure is sent on a sliding
    channel. -/
theorem producers_stop_iff_body :
    (∃ p : Pump ℕ ℕ, run Pump.step (Pump.bodyAsChunkStream [1, 2, 3, 4, 5] 2) [.drop] = some p ∧
      p.Finishes) ∧
    ∃ h : Handle ℕ ℕ ℕ, run Handle.step (Handle.init 1 .dropOldest)
      [.on (.sendChunk 0 [1]), .on (.step 0), .drop, .on (.fail 1 5)] = some h ∧ h.Returns 1 := by
  refine ⟨⟨_, rfl, ?_⟩, _, rfl, ?_⟩
  · refine ((@producers_stop_iff ℕ ℕ ℕ _).2 8 _ [.drop] _ rfl rfl).2 ?_
    simp [Pump.new, groups, queueOf_eq_queueWith]
  · refine (producers_stop_iff.1 1 .dropOldest
      [.on (.sendChunk 0 [1]), .on (.step 0), .drop, .on (.fail 1 5)] _ 1 rfl rfl ?_).2 (.inl rfl)
    simp [Call.offers, Sys.setCall]

/-- The second chunk for a full queue after the drop, and a response of sixteen chunks. -/
theorem producers_spin :
    (∃ h : Handle ℕ ℕ ℕ, run Handle.step (Handle.init 1 .boundedBlock)
      [.on (.sendChunk 0 [1]), .on (.step 0), .drop, .on (.sendChunk 1 [2])] = some h ∧
        h.sys.calls 1 = .sending [2] ∧ ¬ h.Returns 1) ∧
    (∃ p : Pump ℕ ℕ, run Pump.step (Pump.executeStream 100 id (List.replicate 16 (.ok [1])))
      [.drop] = some p ∧ ¬ p.Finishes) ∧
    ¬ ∀ (capacity : ℕ) (policy : BackpressurePolicy) (ls : List (HandleLabel ℕ ℕ ℕ))
      (h : Handle ℕ ℕ ℕ) (t : ℕ), run Handle.step (Handle.init capacity policy) ls = some h →
      h.dropped = true → (h.sys.calls t).offers ≠ none → h.Returns t := by
  have hspin : ∃ h : Handle ℕ ℕ ℕ, run Handle.step (Handle.init 1 .boundedBlock)
      [.on (.sendChunk 0 [1]), .on (.step 0), .drop, .on (.sendChunk 1 [2])] = some h ∧
        h.sys.calls 1 = .sending [2] ∧ h.dropped = true ∧ ¬ h.Returns 1 := by
    refine ⟨_, rfl, rfl, rfl, ?_⟩
    refine @Handle.not_returns ℕ ℕ ℕ _ 1 .boundedBlock _ 1 (.chunk [2]) ⟨rfl, rfl, le_rfl⟩ rfl ?_
    rintro (hp | hretries | hlt)
    · cases hp
    · cases hretries
    · exact absurd (lt_of_le_of_lt le_self_add hlt) (lt_irrefl _)
  refine ⟨?_, ⟨_, rfl, ?_⟩, fun hall => ?_⟩
  · obtain ⟨h, hrun, hcall, -, hspin⟩ := hspin
    exact ⟨h, hrun, hcall, hspin⟩
  · rw [@Pump.finishes_iff ℕ ℕ 16 _ ⟨rfl, Nat.zero_le _⟩]
    decide
  · obtain ⟨h, hrun, hcall, hd, hspin⟩ := hspin
    exact hspin (hall 1 .boundedBlock _ h 1 hrun hd (by rw [hcall]; nofun))

end IdEffect.Channels
