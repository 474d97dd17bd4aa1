import IdEffect.Lib.Gauge
import IdEffect.Resource.PoolPermits

set_option autoImplicit false

/-! # A pool never hands out more than its capacity

A call that has gone past the idle list has a slot reserved: it is waiting for the factory, or has
an item that is not checked in. Idle slots and reserved ones are together at most the capacity
(`Bound`). Taking an idle slot turns it into a reserved one. A call that finds no idle slot reserves
a new one, when there is no idle slot at all, and reserved slots are at most the permits not
released. The check-in turns the reserved slot back into an idle one, and must do so while the
call's permit is still held: it does, since it runs before the release of the permit (`Permits`).

If the factory never returns a value twice, an item is in one place: idle, or taken by one call
(`Items`). -/

namespace IdEffect.Pool

open Transition

variable {A E Tid Sid : Type} [DecidableEq A] [DecidableEq Tid] [DecidableEq Sid]
variable {pool : Config} {s s' : Sys A Tid Sid} {l : Label A E Tid Sid}

/-! ## Slots -/

/-- The call waits for an item or has one. -/
def Call.reserves : Call A Sid → Bool
  | .making _ => true
  | .holding _ _ => true
  | .addingCheckIn _ _ => true
  | .out _ _ => true
  | _ => false

/-- The slots reserved by the calls whose permit has not been released. -/
def Sys.reserved (s : Sys A Tid Sid) : ℕ := s.holders.countP fun t => (s.calls t).reserves

def Bound (pool : Config) (s : Sys A Tid Sid) : Prop :=
  s.pool.idle.length + s.reserved ≤ pool.capacity

omit [DecidableEq A] [DecidableEq Sid] in
theorem reserved_setCall_le {t : Tid} {c : Call A Sid}
    (h : c.reserves = true → (s.calls t).reserves = true) :
    (s.setCall t c).reserved ≤ s.reserved := by
  refine List.countP_mono_left fun u _ hu => ?_
  rw [setCall_calls] at hu
  split at hu
  · next hut => exact hut ▸ h hu
  · exact hu

omit [DecidableEq A] [DecidableEq Sid] in
/-- The call of a holder moves on. -/
theorem reserved_setCall (hnodup : s.holders.Nodup) {t : Tid} (hmem : t ∈ s.holders)
    (c : Call A Sid) :
    (s.setCall t c).reserved + (s.calls t).reserves.toNat = s.reserved + c.reserves.toNat := by
  have hcount := Gauge.countP_update (p := fun u => (s.calls u).reserves)
    (q := fun u => ((s.setCall t c).calls u).reserves) hmem hnodup fun u hu => by
      rw [setCall_calls, if_neg hu]
  rw [setCall_calls, if_pos rfl] at hcount
  exact hcount

omit [DecidableEq A] [DecidableEq Sid] in
theorem reserved_setCall_le_succ (hnodup : s.holders.Nodup) (t : Tid) (c : Call A Sid) :
    (s.setCall t c).reserved ≤ s.reserved + 1 := by
  by_cases hmem : t ∈ s.holders
  · have hcount := reserved_setCall hnodup hmem c
    have hone := Bool.toNat_le c.reserves
    omega
  · -- A call without a permit reserves nothing, wherever it stands.
    have hsame : (s.setCall t c).reserved = s.reserved := by
      refine List.countP_congr fun u hu => ?_
      have hne : u ≠ t := fun heq => hmem (heq ▸ hu)
      rw [setCall_calls, if_neg hne]
    omega

omit [DecidableEq A] [DecidableEq Tid] [DecidableEq Sid] in
theorem reserved_le_holders : s.reserved ≤ s.holders.length := List.countP_le_length

omit [DecidableEq A] [DecidableEq Sid] in
theorem Bound.setCall (hb : Bound pool s) {t : Tid} {c : Call A Sid}
    (h : c.reserves = true → (s.calls t).reserves = true) : Bound pool (s.setCall t c) := by
  have hle := reserved_setCall_le h
  exact Nat.le_trans (Nat.add_le_add_left hle _) hb

namespace PoolState

theorem takeIdle_some {ttl : Option ℕ} {now : ℕ} {st st' : PoolState A} {a : A}
    (h : st.takeIdle ttl now = (some a, st')) :
    ∃ skipped slot rest, st.idle = skipped ++ slot :: rest ∧ slot.value = a ∧ a ∉ st.discard ∧
      st' = { st with idle := rest } := by
  obtain ⟨hval, hst⟩ := Prod.mk.inj h
  rcases takeFrom_spec ttl now st.discard st.idle with
    ⟨skipped, slot, rest, heq, hdis, htake⟩ | hnone
  · rw [htake] at hval hst
    have hval' := Option.some.inj hval
    exact ⟨skipped, slot, rest, heq, hval', hval' ▸ hdis, hst.symm⟩
  · rw [hnone] at hval
    cases hval

theorem takeIdle_none {ttl : Option ℕ} {now : ℕ} {st st' : PoolState A}
    (h : st.takeIdle ttl now = (none, st')) : st' = { st with idle := [] } := by
  obtain ⟨hval, hst⟩ := Prod.mk.inj h
  rcases takeFrom_spec ttl now st.discard st.idle with ⟨_, _, _, _, _, htake⟩ | hnone
  · rw [htake] at hval
    cases hval
  · rw [hnone] at hst
    exact hst.symm

theorem checkIn_length_le (now : ℕ) (a : A) (st : PoolState A) :
    (st.checkIn now a).idle.length ≤ st.idle.length + 1 := by
  unfold checkIn
  split
  · exact Nat.le_succ _
  · exact Nat.le_of_eq List.length_append

end PoolState

/-- **One step.** Idle slots become reserved and reserved ones idle, and a new one is reserved only
    when none is idle. -/
theorem Bound.step (hs : Permits pool s) (hb : Bound pool s) (h : Step pool s l s') :
    Bound pool s' := by
  cases h with
  | get h => exact hb.setCall (by simp [Call.reserves])
  | @grant t sc h hfree =>
      refine Bound.setCall (s := s.grant t) ?_ (by simp [Call.reserves])
      have hnone : (s.calls t).reserves = false := by rw [h]; rfl
      have heq : (s.grant t).reserved = s.reserved :=
        List.countP_cons_of_neg (by simp [Sys.grant, hnone])
      exact Nat.le_trans (Nat.le_of_eq (congrArg _ heq)) hb
  | @refusePermit t sc h hcl =>
      refine Bound.setCall (s := s.release t) ?_ (by simp [Call.reserves])
      exact Nat.le_trans (Nat.add_le_add_left (List.erase_sublist.countP_le) _) hb
  | acceptPermit h hcl => exact hb.setCall (by simp [Call.reserves])
  | @addPermit t sc h =>
      exact Bound.setCall (s := s.push sc (.permit t)) hb (by simp [Call.reserves])
  | @take t sc a st h htake =>
      obtain ⟨skipped, slot, rest, hidle, _, _, rfl⟩ := PoolState.takeIdle_some htake
      have hle := reserved_setCall_le_succ hs.nodup t (.holding sc a)
      have hlen : rest.length + 1 ≤ s.pool.idle.length := by
        rw [hidle, List.length_append, List.length_cons]
        omega
      have hb' : s.pool.idle.length + s.reserved ≤ pool.capacity := hb
      show rest.length + (s.setCall t (.holding sc a)).reserved ≤ pool.capacity
      omega
  | @takeNone t sc st h htake =>
      obtain rfl := PoolState.takeIdle_none htake
      have hle := reserved_le_holders (s := s.setCall t (.making sc))
      show 0 + (s.setCall t (.making sc)).reserved ≤ pool.capacity
      rw [Nat.zero_add]
      exact Nat.le_trans hle hs.granted
  | @make t sc a h =>
      have hres : (s.calls t).reserves = true := by rw [h]; rfl
      exact Bound.setCall (s := { s with made := a :: s.made }) hb fun _ => hres
  | fail h => exact hb.setCall (by simp [Call.reserves])
  | refuseCheckIn h hcl => exact hb.setCall (by simp [Call.reserves])
  | @acceptCheckIn t sc a h hcl =>
      have hres : (s.calls t).reserves = true := by rw [h]; rfl
      exact hb.setCall fun _ => hres
  | @addCheckIn t sc a h =>
      have hres : (s.calls t).reserves = true := by rw [h]; rfl
      exact Bound.setCall (s := s.push sc (.checkIn t a)) hb fun _ => hres
  | invalidate =>
      exact Nat.le_trans (Nat.add_le_add_right (List.length_filter_le _ _) _) hb
  | close => exact hb
  | drainKept hcl hd => exact hb
  | drainLost hcl hd =>
      exact Nat.le_trans (Nat.add_le_add_left (List.filter_sublist.countP_le) _) hb
  | release h =>
      exact Nat.le_trans (Nat.add_le_add_left (List.erase_sublist.countP_le) _) hb
  | @checkIn sc t a fs h =>
      -- the check-in is above the release of the permit, so the permit is still held
      have habove := hs.closingAbove sc
      rw [h] at habove
      have hcall : s.calls t = .out sc a :=
        hs.checkIn sc t a (List.mem_append_right _ (h ▸ List.mem_cons_self))
      have hheld : t ∈ s.holders := by
        refine (hs.permit sc t (List.mem_append_right _ ?_)).1
        rw [h]
        exact List.mem_cons_of_mem _ habove.1
      have hcount := reserved_setCall hs.nodup hheld (.checkedIn sc)
      rw [hcall] at hcount
      simp only [Call.reserves, Bool.toNat_true, Bool.toNat_false] at hcount
      have hlen := PoolState.checkIn_length_le s.now a s.pool
      have hb' : s.pool.idle.length + s.reserved ≤ pool.capacity := hb
      show (s.pool.checkIn s.now a).idle.length + (s.setCall t (.checkedIn sc)).reserved ≤
        pool.capacity
      omega
  | tick => exact hb

/-! ## Items -/

/-- An item is in one place: idle, or taken by one call. -/
structure Items (s : Sys A Tid Sid) : Prop where
  idleNodup : s.pool.values.Nodup
  idleMade : ∀ a ∈ s.pool.values, a ∈ s.made
  heldMade : ∀ t a, (s.calls t).item = some a → a ∈ s.made
  heldIdle : ∀ t a, (s.calls t).item = some a → a ∉ s.pool.values
  heldOnce : ∀ t u a, (s.calls t).item = some a → (s.calls u).item = some a → t = u

omit [DecidableEq A] [DecidableEq Tid] [DecidableEq Sid] in
theorem Items.init : Items (Sys.init : Sys A Tid Sid) where
  idleNodup := .nil
  idleMade := by simp [Sys.init, PoolState.default, PoolState.values]
  heldMade := by simp [Sys.init, Call.item]
  heldIdle := by simp [Sys.init, Call.item]
  heldOnce := by simp [Sys.init, Call.item]

omit [DecidableEq A] [DecidableEq Tid] [DecidableEq Sid] in
theorem Items.congr (hi : Items s) (hpool : s'.pool = s.pool) (hmade : s'.made = s.made)
    (hcalls : s'.calls = s.calls) : Items s' := by
  constructor <;> simp only [hpool, hmade, hcalls]
  exacts [hi.idleNodup, hi.idleMade, hi.heldMade, hi.heldIdle, hi.heldOnce]

omit [DecidableEq A] [DecidableEq Tid] [DecidableEq Sid] in
/-- Slots leave the idle list. -/
theorem Items.setPool (hi : Items s) {st : PoolState A} (h : st.values.Sublist s.pool.values) :
    Items (s.setPool st) where
  idleNodup := hi.idleNodup.sublist h
  idleMade := fun a ha => hi.idleMade a (h.subset ha)
  heldMade := hi.heldMade
  heldIdle := fun t a ht ha => hi.heldIdle t a ht (h.subset ha)
  heldOnce := hi.heldOnce

omit [DecidableEq A] [DecidableEq Sid] in
/-- A call takes an item that is nowhere, or keeps or gives up the one it has. -/
theorem Items.setCall (hi : Items s) {t : Tid} {c : Call A Sid}
    (h : ∀ a, c.item = some a → (s.calls t).item = some a ∨
      a ∈ s.made ∧ a ∉ s.pool.values ∧ ∀ u, (s.calls u).item ≠ some a) :
    Items (s.setCall t c) := by
  have hown : ∀ u a, ((s.setCall t c).calls u).item = some a →
      (s.calls u).item = some a ∨
      u = t ∧ a ∈ s.made ∧ a ∉ s.pool.values ∧ ∀ u, (s.calls u).item ≠ some a := by
    intro u a hu
    rw [setCall_calls] at hu
    split at hu
    · next hut =>
        rcases h a hu with hold | hnew
        · exact .inl (hut ▸ hold)
        · exact .inr ⟨hut, hnew⟩
    · exact .inl hu
  refine ⟨hi.idleNodup, hi.idleMade, ?_, ?_, ?_⟩
  · intro u a hu
    rcases hown u a hu with hold | ⟨_, hmade, _⟩
    · exact hi.heldMade u a hold
    · exact hmade
  · intro u a hu
    rcases hown u a hu with hold | ⟨_, _, hidle, _⟩
    · exact hi.heldIdle u a hold
    · exact hidle
  · intro u v a hu hv
    rcases hown u a hu with hold | ⟨hut, _, _, hfree⟩
    · rcases hown v a hv with hold' | ⟨_, _, _, hfree⟩
      · exact hi.heldOnce u v a hold hold'
      · exact absurd hold (hfree u)
    · rcases hown v a hv with hold' | ⟨hvt, _⟩
      · exact absurd hold' (hfree v)
      · exact hut.trans hvt.symm

omit [DecidableEq Sid] in
/-- The check-in of a call's item. -/
theorem Items.checkIn (hi : Items s) {t : Tid} {sc : Sid} {a : A} (hcall : s.calls t = .out sc a) :
    Items ((s.setPool (s.pool.checkIn s.now a)).setCall t (.checkedIn sc)) := by
  have hitem : (s.calls t).item = some a := by rw [hcall]; rfl
  have hgive : Items (s.setCall t (.checkedIn sc)) := hi.setCall (by simp [Call.item])
  have hheld : ∀ u b, ((s.setCall t (.checkedIn sc)).calls u).item = some b → b ≠ a := by
    intro u b hu hba
    rw [setCall_calls] at hu
    split at hu
    · cases hu
    · next hut =>
        rw [hba] at hu
        exact hut (hi.heldOnce u t a hu hitem)
  unfold PoolState.checkIn
  split
  · exact hgive
  · have hvalues : ∀ b, b ∈ (s.pool.idle ++ [(⟨a, s.now⟩ : IdleSlot A)]).map IdleSlot.value ↔
        b ∈ s.pool.values ∨ b = a := by
      intro b
      simp [PoolState.values]
    refine ⟨?_, ?_, hgive.heldMade, ?_, hgive.heldOnce⟩
    · show ((s.pool.idle ++ [(⟨a, s.now⟩ : IdleSlot A)]).map IdleSlot.value).Nodup
      rw [List.map_append, List.nodup_append]
      refine ⟨hi.idleNodup, List.nodup_singleton _, ?_⟩
      intro b hb c hc hbc
      obtain rfl : c = a := by simpa using hc
      exact hi.heldIdle t c hitem (hbc ▸ hb)
    · intro b hb
      rcases (hvalues b).1 hb with hidle | rfl
      · exact hi.idleMade b hidle
      · exact hi.heldMade t b hitem
    · intro u b hu hb
      rcases (hvalues b).1 hb with hidle | rfl
      · exact hgive.heldIdle u b hu hidle
      · exact hheld u b hu rfl

/-- The factory returns a value it has not returned before. -/
def DistinctValues (s : Sys A Tid Sid) : Label A E Tid Sid → Prop
  | .factory _ (.ok a) => a ∉ s.made
  | _ => True

instance decidableDistinctValues (s : Sys A Tid Sid) :
    ∀ l : Label A E Tid Sid, Decidable (DistinctValues s l)
  | .factory _ (.ok a) => inferInstanceAs (Decidable (a ∉ s.made))
  | .factory _ (.error _) => .isTrue trivial
  | .get _ _ => .isTrue trivial
  | .step _ => .isTrue trivial
  | .invalidate _ => .isTrue trivial
  | .close _ => .isTrue trivial
  | .drain _ _ => .isTrue trivial
  | .finalize _ => .isTrue trivial
  | .tick _ => .isTrue trivial

theorem Items.step (hs : Permits pool s) (hi : Items s) (hnew : DistinctValues s l)
    (h : Step pool s l s') : Items s' := by
  cases h with
  | get h => exact hi.setCall (by simp [Call.item])
  | @grant t sc h hfree =>
      have hsame : Items (s.grant t) := hi.congr rfl rfl rfl
      exact hsame.setCall (by simp [Call.item])
  | @refusePermit t sc h hcl =>
      have hsame : Items (s.release t) := hi.congr rfl rfl rfl
      exact hsame.setCall (by simp [Call.item])
  | acceptPermit h hcl => exact hi.setCall (by simp [Call.item])
  | @addPermit t sc h =>
      have hsame : Items (s.push sc (.permit t)) := hi.congr rfl rfl rfl
      exact hsame.setCall (by simp [Call.item])
  | @take t sc a st h htake =>
      obtain ⟨skipped, slot, rest, hidle, hval, _, rfl⟩ := PoolState.takeIdle_some htake
      have hvalues : s.pool.values =
          skipped.map IdleSlot.value ++ a :: rest.map IdleSlot.value := by
        rw [PoolState.values, hidle, List.map_append, List.map_cons, hval]
      have hmem : a ∈ s.pool.values := by simp [hvalues]
      have hrest : (rest.map IdleSlot.value).Sublist s.pool.values := by
        rw [hvalues]
        exact (List.sublist_cons_self _ _).trans (List.sublist_append_right _ _)
      have htaken : Items (s.setPool { s.pool with idle := rest }) := hi.setPool hrest
      refine htaken.setCall ?_
      intro b hb
      obtain rfl : a = b := by simpa [Call.item] using hb
      refine .inr ⟨hi.idleMade a hmem, ?_, fun u hu => hi.heldIdle u a hu hmem⟩
      have hnodup := hi.idleNodup
      rw [hvalues, List.nodup_append] at hnodup
      exact (List.nodup_cons.1 hnodup.2.1).1
  | @takeNone t sc st h htake =>
      obtain rfl := PoolState.takeIdle_none htake
      have hempty : Items (s.setPool { s.pool with idle := [] }) := hi.setPool (List.nil_sublist _)
      exact hempty.setCall (by simp [Call.item])
  | @make t sc a h =>
      have hmore : Items { s with made := a :: s.made } :=
        ⟨hi.idleNodup, fun b hb => List.mem_cons_of_mem _ (hi.idleMade b hb),
          fun u b hb => List.mem_cons_of_mem _ (hi.heldMade u b hb), hi.heldIdle, hi.heldOnce⟩
      refine hmore.setCall ?_
      intro b hb
      obtain rfl : a = b := by simpa [Call.item] using hb
      exact .inr ⟨List.mem_cons_self, fun hidle => hnew (hi.idleMade a hidle),
        fun u hu => hnew (hi.heldMade u a hu)⟩
  | fail h => exact hi.setCall (by simp [Call.item])
  | @refuseCheckIn t sc a h hcl => exact hi.setCall fun b hb => .inl (by rw [h]; exact hb)
  | @acceptCheckIn t sc a h hcl => exact hi.setCall fun b hb => .inl (by rw [h]; exact hb)
  | @addCheckIn t sc a h =>
      have hsame : Items (s.push sc (.checkIn t a)) := hi.congr rfl rfl rfl
      refine hsame.setCall ?_
      exact fun b hb => .inl (by rw [show (s.push sc (.checkIn t a)).calls t = _ from h]; exact hb)
  | invalidate => exact hi.setPool (List.filter_sublist.map _)
  | @checkIn sc t a fs h =>
      have hcall : s.calls t = .out sc a :=
        hs.checkIn sc t a (List.mem_append_right _ (h ▸ List.mem_cons_self))
      exact (hi.checkIn hcall).congr rfl rfl rfl
  | _ => exact hi.congr rfl rfl rfl

/-! ## Invalidated items -/

/-- An item that is discarded stays so. -/
theorem Step.discard_subset (h : Step pool s l s') : s.pool.discard ⊆ s'.pool.discard := by
  cases h with
  | take h htake =>
      obtain ⟨_, _, _, _, _, _, rfl⟩ := PoolState.takeIdle_some htake
      exact List.Subset.refl _
  | takeNone h htake =>
      obtain rfl := PoolState.takeIdle_none htake
      exact List.Subset.refl _
  | invalidate => exact List.subset_append_left _ _
  | @checkIn sc t a fs h =>
      show s.pool.discard ⊆ (s.pool.checkIn s.now a).discard
      unfold PoolState.checkIn
      split
      · exact List.Subset.refl _
      · exact List.Subset.refl _
  | _ => exact List.Subset.refl _

theorem run_discard {ls : List (Label A E Tid Sid)} (h : run (step pool) s ls = some s') :
    s.pool.discard ⊆ s'.pool.discard ∧ ∀ a, .invalidate a ∈ ls → a ∈ s'.pool.discard := by
  induction ls generalizing s with
  | nil =>
      rw [run_nil, Option.some.injEq] at h
      subst h
      exact ⟨List.Subset.refl _, by simp⟩
  | cons l ls ih =>
      obtain ⟨m, hm, hrest⟩ := run_cons_eq_some.1 h
      obtain ⟨hsub, hinv⟩ := ih hrest
      refine ⟨List.Subset.trans (Step.of_step hm).discard_subset hsub, ?_⟩
      intro a ha
      rcases List.mem_cons.1 ha with rfl | ha
      · have hdis : a ∈ m.pool.discard := by
          rw [← Option.some.inj hm]
          exact List.mem_append_right _ List.mem_cons_self
        exact hsub hdis
      · exact hinv a ha

theorem PoolState.takeIdle_ne_of_discard {ttl : Option ℕ} {now : ℕ} {st : PoolState A} {a : A}
    (h : a ∈ st.discard) : (st.takeIdle ttl now).1 ≠ some a := by
  intro htake
  obtain ⟨_, _, _, _, _, hdis, _⟩ := takeIdle_some (Prod.ext htake rfl)
  exact hdis h

/-! ## The pool -/

/-- The call has the item `a` checked out, and its scope is open. -/
def Sys.CheckedOut (s : Sys A Tid Sid) (t : Tid) (sc : Sid) (a : A) : Prop :=
  (s.calls t).item = some a ∧ (s.calls t).scope = some sc ∧ s.closed sc = false

omit [DecidableEq A] [DecidableEq Tid] [DecidableEq Sid] in
/-- An item checked out under an open scope is a reserved slot. -/
theorem Permits.reserves_of_checkedOut (hs : Permits pool s) {t : Tid} {sc : Sid} {a : A}
    (h : s.CheckedOut t sc a) : t ∈ s.holders ∧ (s.calls t).reserves = true := by
  obtain ⟨hitem, hscope, hopen⟩ := h
  have hheld : (s.calls t).covered = some sc → t ∈ s.holders := fun hcov =>
    (hs.permit sc t (List.mem_append_left _ (hs.covered t sc hcov hopen))).1
  cases hcall : s.calls t with
  | holding sc' a' => exact ⟨hheld (by rw [hcall] at hscope ⊢; exact hscope), rfl⟩
  | addingCheckIn sc' a' => exact ⟨hheld (by rw [hcall] at hscope ⊢; exact hscope), rfl⟩
  | out sc' a' => exact ⟨hheld (by rw [hcall] at hscope ⊢; exact hscope), rfl⟩
  | unscoped sc' a' =>
      have hclosed := hs.refused t sc' a' hcall
      rw [hcall] at hscope
      obtain rfl : sc' = sc := Option.some.inj hscope
      exact absurd (hopen.symm.trans hclosed) Bool.false_ne_true
  | _ =>
      rw [hcall] at hitem
      cases hitem

omit [DecidableEq A] [DecidableEq Tid] [DecidableEq Sid] in
theorem Bound.checkedOut_le (hs : Permits pool s) (hb : Bound pool s) {ts : List Tid}
    (hnodup : ts.Nodup) (hts : ∀ t ∈ ts, ∃ sc a, s.CheckedOut t sc a) :
    s.pool.idle.length + ts.length ≤ pool.capacity := by
  have hsub : ts ⊆ s.holders.filter fun t => (s.calls t).reserves := by
    intro t ht
    obtain ⟨sc, a, hout⟩ := hts t ht
    exact List.mem_filter.2 (hs.reserves_of_checkedOut hout)
  have hle := List.Nodup.length_le_of_subset hnodup hsub
  rw [← List.countP_eq_length_filter] at hle
  exact Nat.le_trans (Nat.add_le_add_left hle _) hb

/-- **A pool never over-allocates and never shares an item.** In every run in which every `get` runs
    while its scope is open and the factory never returns a value twice: idle slots and the items
    checked out under open scopes are together at most the capacity, no item is checked out twice or
    is both idle and checked out, and an item that has been invalidated is never taken from the idle
    list. -/
theorem pool_within_capacity (pool : Config) (ls : List (Label A E Tid Sid)) (s : Sys A Tid Sid)
    (hrun : run (step pool) .init ls = some s) (hopen : Along (step pool) OpenScope .init ls)
    (hdistinct : Along (step pool) DistinctValues .init ls) :
    (∀ ts : List Tid, ts.Nodup → (∀ t ∈ ts, ∃ sc a, s.CheckedOut t sc a) →
      s.pool.idle.length + ts.length ≤ pool.capacity) ∧
    (∀ t u sc sc' a, s.CheckedOut t sc a → s.CheckedOut u sc' a → t = u ∧ sc = sc') ∧
    (∀ t sc a, s.CheckedOut t sc a → a ∉ s.pool.values) ∧
    ∀ a, .invalidate a ∈ ls → (s.pool.takeIdle pool.ttl s.now).1 ≠ some a := by
  obtain ⟨hs, hb, hi⟩ : Permits pool s ∧ Bound pool s ∧ Items s := by
    refine run_invariant_along (I := fun s => Permits pool s ∧ Bound pool s ∧ Items s) ?_
      ⟨.init pool, Nat.zero_le _, .init⟩ (hopen.and hdistinct) hrun
    rintro s l s' ⟨hs, hb, hi⟩ ⟨ho, hd⟩ hstep
    have h := Step.of_step hstep
    exact ⟨hs.step ho h, hb.step hs h, hi.step hs hd h⟩
  refine ⟨fun ts => hb.checkedOut_le hs, ?_, ?_, ?_⟩
  · intro t u sc sc' a ht hu
    obtain rfl := hi.heldOnce t u a ht.1 hu.1
    exact ⟨rfl, Option.some.inj (ht.2.1.symm.trans hu.2.1)⟩
  · intro t sc a ht
    exact hi.heldIdle t a ht.1
  · intro a ha
    exact PoolState.takeIdle_ne_of_discard ((run_discard hrun).2 a ha)

/-- A pool of one: the item of a closed scope is taken again under another one, invalidated there
    and not checked in. -/
theorem pool_within_capacity_reuse : ∃ s : Sys ℕ ℕ ℕ,
    run (step (E := Unit) ⟨1, none⟩) .init [.get 0 0, .step 0, .step 0, .step 0, .step 0,
      .factory 0 (.ok 7), .step 0, .step 0, .close 0, .drain 0 true, .finalize 0, .finalize 0,
      .get 1 1, .step 1, .step 1, .step 1, .step 1, .step 1, .step 1, .invalidate 7] = some s ∧
    s.CheckedOut 1 1 7 ∧ s.pool.idle.length + [1].length ≤ 1 ∧ 7 ∉ s.pool.values ∧
    (s.pool.takeIdle none s.now).1 ≠ some 7 := by
  refine ⟨_, rfl, ⟨rfl, rfl, rfl⟩, ?_⟩
  obtain ⟨hbound, -, hidle, hdiscard⟩ := pool_within_capacity (A := ℕ) (E := Unit) ⟨1, none⟩
    [.get 0 0, .step 0, .step 0, .step 0, .step 0, .factory 0 (.ok 7), .step 0, .step 0, .close 0,
      .drain 0 true, .finalize 0, .finalize 0, .get 1 1, .step 1, .step 1, .step 1, .step 1,
      .step 1, .step 1, .invalidate 7]
    _ rfl (by decide) (by decide)
  refine ⟨hbound [1] (by decide) ?_, hidle 1 1 7 ⟨rfl, rfl, rfl⟩, hdiscard 7 (by simp)⟩
  intro t ht
  obtain rfl := List.mem_singleton.1 ht
  exact ⟨1, 7, rfl, rfl, rfl⟩

end IdEffect.Pool
