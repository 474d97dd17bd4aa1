import IdEffect.Coordination.PubSubRuns

set_option autoImplicit false

/-! # Reactive cells: `coordination/subscription_ref.rs`

A `SubscriptionRef` is a cell and a hub. `set` and `update` write the cell and then publish the new
value; `subscribe` subscribes to the hub, reads the cell and offers what it read to the subscriber's
queue, into which the forwarder puts what is published. Cell and hub have no lock in common, so all
of these are steps of their own.

Three things can go wrong (`subscriber_diverges`): two calls publish in the other order than they
wrote; a subscriber reads a value that is still to be published to it; and its forwarder offers a
published value before the value read. If none of them happens (`Ordered`), every subscriber's queue
receives the values the cell takes from some moment on, in order and without a gap
(`subscribers_follow`). The ring of the hub is assumed to have room for what has not been delivered
(`Roomy`). -/

namespace IdEffect.SubscriptionRef

open Transition Broadcast PubSubRuns

variable {Tid A : Type} [DecidableEq Tid]

/-! ## Calls, subscribers and steps -/

/-- `UNBOUNDED_CAP`. -/
def unboundedCap : ℕ := 65536

/-- `set` and `update`. -/
inductive Op (A : Type) where
  | set (value : A)
  | update (f : A → A)

def Op.apply : Op A → A → A
  | .set value, _ => value
  | .update f, old => f old

/-- A call of `set` or `update`; when it is about to publish, it has made write number `index` of
    the cell. -/
inductive Call (A : Type) where
  | idle
  | writing (op : Op A)
  | publishing (value : A) (index : ℕ)
  | returned

/-- How far a call of `subscribe` has come: it has subscribed to the hub, has read the cell, or has
    offered what it read. -/
inductive Stage (A : Type) where
  | subscribed
  | read (current : A)
  | ready (current : A)

/-- A subscriber, its call of `subscribe`, and the number of values published before it came. -/
structure Sub (A : Type) where
  sub : Subscriber A
  stage : Stage A
  since : ℕ

namespace Sub

def setSub (x : Sub A) (y : Subscriber A) : Sub A := { x with sub := y }

/-- `q.offer(current)` of `subscribe`. -/
def offerCurrent (x : Sub A) (v : A) : Sub A :=
  { x with
    stage := .ready v
    sub := { x.sub with
      queue := (x.sub.queue.offer v).2
      received := if (x.sub.queue.offer v).1 then x.sub.received ++ [v] else x.sub.received } }

end Sub

/-- Subscriber number `r` reads at cursor number `r` of the channel. The books: every value the cell
    has held, and the number of those published since the first. -/
structure Sys (Tid A : Type) where
  cell : A
  hub : PubSubInner A
  calls : Tid → Call A
  subs : ℕ → Sub A
  history : List A
  published : ℕ

inductive Label (Tid A : Type) where
  | set (t : Tid) (value : A)
  | update (t : Tid) (f : A → A)
  | step (t : Tid)
  | subscribe
  | read (r : ℕ)
  | offerCurrent (r : ℕ)
  | recv (r : ℕ)
  | offer (r : ℕ)
  | take (r : ℕ)
  | closeScope (r : ℕ)

namespace Sys

/-- `SubscriptionRef::make`. -/
def make (value : A) : Sys Tid A where
  cell := value
  hub := .new unboundedCap unboundedCap .unbounded
  calls := fun _ => .idle
  subs := fun _ => ⟨.new, .subscribed, 0⟩
  history := [value]
  published := 0

def setCall (s : Sys Tid A) (t : Tid) (c : Call A) : Sys Tid A :=
  { s with calls := Function.update s.calls t c }

def setSub (s : Sys Tid A) (r : ℕ) (x : Sub A) : Sys Tid A :=
  { s with subs := Function.update s.subs r x }

def setChan (s : Sys Tid A) (ch : Channel A) : Sys Tid A :=
  { s with hub := { s.hub with chan := ch } }

def start (s : Sys Tid A) (t : Tid) (op : Op A) : Option (Sys Tid A) :=
  match s.calls t with
  | .idle => some (s.setCall t (.writing op))
  | _ => none

/-- The cell takes a value, under its lock. -/
def write (s : Sys Tid A) (t : Tid) (v : A) : Sys Tid A :=
  { s with cell := v, history := s.history ++ [v] }.setCall t (.publishing v s.history.length)

/-- `publish`, whose result is ignored: without a subscriber nothing is sent. -/
def publish (s : Sys Tid A) (t : Tid) (v : A) : Sys Tid A :=
  match s.hub.chan.send v with
  | some ch => { s.setChan ch with published := s.published + 1 }.setCall t .returned
  | none => { s with published := s.published + 1 }.setCall t .returned

def stepCall (s : Sys Tid A) (t : Tid) : Option (Sys Tid A) :=
  match s.calls t with
  | .writing op => some (s.write t (op.apply s.cell))
  | .publishing v _ => some (s.publish t v)
  | .idle | .returned => none

/-- The forwarder of subscriber `r` receives; the hub is never shut down. -/
def stepRecv (s : Sys Tid A) (r : ℕ) (c : Cursor) : Option (Sys Tid A) :=
  match (s.subs r).sub.inHand, (s.subs r).sub.running with
  | none, true =>
      match s.hub.chan.recv r c with
      | (.value v, ch) => some ((s.setChan ch).setSub r
          ((s.subs r).setSub ((s.subs r).sub.receive v c.stop.isSome)))
      | (.lagged _, ch) =>
          some ((s.setChan ch).setSub r ((s.subs r).setSub (s.subs r).sub.lag))
      | (.empty, _) => none
  | _, _ => none

/-- The subscriber's scope is closed where its forwarder waits for the channel. -/
def stepCloseScope (s : Sys Tid A) (r : ℕ) (c : Cursor) : Option (Sys Tid A) :=
  match (s.subs r).sub.inHand, c.stop with
  | none, none => some ((s.setChan (s.hub.chan.drop r c)).setSub r
      ((s.subs r).setSub { (s.subs r).sub.close with running := false }))
  | _, _ => none

def step (s : Sys Tid A) : Label Tid A → Option (Sys Tid A)
  | .set t value => s.start t (.set value)
  | .update t f => s.start t (.update f)
  | .step t => s.stepCall t
  | .subscribe => some ((s.setChan s.hub.chan.subscribe).setSub s.hub.chan.cursors.length
      ⟨.new, .subscribed, s.published⟩)
  | .read r =>
      match s.hub.chan.cursors[r]?, (s.subs r).stage with
      | some _, .subscribed => some (s.setSub r { s.subs r with stage := .read s.cell })
      | _, _ => none
  | .offerCurrent r =>
      match (s.subs r).stage with
      | .read v => some (s.setSub r ((s.subs r).offerCurrent v))
      | _ => none
  | .recv r => (s.hub.chan.cursors[r]?).bind (s.stepRecv r)
  | .offer r =>
      match (s.subs r).sub.inHand with
      | some v => some (s.setSub r ((s.subs r).setSub ((s.subs r).sub.put v)))
      | none => none
  | .take r => some (s.setSub r ((s.subs r).setSub (s.subs r).sub.consume))
  | .closeScope r => (s.hub.chan.cursors[r]?).bind (s.stepCloseScope r)

/-! ## The promise -/

/-- All calls have returned, and the forwarder of subscriber `r` has nothing left to do. -/
def Quiet (s : Sys Tid A) (r : ℕ) : Prop :=
  (∀ t, s.calls t = .idle ∨ s.calls t = .returned) ∧ (s.subs r).sub.inHand = none ∧
    ∀ c ∈ s.hub.chan.cursors[r]?, c.pos = s.hub.chan.sent.length

/-- The queue of every live subscriber receives the values of the cell from some moment on, in the
    order the cell took them; once its `subscribe` has returned it has received the first of them,
    and when everything is quiet the last one is what the cell holds. -/
def Follows (s : Sys Tid A) : Prop :=
  ∀ r < s.hub.chan.cursors.length, (s.subs r).sub.live = true →
    ∃ i < s.history.length, (s.subs r).sub.received <+: s.history.drop i ∧
      ∀ current, (s.subs r).stage = .ready current →
        (s.subs r).sub.received.head? = some current ∧
          (s.Quiet r → (s.subs r).sub.received = s.history.drop i ∧
            (s.subs r).sub.received.getLast? = some s.cell)

/-- A subscriber is behind by less than the ring when a value is published. -/
def Roomy (s : Sys Tid A) : Label Tid A → Prop
  | .step t =>
      match s.calls t with
      | .publishing _ _ => ∀ c ∈ s.hub.chan.cursors, c.stop = none →
          s.hub.chan.sent.length < c.pos + unboundedCap
      | _ => True
  | _ => True

/-- Values are published in the order of the writes; a subscriber reads the cell when everything
    written so far was published before it came; and its forwarder offers nothing before the value
    read was offered. -/
def Ordered (s : Sys Tid A) : Label Tid A → Prop
  | .step t =>
      match s.calls t with
      | .publishing _ index => index = s.published + 1
      | _ => True
  | .read r => s.history.length = (s.subs r).since + 1
  | .offer r => ∃ current, (s.subs r).stage = .ready current
  | _ => True

end Sys

/-- Call 0 writes first, call 1 publishes first. -/
def swapped : List (Label ℕ ℕ) :=
  [.subscribe, .read 0, .offerCurrent 0, .set 0 1, .set 1 2, .step 0, .step 1, .step 1, .step 0,
    .recv 0, .offer 0, .recv 0, .offer 0]

/-- **How a subscriber diverges.** Two calls publish in the other order than they wrote, and the
    last value received is not the cell's; a subscriber reads a value before it is published, and
    receives it twice; a forwarder offers a new value before the old one that was read. -/
theorem subscriber_diverges :
    (∃ s : Sys ℕ ℕ, run Sys.step (Sys.make 0) swapped = some s ∧
      (s.subs 0).sub.received = [0, 2, 1] ∧ s.history = [0, 1, 2]) ∧
    (∃ s : Sys ℕ ℕ, run Sys.step (Sys.make 0) [.set 0 1, .step 0, .subscribe, .read 0,
        .offerCurrent 0, .step 0, .recv 0, .offer 0] = some s ∧
      (s.subs 0).sub.received = [1, 1] ∧ s.history = [0, 1]) ∧
    (∃ s : Sys ℕ ℕ, run Sys.step (Sys.make 0) [.subscribe, .read 0, .set 0 1, .step 0, .step 0,
        .recv 0, .offer 0, .offerCurrent 0] = some s ∧
      (s.subs 0).sub.received = [1, 0] ∧ s.history = [0, 1]) ∧
    ¬ ∀ (value : ℕ) (ls : List (Label ℕ ℕ)) (s : Sys ℕ ℕ),
      Along Sys.step Sys.Roomy (Sys.make value) ls →
        run Sys.step (Sys.make value) ls = some s → s.Follows := by
  have hrun : ∃ s : Sys ℕ ℕ, run Sys.step (Sys.make 0) swapped = some s ∧
      (s.subs 0).sub.received = [0, 2, 1] ∧ s.history = [0, 1, 2] ∧
        0 < s.hub.chan.cursors.length ∧ (s.subs 0).sub.live = true :=
    ⟨_, rfl, rfl, rfl, Nat.zero_lt_one, rfl⟩
  have hroom : ∀ n < 2, ∀ c : Cursor, n < c.pos + unboundedCap := by
    intro n hn c
    unfold unboundedCap
    omega
  have halong : Along Sys.step Sys.Roomy (Sys.make 0 : Sys ℕ ℕ) swapped :=
    along_cons rfl trivial (along_cons rfl trivial (along_cons rfl trivial (along_cons rfl trivial
      (along_cons rfl trivial (along_cons rfl trivial (along_cons rfl trivial
        (along_cons rfl (fun c _ _ => hroom 0 (by decide) c)
          (along_cons rfl (fun c _ _ => hroom 1 (by decide) c) (along_cons rfl trivial
            (along_cons rfl trivial (along_cons rfl trivial (along_cons rfl trivial
              trivial))))))))))))
  obtain ⟨s, hs, hreceived, hhistory, hcursor, hlive⟩ := hrun
  refine ⟨⟨s, hs, hreceived, hhistory⟩, ⟨_, rfl, rfl, rfl⟩, ⟨_, rfl, rfl, rfl⟩, fun hall => ?_⟩
  obtain ⟨i, -, hprefix, -⟩ := hall 0 swapped s halong hs 0 hcursor hlive
  rw [hreceived, hhistory] at hprefix
  -- three values cannot be a part of what is left after the first
  have hlen := hprefix.length_le
  rw [List.length_drop] at hlen
  obtain rfl : i = 0 := by
    simp only [List.length_cons, List.length_nil] at hlen
    omega
  revert hprefix
  decide

/-! ## One step -/

variable {s s' : Sys Tid A} {l : Label Tid A}

/-- What a step of the system can do. -/
inductive Step (s : Sys Tid A) : Label Tid A → Sys Tid A → Prop
  | start {l : Label Tid A} {t : Tid} {op : Op A} (h : s.calls t = .idle) :
      Step s l (s.setCall t (.writing op))
  | write {t : Tid} {op : Op A} (h : s.calls t = .writing op) (v : A) :
      Step s (.step t) (s.write t v)
  | publish {t : Tid} {v : A} {index : ℕ} (h : s.calls t = .publishing v index) :
      Step s (.step t) (s.publish t v)
  | subscribe : Step s .subscribe ((s.setChan s.hub.chan.subscribe).setSub s.hub.chan.cursors.length
      ⟨.new, .subscribed, s.published⟩)
  | read {r : ℕ} (h : (s.subs r).stage = .subscribed) :
      Step s (.read r) (s.setSub r { s.subs r with stage := .read s.cell })
  | offerCurrent {r : ℕ} {v : A} (h : (s.subs r).stage = .read v) :
      Step s (.offerCurrent r) (s.setSub r ((s.subs r).offerCurrent v))
  | recv {r : ℕ} {c : Cursor} {v : A} (hc : s.hub.chan.cursors[r]? = some c)
      (hhand : (s.subs r).sub.inHand = none) (hv : s.hub.chan.sent[c.pos]? = some v) :
      Step s (.recv r) ((s.setChan (s.hub.chan.setCursor r { c with pos := c.pos + 1 })).setSub r
        ((s.subs r).setSub ((s.subs r).sub.receive v c.stop.isSome)))
  | lag {r : ℕ} {c : Cursor} (hc : s.hub.chan.cursors[r]? = some c)
      (hlag : c.pos + s.hub.chan.ring < s.hub.chan.sent.length) :
      Step s (.recv r) ((s.setChan (s.hub.chan.setCursor r
        { c with pos := s.hub.chan.sent.length - s.hub.chan.ring })).setSub r
        ((s.subs r).setSub (s.subs r).sub.lag))
  | offer {r : ℕ} {v : A} (hv : (s.subs r).sub.inHand = some v) :
      Step s (.offer r) (s.setSub r ((s.subs r).setSub ((s.subs r).sub.put v)))
  | take {r : ℕ} : Step s (.take r) (s.setSub r ((s.subs r).setSub (s.subs r).sub.consume))
  | closeScope {r : ℕ} {c : Cursor} (hc : s.hub.chan.cursors[r]? = some c) :
      Step s (.closeScope r) ((s.setChan (s.hub.chan.drop r c)).setSub r
        ((s.subs r).setSub { (s.subs r).sub.close with running := false }))

theorem Step.of_start {t : Tid} {op : Op A} (h : s.start t op = some s') : Step s l s' := by
  unfold Sys.start at h
  split at h
  · next hidle => exact Option.some.inj h ▸ .start hidle
  · cases h

theorem Step.of_stepRecv {r : ℕ} {c : Cursor} (hc : s.hub.chan.cursors[r]? = some c)
    (h : s.stepRecv r c = some s') : Step s (.recv r) s' := by
  unfold Sys.stepRecv at h
  split at h
  · next hhand hrun =>
      rcases s.hub.chan.recv_cases r c with ⟨hlag, he⟩ | ⟨v, hv, he⟩ | ⟨-, he⟩
      · simp only [he, Option.some.injEq] at h
        exact h ▸ .lag hc hlag
      · simp only [he, Option.some.injEq] at h
        exact h ▸ .recv hc hhand hv
      · simp only [he] at h
        cases h
  · cases h

theorem Step.of_step (h : s.step l = some s') : Step s l s' := by
  cases l with
  | set t value => exact .of_start h
  | update t f => exact .of_start h
  | step t =>
      simp only [Sys.step, Sys.stepCall] at h
      split at h
      · next op hc => exact Option.some.inj h ▸ .write hc _
      · next v index hc => exact Option.some.inj h ▸ .publish hc
      · cases h
      · cases h
  | subscribe => exact Option.some.inj h ▸ .subscribe
  | read r =>
      simp only [Sys.step] at h
      split at h
      · next hst => exact Option.some.inj h ▸ .read hst
      · cases h
  | offerCurrent r =>
      simp only [Sys.step] at h
      split at h
      · next v hst => exact Option.some.inj h ▸ .offerCurrent hst
      · cases h
  | recv r =>
      obtain ⟨c, hc, h⟩ := Option.bind_eq_some_iff.1 h
      exact .of_stepRecv hc h
  | offer r =>
      simp only [Sys.step] at h
      split at h
      · next v hv => exact Option.some.inj h ▸ .offer hv
      · cases h
  | take r => exact Option.some.inj h ▸ .take
  | closeScope r =>
      obtain ⟨c, hc, h⟩ := Option.bind_eq_some_iff.1 h
      unfold Sys.stepCloseScope at h
      split at h
      · exact Option.some.inj h ▸ .closeScope hc
      · cases h

/-! ## Writes and publications -/

/-- The values published are the first of those written; each of the others is going to be published
    by the call that wrote it. -/
structure Writes (s : Sys Tid A) : Prop where
  cell : s.history.getLast? = some s.cell
  published_lt : s.published < s.history.length
  pending : ∀ t v i, s.calls t = .publishing v i → s.published < i ∧ s.history[i]? = some v
  distinct : ∀ t u v w i, s.calls t = .publishing v i → s.calls u = .publishing w i → t = u
  outstanding : ∀ i, s.published < i → i < s.history.length → ∃ t v, s.calls t = .publishing v i

namespace Writes

theorem setCall_calls (t u : Tid) (c : Call A) :
    (s.setCall t c).calls u = if u = t then c else s.calls u := by
  simp only [Sys.setCall, Function.update_apply]

omit [DecidableEq Tid] in
theorem make (value : A) : Writes (Sys.make value : Sys Tid A) where
  cell := rfl
  published_lt := Nat.zero_lt_one
  pending := nofun
  distinct := nofun
  outstanding := by
    intro i hi hlt
    have hlt : i < 1 := hlt
    have hi : 0 < i := hi
    omega

omit [DecidableEq Tid] in
/-- Only the cell, the calls and their books matter. -/
theorem congr (h : Writes s) (hcell : s'.cell = s.cell) (hhistory : s'.history = s.history)
    (hcalls : s'.calls = s.calls) (hpublished : s'.published = s.published) : Writes s' := by
  constructor
  · rw [hcell, hhistory]
    exact h.cell
  · rw [hpublished, hhistory]
    exact h.published_lt
  · rw [hpublished, hhistory, hcalls]
    exact h.pending
  · rw [hcalls]
    exact h.distinct
  · rw [hpublished, hhistory, hcalls]
    exact h.outstanding

/-- A call that has nothing to publish changes to another such state. -/
theorem setCall (h : Writes s) {t : Tid} {c : Call A} (ht : ∀ v i, s.calls t ≠ .publishing v i)
    (hc : ∀ v i, c ≠ .publishing v i) : Writes (s.setCall t c) where
  cell := h.cell
  published_lt := h.published_lt
  pending := by
    intro u v i hu
    rw [setCall_calls] at hu
    split at hu
    · exact absurd hu (hc v i)
    · exact h.pending u v i hu
  distinct := by
    intro u w a b i hu hw
    rw [setCall_calls] at hu hw
    split at hu
    · exact absurd hu (hc a i)
    · split at hw
      · exact absurd hw (hc b i)
      · exact h.distinct u w a b i hu hw
  outstanding := by
    intro i hi hlt
    obtain ⟨u, v, hu⟩ := h.outstanding i hi hlt
    refine ⟨u, v, ?_⟩
    have hne : u ≠ t := fun heq => ht v i (heq ▸ hu)
    rw [setCall_calls, if_neg hne, hu]

theorem write (h : Writes s) {t : Tid} (v : A) (ht : ∀ w i, s.calls t ≠ .publishing w i) :
    Writes (s.write t v) where
  cell := by
    show (s.history ++ [v]).getLast? = some v
    exact List.getLast?_concat
  published_lt := by
    have hlt := h.published_lt
    show s.published < (s.history ++ [v]).length
    rw [List.length_append]
    omega
  pending := by
    intro u w i hu
    show s.published < i ∧ (s.history ++ [v])[i]? = some w
    rw [Sys.write, setCall_calls] at hu
    split at hu
    · cases hu
      exact ⟨h.published_lt, List.getElem?_concat_length⟩
    · obtain ⟨hi, hw⟩ := h.pending u w i hu
      have hlt := (List.getElem?_eq_some_iff.1 hw).1
      exact ⟨hi, (List.getElem?_append_left hlt).trans hw⟩
  distinct := by
    intro u w a b i hu hw
    rw [Sys.write, setCall_calls] at hu hw
    have hnew : ∀ {x c}, s.calls x = .publishing c i → i ≠ s.history.length := by
      intro x c hx
      have hlt := (List.getElem?_eq_some_iff.1 (h.pending x c i hx).2).1
      omega
    split at hu
    · next hut =>
        split at hw
        · next hwt => rw [hut, hwt]
        · cases hu
          exact absurd rfl (hnew hw)
    · split at hw
      · cases hw
        exact absurd rfl (hnew hu)
      · exact h.distinct u w a b i hu hw
  outstanding := by
    intro i hi hlt
    have hlt : i < (s.history ++ [v]).length := hlt
    rw [List.length_append, List.length_singleton] at hlt
    by_cases hlast : i = s.history.length
    · refine ⟨t, v, ?_⟩
      rw [Sys.write, setCall_calls, if_pos rfl, hlast]
    · obtain ⟨u, w, hu⟩ := h.outstanding i hi (by omega)
      have hne : u ≠ t := fun heq => ht w i (heq ▸ hu)
      refine ⟨u, w, ?_⟩
      rw [Sys.write, setCall_calls, if_neg hne]
      exact hu

/-- The oldest value that is not published is published, whatever becomes of the hub. -/
theorem publish (h : Writes s) {t : Tid} {v : A} (ht : s.calls t = .publishing v (s.published + 1))
    (hub : PubSubInner A) :
    Writes ({ s with hub := hub, published := s.published + 1 }.setCall t .returned) where
  cell := h.cell
  published_lt := (List.getElem?_eq_some_iff.1 (h.pending t v _ ht).2).1
  pending := by
    intro u w i hu
    rw [setCall_calls] at hu
    split at hu
    · cases hu
    · next hne =>
        obtain ⟨hi, hw⟩ := h.pending u w i hu
        refine ⟨?_, hw⟩
        have hother : i ≠ s.published + 1 := by
          rintro rfl
          exact hne (h.distinct u t w v _ hu ht)
        show s.published + 1 < i
        omega
  distinct := by
    intro u w a b i hu hw
    rw [setCall_calls] at hu hw
    split at hu
    · cases hu
    · split at hw
      · cases hw
      · exact h.distinct u w a b i hu hw
  outstanding := by
    intro i hi hlt
    have hi : s.published + 1 < i := hi
    obtain ⟨u, w, hu⟩ := h.outstanding i (by omega) hlt
    have hne : u ≠ t := by
      rintro rfl
      rw [ht] at hu
      cases hu
      omega
    refine ⟨u, w, ?_⟩
    rw [setCall_calls, if_neg hne]
    exact hu

end Writes

/-! ## The books of a subscriber -/

/-- What `subscribe` has read so far. -/
def Stage.current : Stage A → Option A
  | .subscribed => none
  | .read v | .ready v => some v

/-- What `subscribe` has offered so far. -/
def Stage.given : Stage A → List A
  | .subscribed | .read _ => []
  | .ready v => [v]

/-- A live subscriber: what was published since it came are the values of the cell that follow the
    one it reads, and its queue gets the value read and then these. -/
structure SubFollows (history sent : List A) (published : ℕ) (c : Cursor) (x : Sub A) : Prop where
  attached : c.stop = none
  start_le : c.start ≤ c.pos
  pos_le : c.pos ≤ sent.length
  room : sent.length ≤ c.pos + unboundedCap
  since_le : x.since ≤ published
  span : sent.drop c.start = (history.drop (x.since + 1)).take (published - x.since)
  order : x.sub.received ++ x.sub.inHand.toList ++ sent.drop c.pos =
    x.stage.given ++ sent.drop c.start
  early : x.stage.given = [] → x.sub.received = []
  first : x.stage.given <+: x.sub.received
  current : ∀ v, x.stage.current = some v → history[x.since]? = some v
  queue : Accepts x.sub.queue

namespace SubFollows

variable {history sent : List A} {published : ℕ} {c : Cursor} {x : Sub A}

theorem new (history sent : List A) (published : ℕ) :
    SubFollows history sent published ⟨sent.length, sent.length, none⟩
      ⟨.new, .subscribed, published⟩ where
  attached := rfl
  start_le := Nat.le_refl _
  pos_le := Nat.le_refl _
  room := Nat.le_add_right _ _
  since_le := Nat.le_refl _
  span := by
    rw [List.drop_length, Nat.sub_self, List.take_zero]
  order := rfl
  early := fun _ => rfl
  first := List.nil_prefix
  current := nofun
  queue := ⟨_, rfl, rfl, rfl⟩

theorem write (h : SubFollows history sent published c x) (hlt : published < history.length)
    (v : A) : SubFollows (history ++ [v]) sent published c x := by
  refine { h with span := ?_, current := fun w hw => ?_ }
  · have hsince := h.since_le
    have htake : published - x.since ≤ (history.drop (x.since + 1)).length := by
      rw [List.length_drop]
      omega
    rw [List.drop_append_of_le_length (by omega), List.take_append_of_le_length htake, h.span]
  · have hw := h.current w hw
    exact (List.getElem?_append_left (List.getElem?_eq_some_iff.1 hw).1).trans hw

/-- The next value of the cell is published. -/
theorem publish (h : SubFollows history sent published c x) {v : A}
    (hv : history[published + 1]? = some v) (hroom : sent.length < c.pos + unboundedCap) :
    SubFollows history (sent ++ [v]) (published + 1) c x := by
  have hstart := h.start_le
  have hpos := h.pos_le
  have hsince := h.since_le
  refine { h with pos_le := ?_, room := ?_, since_le := by omega, span := ?_, order := ?_ }
  · rw [List.length_append]
    omega
  · rw [List.length_append, List.length_singleton]
    omega
  · have hnext : (history.drop (x.since + 1))[published - x.since]? = some v := by
      rw [List.getElem?_drop, ← hv]
      congr 1
      omega
    have hcount : published + 1 - x.since = published - x.since + 1 := by omega
    rw [List.drop_append_of_le_length (by omega), h.span, hcount, List.take_add_one, hnext]
    rfl
  · rw [List.drop_append_of_le_length hpos, List.drop_append_of_le_length (by omega),
      ← List.append_assoc, h.order, List.append_assoc]

theorem read (h : SubFollows history sent published c x) {cell : A}
    (hst : x.stage = .subscribed) (hread : history[x.since]? = some cell) :
    SubFollows history sent published c { x with stage := .read cell } := by
  have horder := h.order
  rw [hst] at horder
  refine { h with
    order := horder, early := fun _ => h.early (by rw [hst]; rfl), first := List.nil_prefix,
    current := ?_ }
  intro v hv
  cases hv
  exact hread

theorem offerCurrent (h : SubFollows history sent published c x) {v : A}
    (hst : x.stage = .read v) : SubFollows history sent published c (x.offerCurrent v) := by
  obtain ⟨hstored, hacc⟩ := h.queue.offer v
  have hreceived : (x.offerCurrent v).sub.received = [v] := by
    show (if (x.sub.queue.offer v).1 then x.sub.received ++ [v] else _) = [v]
    rw [hstored, h.early (by rw [hst]; rfl)]
    rfl
  have horder := h.order
  rw [h.early (by rw [hst]; rfl), hst] at horder
  refine { h with
    order := ?_, early := nofun, first := ?_, current := fun w hw => ?_, queue := hacc }
  · rw [hreceived]
    exact congrArg (v :: ·) horder
  · rw [hreceived]
    exact List.prefix_refl _
  · cases hw
    exact h.current v (by rw [hst]; rfl)

theorem recv (h : SubFollows history sent published c x) {v : A} (hv : sent[c.pos]? = some v)
    (hhand : x.sub.inHand = none) :
    SubFollows history sent published { c with pos := c.pos + 1 }
      (x.setSub (x.sub.receive v c.stop.isSome)) := by
  obtain ⟨hlt, hget⟩ := List.getElem?_eq_some_iff.1 hv
  have hroom := h.room
  have hstart := h.start_le
  refine { h with start_le := Nat.le_succ_of_le hstart, pos_le := hlt, room := ?_, order := ?_ }
  · show sent.length ≤ c.pos + 1 + unboundedCap
    omega
  · have hdrop : sent.drop c.pos = v :: sent.drop (c.pos + 1) := by
      rw [List.drop_eq_getElem_cons hlt, hget]
    have horder := h.order
    rw [hhand, hdrop] at horder
    simpa [Sub.setSub, Subscriber.receive, h.attached] using horder

theorem put (h : SubFollows history sent published c x) {v current : A}
    (hv : x.sub.inHand = some v) (hst : x.stage = .ready current) :
    SubFollows history sent published c (x.setSub (x.sub.put v)) := by
  obtain ⟨hstored, hacc⟩ := h.queue.offer v
  refine { h with order := ?_, early := ?_, first := ?_, queue := hacc }
  · have horder := h.order
    rw [hv] at horder
    simpa [Sub.setSub, Subscriber.put, hstored] using horder
  · intro hgiven
    have hgiven : x.stage.given = [] := hgiven
    rw [hst] at hgiven
    cases hgiven
  · refine h.first.trans ?_
    show x.sub.received <+: (if (x.sub.queue.offer v).1 then x.sub.received ++ [v] else _)
    rw [hstored]
    exact List.prefix_append _ _

end SubFollows

/-! ## The invariant -/

structure Inv (s : Sys Tid A) : Prop where
  writes : Writes s
  ring : s.hub.chan.ring = unboundedCap
  subs : ∀ (r : ℕ) (c : Cursor), s.hub.chan.cursors[r]? = some c → (s.subs r).sub.live = true →
    SubFollows s.history s.hub.chan.sent s.published c (s.subs r)

namespace Inv

omit [DecidableEq Tid] in
theorem make (value : A) : Inv (Sys.make value : Sys Tid A) :=
  ⟨.make value, rfl, nofun⟩

omit [DecidableEq Tid] in
theorem setSub_subs (r q : ℕ) (x : Sub A) :
    (s.setSub r x).subs q = if q = r then x else s.subs q := by
  simp only [Sys.setSub, Function.update_apply]

omit [DecidableEq Tid] in
/-- One subscriber changes, but not its cursor. -/
theorem setSub (h : Inv s) {r : ℕ} {x : Sub A}
    (hx : ∀ c, s.hub.chan.cursors[r]? = some c → x.sub.live = true →
      SubFollows s.history s.hub.chan.sent s.published c x) : Inv (s.setSub r x) where
  writes := h.writes.congr rfl rfl rfl rfl
  ring := h.ring
  subs := by
    intro q c hc hlive
    rw [setSub_subs] at hlive ⊢
    split at hlive
    · next hq =>
        rw [if_pos hq]
        exact hx c (hq ▸ hc) hlive
    · next hq =>
        rw [if_neg hq]
        exact h.subs q c hc hlive

omit [DecidableEq Tid] in
/-- One subscriber and its cursor change. -/
theorem setCursor (h : Inv s) {r : ℕ} {d : Cursor} {x : Sub A}
    (hx : x.sub.live = true → SubFollows s.history s.hub.chan.sent s.published d x) :
    Inv ((s.setChan (s.hub.chan.setCursor r d)).setSub r x) where
  writes := h.writes.congr rfl rfl rfl rfl
  ring := h.ring
  subs := by
    intro q c hc hlive
    rw [setSub_subs] at hlive ⊢
    rcases Channel.mem_setCursor hc with ⟨rfl, rfl⟩ | ⟨hq, hc⟩
    · rw [if_pos rfl] at hlive ⊢
      exact hx hlive
    · rw [if_neg hq] at hlive ⊢
      exact h.subs q c hc hlive

omit [DecidableEq Tid] in
theorem subscribe (h : Inv s) : Inv ((s.setChan s.hub.chan.subscribe).setSub
    s.hub.chan.cursors.length ⟨.new, .subscribed, s.published⟩) where
  writes := h.writes.congr rfl rfl rfl rfl
  ring := h.ring
  subs := by
    intro q c hc hlive
    rw [setSub_subs] at hlive ⊢
    rcases Channel.mem_subscribe hc with hc | ⟨rfl, rfl⟩
    · have hlt : q < s.hub.chan.cursors.length := (List.getElem?_eq_some_iff.1 hc).1
      rw [if_neg (by omega)] at hlive ⊢
      exact h.subs q c hc hlive
    · rw [if_pos rfl]
      exact .new _ _ _

theorem write (h : Inv s) {t : Tid} (v : A) (ht : ∀ w i, s.calls t ≠ .publishing w i) :
    Inv (s.write t v) where
  writes := h.writes.write v ht
  ring := h.ring
  subs := fun r c hc hlive => (h.subs r c hc hlive).write h.writes.published_lt v

theorem publish (h : Inv s) {t : Tid} {v : A} (ht : s.calls t = .publishing v (s.published + 1))
    (hroom : ∀ c ∈ s.hub.chan.cursors, c.stop = none →
      s.hub.chan.sent.length < c.pos + unboundedCap) : Inv (s.publish t v) := by
  have hv := (h.writes.pending t v _ ht).2
  unfold Sys.publish
  split
  · next ch hsend =>
      rw [Channel.send_eq_some hsend]
      refine ⟨h.writes.publish ht _, h.ring, fun r c hc hlive => ?_⟩
      have hfollows := h.subs r c hc hlive
      exact hfollows.publish hv (hroom c (List.mem_of_getElem? hc) hfollows.attached)
  · next hsend =>
      refine ⟨h.writes.publish ht _, h.ring, fun r c hc hlive => ?_⟩
      -- nobody listens, so that there is no live subscriber either
      have hany : s.hub.chan.cursors.any (·.stop.isNone) = true :=
        List.any_eq_true.2 ⟨c, List.mem_of_getElem? hc, by rw [(h.subs r c hc hlive).attached]; rfl⟩
      rw [Channel.send, if_pos hany] at hsend
      cases hsend

theorem step (h : Inv s) (hroom : s.Roomy l) (hg : s.Ordered l) (hstep : Step s l s') : Inv s' := by
  cases hstep with
  | start hidle =>
      exact ⟨h.writes.setCall (by rw [hidle]; nofun) nofun, h.ring, h.subs⟩
  | write hc v => exact h.write v (by rw [hc]; nofun)
  | @publish t v index hc =>
      rw [Sys.Roomy, hc] at hroom
      rw [Sys.Ordered, hc] at hg
      have hindex : index = s.published + 1 := hg
      exact h.publish (hindex ▸ hc) hroom
  | subscribe => exact h.subscribe
  | @read r hst =>
      refine h.setSub fun c hc hlive => (h.subs r c hc hlive).read hst ?_
      -- the cell holds the last of the values written, and that is the one with this number
      have hlen : s.history.length = (s.subs r).since + 1 := hg
      have hlast := h.writes.cell
      rw [List.getLast?_eq_getElem?, hlen, Nat.add_sub_cancel] at hlast
      exact hlast
  | @offerCurrent r v hst =>
      exact h.setSub fun c hc hlive => (h.subs r c hc hlive).offerCurrent hst
  | @recv r c v hc hhand hv =>
      exact h.setCursor fun hlive => (h.subs r c hc hlive).recv hv hhand
  | @lag r c hc hlag =>
      refine h.setCursor fun hlive => ?_
      have hbehind := (h.subs r c hc hlive).room
      rw [h.ring] at hlag
      omega
  | @offer r v hv =>
      obtain ⟨current, hst⟩ := hg
      exact h.setSub fun c hc hlive => (h.subs r c hc hlive).put hv hst
  | @take r =>
      refine h.setSub fun c hc hlive => ?_
      have hfollows := h.subs r c hc hlive
      exact { hfollows with queue := hfollows.queue.tryRecv }
  | closeScope hc => exact h.setCursor fun hlive => by cases hlive

omit [DecidableEq Tid] in
/-- The value read and what follows it in the cell. -/
theorem drop_since {r : ℕ} {c : Cursor} {current : A}
    (hf : SubFollows s.history s.hub.chan.sent s.published c (s.subs r))
    (hst : (s.subs r).stage = .ready current) :
    s.history.drop (s.subs r).since = current :: s.history.drop ((s.subs r).since + 1) := by
  have hcur := hf.current current (by rw [hst]; rfl)
  obtain ⟨hlt, hget⟩ := List.getElem?_eq_some_iff.1 hcur
  rw [List.drop_eq_getElem_cons hlt, hget]

omit [DecidableEq Tid] in
theorem received_prefix {r : ℕ} {c : Cursor}
    (hf : SubFollows s.history s.hub.chan.sent s.published c (s.subs r)) :
    (s.subs r).sub.received <+: s.history.drop (s.subs r).since := by
  cases hst : (s.subs r).stage with
  | subscribed =>
      rw [hf.early (by rw [hst]; rfl)]
      exact List.nil_prefix
  | read v =>
      rw [hf.early (by rw [hst]; rfl)]
      exact List.nil_prefix
  | ready current =>
      have hgiven : (s.subs r).stage.given = [current] := by
        rw [hst]
        rfl
      have horder := hf.order
      rw [hgiven, hf.span, List.append_assoc] at horder
      have hreceived : (s.subs r).sub.received <+: current ::
          (s.history.drop ((s.subs r).since + 1)).take (s.published - (s.subs r).since) :=
        ⟨_, horder⟩
      rw [drop_since hf hst]
      exact hreceived.trans (List.cons_prefix_cons.2 ⟨rfl, List.take_prefix _ _⟩)

omit [DecidableEq Tid] in
/-- When all calls have returned, everything written has been published. -/
theorem published_all (h : Inv s) (hret : ∀ t, s.calls t = .idle ∨ s.calls t = .returned) :
    s.published + 1 = s.history.length := by
  have hlt := h.writes.published_lt
  by_contra hne
  obtain ⟨t, v, ht⟩ := h.writes.outstanding (s.published + 1) (by omega) (by omega)
  rcases hret t with hidle | hreturned
  · rw [hidle] at ht
    cases ht
  · rw [hreturned] at ht
    cases ht

omit [DecidableEq Tid] in
theorem received_all (h : Inv s) {r : ℕ} {c : Cursor} {current : A}
    (hc : s.hub.chan.cursors[r]? = some c)
    (hf : SubFollows s.history s.hub.chan.sent s.published c (s.subs r))
    (hst : (s.subs r).stage = .ready current) (hq : s.Quiet r) :
    (s.subs r).sub.received = s.history.drop (s.subs r).since := by
  obtain ⟨hret, hhand, hpos⟩ := hq
  have hpublished := h.published_all hret
  have hsince := hf.since_le
  have hspan := hf.span
  rw [List.take_of_length_le (by rw [List.length_drop]; omega)] at hspan
  have hgiven : (s.subs r).stage.given = [current] := by
    rw [hst]
    rfl
  have horder := hf.order
  rw [hhand, hpos c hc, List.drop_length, hgiven, hspan, Option.toList_none, List.append_nil,
    List.append_nil] at horder
  rw [drop_since hf hst, horder]
  rfl

omit [DecidableEq Tid] in
theorem follows (h : Inv s) : s.Follows := by
  intro r hr hlive
  have hc : s.hub.chan.cursors[r]? = some s.hub.chan.cursors[r] := List.getElem?_eq_getElem hr
  have hf := h.subs r _ hc hlive
  have hlt : (s.subs r).since < s.history.length := by
    have hsince := hf.since_le
    have hpublished := h.writes.published_lt
    omega
  refine ⟨(s.subs r).since, hlt, received_prefix hf, fun current hst => ⟨?_, fun hq => ?_⟩⟩
  · have hfirst := hf.first
    rw [hst] at hfirst
    obtain ⟨rest, hrest⟩ := hfirst
    rw [← hrest]
    rfl
  · have hall := h.received_all hc hf hst hq
    refine ⟨hall, ?_⟩
    rw [hall, List.getLast?_drop, if_neg (by omega), h.writes.cell]

end Inv

/-- **Subscribers follow the cell.** In every run in which values are published in the order of the
    writes, a subscriber reads the cell when everything written was published before it came, and
    no forwarder overtakes the value read, every queue receives the values of the cell from some
    moment on, in order, and in the end the value the cell holds. -/
theorem subscribers_follow {Tid A : Type} [DecidableEq Tid] (value : A) (ls : List (Label Tid A))
    (s : Sys Tid A) (hroom : Along Sys.step Sys.Roomy (Sys.make value) ls)
    (hg : Along Sys.step Sys.Ordered (Sys.make value) ls)
    (h : run Sys.step (Sys.make value) ls = some s) : s.Follows := by
  have hinv : Inv s :=
    run_invariant_along (fun _ _ _ ha hk hb => ha.step hk.1 hk.2 (.of_step hb)) (.make value)
      (hroom.and hg) h
  exact hinv.follows

/-- Two calls publish in the order in which they wrote, while a subscriber follows. -/
theorem subscribers_follow_two : ∃ s : Sys ℕ ℕ,
    run Sys.step (Sys.make 0) [.subscribe, .read 0, .offerCurrent 0, .set 0 1, .update 1 (· + 5),
      .step 0, .step 1, .step 0, .step 1, .recv 0, .offer 0, .recv 0, .offer 0] = some s ∧
    (s.subs 0).sub.received = [0, 1, 6] ∧ s.cell = 6 ∧ s.Follows := by
  refine ⟨_, rfl, rfl, rfl, ?_⟩
  have hroom : ∀ n < 2, ∀ c : Cursor, n < c.pos + unboundedCap := by
    intro n hn c
    unfold unboundedCap
    omega
  refine subscribers_follow 0 [.subscribe, .read 0, .offerCurrent 0, .set 0 1, .update 1 (· + 5),
      .step 0, .step 1, .step 0, .step 1, .recv 0, .offer 0, .recv 0, .offer 0] _ ?_ ?_ rfl
  · exact along_cons rfl trivial (along_cons rfl trivial (along_cons rfl trivial
      (along_cons rfl trivial (along_cons rfl trivial (along_cons rfl trivial
        (along_cons rfl trivial (along_cons rfl (fun c _ _ => hroom 0 (by decide) c)
          (along_cons rfl (fun c _ _ => hroom 1 (by decide) c) (along_cons rfl trivial
            (along_cons rfl trivial (along_cons rfl trivial (along_cons rfl trivial
              trivial))))))))))))
  · exact along_cons rfl trivial (along_cons rfl rfl (along_cons rfl trivial
      (along_cons rfl trivial (along_cons rfl trivial (along_cons rfl trivial
        (along_cons rfl trivial (along_cons rfl rfl (along_cons rfl rfl (along_cons rfl trivial
          (along_cons rfl ⟨0, rfl⟩ (along_cons rfl trivial (along_cons rfl ⟨0, rfl⟩
            trivial))))))))))))

end IdEffect.SubscriptionRef
