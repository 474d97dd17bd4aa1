import IdEffect.Streaming.Channel

set_option autoImplicit false

/-! # Runs of a channel-backed stream

The invariant of a channel whose steps all meet `Keeps`: the queue is the one of the policy, the
consumer has passed on what it took, only chunks were evicted, and the consumer does not sleep while
a message that ends the stream is in the queue. Such a message can only come closer to the consumer:
`toGo` bounds the number of steps the consumer still has to make, whatever the producers do. -/

namespace IdEffect.Channels

open Transition Signal Streaming

variable {Tid A E : Type} [DecidableEq Tid]
variable {capacity : ℕ} {policy : BackpressurePolicy}
variable {s s' : Sys Tid A E} {l : Label Tid A E}

/-! ## One step -/

/-- The message a call is about to offer. -/
def Call.offers : Call A E → Option (ChannelMessage A E)
  | .sending chunk => some (.chunk chunk)
  | .terminating m => some m
  | _ => none

/-- The queue is the one of the policy and holds no more than it may. -/
structure Shape (capacity : ℕ) (policy : BackpressurePolicy) (s : Sys Tid A E) : Prop where
  policy_eq : s.policy = policy
  queue : s.queue = queueWith capacity policy s.queue.buffered
  length_le : s.queue.buffered.length ≤ max capacity 1

/-- The consumer is about to look into the queue. -/
structure Looking (c : Consumer A E) : Prop where
  waiting : c.waiting = .away
  exhausted : c.exhausted = false
  buffered : c.buffered = []
  closed : c.closed = false

/-- What a step of the system can do. -/
inductive Step (capacity : ℕ) (policy : BackpressurePolicy) (s : Sys Tid A E) :
    Label Tid A E → Sys Tid A E → Prop
  | quiet {l : Label Tid A E} {t : Tid} {c : Call A E} (h : s.calls t ≠ .pushed)
      (hl : l.isPull = false) : Step capacity policy s l (s.setCall t c)
  | enqueue {t : Tid} {m : ChannelMessage A E} {c : Call A E} (h : (s.calls t).offers = some m)
      (hroom : s.queue.buffered.length < max capacity 1)
      (hc : policy = .dropOldest → c = .pushed) :
      Step capacity policy s (.step t) ({ s with
        queue := queueWith capacity policy (s.queue.buffered ++ [m])
        accepted := s.accepted ++ [m] }.setCall t c)
  | evict {t : Tid} {m old : ChannelMessage A E} {rest : List (ChannelMessage A E)}
      (h : (s.calls t).offers = some m) (hbuf : s.queue.buffered = old :: rest)
      (hold : s.evicts = some old) :
      Step capacity policy s (.step t) ({ s with
        queue := queueWith capacity policy (rest ++ [m])
        accepted := s.accepted ++ [m]
        gone := s.gone ++ [(old, false)] }.setCall t .pushed)
  | notify {t : Tid} (h : s.calls t = .pushed) :
      Step capacity policy s (.step t)
        ({ s with notifyCount := s.notifyCount + 1 }.setCall t .returned)
  | take {size : ℕ} {m : ChannelMessage A E} {rest : List (ChannelMessage A E)}
      (h : Looking s.consumer) (hbuf : s.queue.buffered = m :: rest) :
      Step capacity policy s (.pull size) ({ s with
        queue := queueWith capacity policy rest
        gone := s.gone ++ [(m, true)] }.setConsumer (s.consumer.handle m))
  | findEmpty {size : ℕ} (hbuf : s.queue.buffered = []) (h : Looking s.consumer)
      (hp : policy = .dropOldest) :
      Step capacity policy s (.pull size)
        (s.setConsumer { s.consumer with waiting := .unregistered })
  | park {size : ℕ} (h : s.consumer.waiting = .unregistered) :
      Step capacity policy s (.pull size)
        (s.setConsumer { s.consumer with waiting := .registered s.notifyCount })
  | wake {size seen : ℕ} (h : s.consumer.waiting = .registered seen) :
      Step capacity policy s (.pull size) (s.setConsumer { s.consumer with waiting := .away })
  | exhaust {size : ℕ} (hw : s.consumer.waiting = .away) (hbuf : s.consumer.buffered = [])
      (hc : s.consumer.closed = true) :
      Step capacity policy s (.pull size) (s.setConsumer { s.consumer with exhausted := true })
  | deliver {size : ℕ} (hsize : 0 < size) (hw : s.consumer.waiting = .away)
      (hbuf : s.consumer.buffered ≠ []) :
      Step capacity policy s (.pull size) (s.setConsumer { s.consumer with
        pulled := s.consumer.pulled ++ s.consumer.buffered.take size
        buffered := s.consumer.buffered.drop size })
  | rest {size : ℕ} (h : s.consumer.exhausted = true) : Step capacity policy s (.pull size) s

/-- An offer to a queue with room. -/
theorem offer_room (hs : Shape capacity policy s) {t : Tid} {m : ChannelMessage A E}
    {refused : Call A E} (hroom : s.queue.buffered.length < max capacity 1) :
    s.offer t m refused = { s with
      queue := queueWith capacity policy (s.queue.buffered ++ [m])
      accepted := s.accepted ++ [m] }.setCall t s.afterPush := by
  have hoffer := offer_eq_decision policy m hs.length_le
  rw [← hs.queue, decision_room hroom] at hoffer
  simp only [Sys.offer, hoffer, Sys.accept, queueWith_buffered, Nat.sub_self, List.take_zero,
    List.map_nil, List.append_nil]

/-- An offer to a full queue that does not evict. -/
theorem offer_refused (hs : Shape capacity policy s) {t : Tid} {m : ChannelMessage A E}
    {refused : Call A E} (hfull : ¬ s.queue.buffered.length < max capacity 1)
    (hp : policy ≠ .dropOldest) : s.offer t m refused = s.setCall t refused := by
  have hoffer := offer_eq_decision policy m hs.length_le
  rw [← hs.queue, decision_full hfull] at hoffer
  have hnone : s.queue.offer m = (false, s.queue) := by
    rw [hs.queue] at hoffer ⊢
    cases policy with
    | dropOldest => exact absurd rfl hp
    | boundedBlock => exact hoffer
    | dropNewest => exact hoffer
    | fail => exact hoffer
  simp only [Sys.offer, hnone]

/-- An offer to a full sliding queue. -/
theorem offer_evicts (hs : Shape capacity .dropOldest s) (t : Tid) (m : ChannelMessage A E)
    (refused : Call A E) (hfull : ¬ s.queue.buffered.length < max capacity 1) :
    ∃ old rest, s.queue.buffered = old :: rest ∧ s.evicts = some old ∧
      s.offer t m refused = { s with
        queue := queueWith capacity .dropOldest (rest ++ [m])
        accepted := s.accepted ++ [m]
        gone := s.gone ++ [(old, false)] }.setCall t .pushed := by
  obtain ⟨old, rest, hbuf⟩ : ∃ old rest, s.queue.buffered = old :: rest := by
    refine List.exists_cons_of_ne_nil fun hnil => ?_
    rw [hnil, List.length_nil] at hfull
    omega
  have hoffer := offer_eq_decision .dropOldest m hs.length_le
  rw [← hs.queue, decision_full hfull, hbuf, List.tail_cons] at hoffer
  have hqueue := hs.queue
  refine ⟨old, rest, hbuf, ?_, ?_⟩
  · rw [hbuf] at hqueue hfull
    have hle : max capacity 1 ≤ (old :: rest).length := Nat.le_of_not_lt hfull
    rw [Sys.evicts, hqueue]
    exact if_pos hle
  · have hpush : s.afterPush = .pushed := by
      rw [Sys.afterPush, hqueue]
      rfl
    have hone : (old :: rest ++ [m]).length - (rest ++ [m]).length = 1 := by
      simp
    simp only [Sys.offer, hoffer, Sys.accept, queueWith_buffered, hbuf, hone, hpush]
    rfl

theorem Step.of_offer (hs : Shape capacity policy s) {t : Tid} {m : ChannelMessage A E}
    {refused : Call A E} (h : (s.calls t).offers = some m) :
    Step capacity policy s (.step t) (s.offer t m refused) := by
  by_cases hroom : s.queue.buffered.length < max capacity 1
  · rw [offer_room hs hroom]
    refine .enqueue h hroom fun hp => ?_
    rw [Sys.afterPush, hs.queue, hp]
    rfl
  · by_cases hp : policy = .dropOldest
    · subst hp
      obtain ⟨old, rest, hbuf, hold, hoffer⟩ := offer_evicts hs t m refused hroom
      rw [hoffer]
      exact .evict h hbuf hold
    · rw [offer_refused hs hroom hp]
      refine .quiet (fun hc => ?_) rfl
      rw [hc] at h
      cases h

theorem Step.of_stepCall (hs : Shape capacity policy s) {t : Tid} (h : s.stepCall t = some s') :
    Step capacity policy s (.step t) s' := by
  unfold Sys.stepCall at h
  split at h
  · next chunk hc => exact Option.some.inj h ▸ .of_offer hs (by rw [hc]; rfl)
  · next m hc => exact Option.some.inj h ▸ .of_offer hs (by rw [hc]; rfl)
  · next hc => exact Option.some.inj h ▸ .notify hc
  · cases h
  · cases h
  · cases h

theorem Step.of_look (hs : Shape capacity policy s) {size : ℕ} (hl : Looking s.consumer)
    (h : s.look = some s') : Step capacity policy s (.pull size) s' := by
  unfold Sys.look at h
  rw [hs.queue] at h
  cases hbuf : s.queue.buffered with
  | nil =>
      rw [hbuf, queueWith_recv_nil] at h
      cases policy with
      | dropOldest => exact Option.some.inj h ▸ .findEmpty hbuf hl rfl
      | boundedBlock => cases h
      | dropNewest => cases h
      | fail => cases h
  | cons m rest =>
      rw [hbuf, queueWith_recv_cons] at h
      exact Option.some.inj h ▸ .take hl hbuf

theorem Step.of_stepPull (hs : Shape capacity policy s) {size : ℕ} (hsize : 0 < size)
    (h : s.stepPull size = some s') : Step capacity policy s (.pull size) s' := by
  unfold Sys.stepPull at h
  split at h
  · next hw => exact Option.some.inj h ▸ .park hw
  · next seen hw =>
      split at h
      · cases h
      · exact Option.some.inj h ▸ .wake hw
  · next hw =>
      split at h
      · next hex => exact Option.some.inj h ▸ .rest hex
      · next hex =>
          split at h
          · next hbuf hc => exact .of_look hs ⟨hw, eq_false_of_ne_true hex, hbuf, hc⟩ h
          · next hbuf hc => exact Option.some.inj h ▸ .exhaust hw hbuf hc
          · next a buf hbuf =>
              have hne : s.consumer.buffered ≠ [] := by simp [hbuf]
              rw [← hbuf] at h
              exact Option.some.inj h ▸ .deliver hsize hw hne

theorem Step.of_step (hs : Shape capacity policy s) (h : s.step l = some s') :
    Step capacity policy s l s' := by
  have hstart : ∀ {t : Tid} {c : Call A E}, l.isPull = false → s.start t c = some s' →
      Step capacity policy s l s' := by
    intro t c hl h
    unfold Sys.start at h
    split at h
    · next hidle => exact Option.some.inj h ▸ .quiet (by rw [hidle]; nofun) hl
    · cases h
  cases l with
  | sendChunk t chunk => exact hstart rfl h
  | fail t error => exact hstart rfl h
  | endStream t => exact hstart rfl h
  | step t => exact .of_stepCall hs h
  | pull size =>
      simp only [Sys.step] at h
      split at h
      · cases h
      · next hsize => exact .of_stepPull hs (Nat.pos_of_ne_zero hsize) h

/-- The queue stays the one of the policy. -/
theorem Shape.step (hs : Shape capacity policy s) (h : Step capacity policy s l s') :
    Shape capacity policy s' := by
  have hlen := hs.length_le
  cases h with
  | quiet | notify | findEmpty | park | wake | exhaust | deliver | rest =>
      exact ⟨hs.policy_eq, hs.queue, hlen⟩
  | enqueue ht hroom hc =>
      refine ⟨hs.policy_eq, by simp only [Sys.setCall, queueWith_buffered], ?_⟩
      simp only [Sys.setCall, queueWith_buffered, List.length_append, List.length_singleton]
      omega
  | evict ht hbuf hold =>
      rw [hbuf, List.length_cons] at hlen
      refine ⟨hs.policy_eq, by simp only [Sys.setCall, queueWith_buffered], ?_⟩
      simpa only [Sys.setCall, queueWith_buffered, List.length_append, List.length_singleton]
  | take hl hbuf =>
      rw [hbuf, List.length_cons] at hlen
      refine ⟨hs.policy_eq, by simp only [Sys.setConsumer, queueWith_buffered], ?_⟩
      simp only [Sys.setConsumer, queueWith_buffered]
      omega

/-! ## The elements kept -/

section keptElems

variable {xs ys : List (ChannelMessage A E × Bool)}

theorem keptElems_append_of_chunks (h : ∀ e ∈ xs, isChunk e.1 = true) :
    keptElems (xs ++ ys) = keptElems xs ++ keptElems ys := by
  induction xs with
  | nil => rfl
  | cons e xs ih =>
      have hrest := ih fun e he => h e (List.mem_cons_of_mem _ he)
      obtain ⟨m, taken⟩ := e
      have hm : isChunk m = true := h (m, taken) List.mem_cons_self
      cases m with
      | chunk items =>
          cases taken with
          | true => simp only [List.cons_append, keptElems, hrest, List.append_assoc]
          | false => simp only [List.cons_append, keptElems, hrest]
      | endStream => cases hm
      | fail error => cases hm

theorem keptElems_append_of_end (h : ∃ e ∈ xs, isChunk e.1 = false) :
    keptElems (xs ++ ys) = keptElems xs := by
  induction xs with
  | nil =>
      obtain ⟨e, he, -⟩ := h
      cases he
  | cons e xs ih =>
      obtain ⟨m, taken⟩ := e
      cases m with
      | chunk items =>
          have hrest : keptElems (xs ++ ys) = keptElems xs := by
            refine ih ?_
            obtain ⟨e, he, hend⟩ := h
            rcases List.mem_cons.1 he with rfl | he
            · cases hend
            · exact ⟨e, he, hend⟩
          cases taken with
          | true => simp only [List.cons_append, keptElems, hrest]
          | false => simp only [List.cons_append, keptElems, hrest]
      | endStream => rfl
      | fail error => rfl

/-- Whatever comes later only adds elements at the end. -/
theorem keptElems_prefix : keptElems xs <+: keptElems (xs ++ ys) := by
  by_cases h : ∃ e ∈ xs, isChunk e.1 = false
  · exact ⟨[], by rw [List.append_nil, keptElems_append_of_end h]⟩
  · have hchunks : ∀ e ∈ xs, isChunk e.1 = true := by
      simpa only [not_exists, not_and, Bool.not_eq_false] using h
    rw [keptElems_append_of_chunks hchunks]
    exact List.prefix_append _ _

/-- An entry that has no elements to add. -/
theorem keptElems_snoc {e : ChannelMessage A E × Bool} (he : keptElems [e] = []) :
    keptElems (xs ++ [e]) = keptElems xs := by
  by_cases h : ∃ e ∈ xs, isChunk e.1 = false
  · exact keptElems_append_of_end h
  · have hchunks : ∀ e ∈ xs, isChunk e.1 = true := by
      simpa only [not_exists, not_and, Bool.not_eq_false] using h
    rw [keptElems_append_of_chunks hchunks, he, List.append_nil]

end keptElems

/-! ## The consumer's books -/

/-- The consumer has taken a message that ends the stream. -/
def Consumer.told (c : Consumer A E) : Prop := c.closed = true ∨ c.errors ≠ []

/-- The consumer, against the messages that have left the queue. -/
structure Books (gone : List (ChannelMessage A E × Bool)) (c : Consumer A E) : Prop where
  kept : ∀ m, (m, false) ∈ gone → isChunk m = true
  elems : c.pulled ++ c.buffered = keptElems gone
  told : c.told ↔ ∃ e ∈ gone, isChunk e.1 = false
  served : c.told → c.buffered = []
  exhausted : c.exhausted = true → c.closed = true

namespace Books

variable {gone : List (ChannelMessage A E × Bool)} {c : Consumer A E}

theorem mem_snoc_end {e : ChannelMessage A E × Bool} (he : isChunk e.1 = true) :
    (∃ d ∈ gone ++ [e], isChunk d.1 = false) ↔ ∃ d ∈ gone, isChunk d.1 = false := by
  constructor
  · rintro ⟨d, hd, hend⟩
    rcases List.mem_append.1 hd with hd | hd
    · exact ⟨d, hd, hend⟩
    · rw [List.mem_singleton.1 hd, he] at hend
      cases hend
  · rintro ⟨d, hd, hend⟩
    exact ⟨d, List.mem_append_left _ hd, hend⟩

theorem evict (h : Books gone c) {old : ChannelMessage A E} (hold : isChunk old = true) :
    Books (gone ++ [(old, false)]) c where
  kept := by
    intro m hm
    rcases List.mem_append.1 hm with hm | hm
    · exact h.kept m hm
    · cases List.mem_singleton.1 hm
      exact hold
  elems := by
    have hnone : keptElems [(old, false)] = ([] : List A) := by
      cases old <;> rfl
    rw [keptElems_snoc hnone, h.elems]
  told := h.told.trans (mem_snoc_end hold).symm
  served := h.served
  exhausted := h.exhausted

theorem kept_snoc (h : Books gone c) {m : ChannelMessage A E} :
    ∀ n, (n, false) ∈ gone ++ [(m, true)] → isChunk n = true := by
  intro n hn
  rcases List.mem_append.1 hn with hn | hn
  · exact h.kept n hn
  · cases List.mem_singleton.1 hn

theorem takeChunk (h : Books gone c) (hl : Looking c) {items : List A}
    (hg : c.errors ≠ [] → items = []) :
    Books (gone ++ [(.chunk items, true)]) (c.handle (.chunk items)) := by
  have htold : c.told → items = [] := by
    rintro (hclosed | herrors)
    · exact absurd (hl.closed.symm.trans hclosed) (by simp)
    · exact hg herrors
  have hhandle : (c.handle (.chunk items)).buffered = items := by
    show c.buffered ++ items = items
    rw [hl.buffered, List.nil_append]
  have helems := h.elems
  rw [hl.buffered, List.append_nil] at helems
  refine ⟨h.kept_snoc, ?_, h.told.trans (mem_snoc_end rfl).symm, ?_, h.exhausted⟩
  · show c.pulled ++ (c.handle (.chunk items)).buffered = _
    rw [hhandle, helems]
    by_cases hend : ∃ e ∈ gone, isChunk e.1 = false
    · rw [keptElems_append_of_end hend, htold (h.told.2 hend), List.append_nil]
    · have hchunks : ∀ e ∈ gone, isChunk e.1 = true := by
        simpa only [not_exists, not_and, Bool.not_eq_false] using hend
      rw [keptElems_append_of_chunks hchunks]
      simp only [keptElems, List.append_nil]
  · intro hnow
    rw [hhandle]
    exact htold hnow

/-- A message that ends the stream leaves the elements as they are. -/
theorem takeEnd (h : Books gone c) (hl : Looking c) {m : ChannelMessage A E}
    (hm : isChunk m = false) : Books (gone ++ [(m, true)]) (c.handle m) := by
  have hhandle : (c.handle m).pulled = c.pulled ∧ (c.handle m).buffered = c.buffered ∧
      (c.handle m).exhausted = c.exhausted ∧ (c.handle m).told := by
    cases m with
    | chunk items => cases hm
    | endStream => exact ⟨rfl, rfl, rfl, Or.inl rfl⟩
    | fail error =>
        refine ⟨rfl, rfl, rfl, Or.inr ?_⟩
        simp only [Consumer.handle, ne_eq, List.append_eq_nil_iff, List.cons_ne_nil, and_false,
          not_false_eq_true]
  obtain ⟨hpulled, hbuffered, hexhausted, htold⟩ := hhandle
  have hnone : keptElems [(m, true)] = ([] : List A) := by
    cases m with
    | chunk items => cases hm
    | endStream => rfl
    | fail error => rfl
  refine ⟨h.kept_snoc, ?_, ?_, ?_, ?_⟩
  · rw [hpulled, hbuffered, keptElems_snoc hnone, h.elems]
  · have hmem : (m, true) ∈ gone ++ [(m, true)] := List.mem_append_right _ List.mem_cons_self
    exact ⟨fun _ => ⟨_, hmem, hm⟩, fun _ => htold⟩
  · intro _
    rw [hbuffered, hl.buffered]
  · intro hex
    rw [hexhausted, hl.exhausted] at hex
    cases hex

theorem take (h : Books gone c) (hl : Looking c) {m : ChannelMessage A E}
    (hg : c.errors ≠ [] → ∀ items, m = .chunk items → items = []) :
    Books (gone ++ [(m, true)]) (c.handle m) := by
  cases m with
  | chunk items => exact h.takeChunk hl fun herrors => hg herrors items rfl
  | endStream => exact h.takeEnd hl rfl
  | fail error => exact h.takeEnd hl rfl

theorem deliver (h : Books gone c) (size : ℕ) :
    Books gone { c with
      pulled := c.pulled ++ c.buffered.take size, buffered := c.buffered.drop size } where
  kept := h.kept
  elems := by rw [List.append_assoc, List.take_append_drop, h.elems]
  told := h.told
  served := by
    intro htold
    show c.buffered.drop size = []
    rw [h.served htold, List.drop_nil]
  exhausted := h.exhausted

end Books

/-! ## The invariant -/

omit [DecidableEq Tid] in
theorem evicted_isChunk {t : Tid} {m old : ChannelMessage A E} (hg : s.Keeps (.step t))
    (ht : (s.calls t).offers = some m) (hold : s.evicts = some old) : isChunk old = true := by
  cases hc : s.calls t with
  | sending chunk =>
      rw [Sys.Keeps, hc] at hg
      exact hg old hold
  | terminating n =>
      rw [Sys.Keeps, hc] at hg
      exact hg old hold
  | idle => simp [hc, Call.offers] at ht
  | pushed => simp [hc, Call.offers] at ht
  | returned => simp [hc, Call.offers] at ht
  | full => simp [hc, Call.offers] at ht

/-- A message that ends the stream waits in the queue. -/
def Sys.EndQueued (s : Sys Tid A E) : Prop := ∃ m ∈ s.queue.buffered, isChunk m = false

/-- Somebody is about to wake the consumer. -/
def Sys.WakePending (s : Sys Tid A E) : Prop := ∃ t, s.calls t = .pushed

structure Inv (capacity : ℕ) (policy : BackpressurePolicy) (s : Sys Tid A E) : Prop
    extends Shape capacity policy s where
  accepted : s.accepted = s.entries.map Prod.fst
  books : Books s.gone s.consumer
  waits : s.consumer.waiting ≠ .away → policy = .dropOldest ∧ s.consumer.closed = false
  covered : Covered s.notifyCount s.EndQueued s.WakePending s.consumer.waiting

namespace Inv

omit [DecidableEq Tid] in
theorem init (capacity : ℕ) (policy : BackpressurePolicy) :
    Inv capacity policy (Sys.init capacity policy : Sys Tid A E) := by
  have hbuf : (Sys.init capacity policy : Sys Tid A E).queue.buffered = [] := by
    rw [Sys.init, queueOf_eq_queueWith, queueWith_buffered]
  refine ⟨⟨rfl, ?_, ?_⟩, ?_, ⟨nofun, rfl, ?_, fun _ => rfl, nofun⟩, fun h => absurd rfl h, trivial⟩
  · rw [hbuf]
    exact queueOf_eq_queueWith capacity policy
  · rw [hbuf]
    exact Nat.zero_le _
  · rw [Sys.entries, hbuf]
    rfl
  · simp [Sys.init, Consumer.told, Consumer.new]

theorem setCall (h : Inv capacity policy s) {t : Tid} {c : Call A E} (ht : s.calls t ≠ .pushed) :
    Inv capacity policy (s.setCall t c) := by
  refine { h with covered := h.covered.mono fun himp hdue => ?_ }
  obtain ⟨u, hu⟩ := himp hdue
  have hne : u ≠ t := fun heq => ht (heq ▸ hu)
  exact ⟨u, (Function.update_of_ne hne _ _).trans hu⟩

/-- A message goes to the back of the queue, and the call that offered it is going to wake the
    consumer if it has to. -/
theorem enqueue (h : Inv capacity policy s) {t : Tid} {m : ChannelMessage A E} {c : Call A E}
    (hroom : s.queue.buffered.length < max capacity 1) (hc : policy = .dropOldest → c = .pushed) :
    Inv capacity policy ({ s with
      queue := queueWith capacity policy (s.queue.buffered ++ [m])
      accepted := s.accepted ++ [m] }.setCall t c) where
  policy_eq := h.policy_eq
  queue := by simp only [Sys.setCall, queueWith_buffered]
  length_le := by
    simp only [Sys.setCall, queueWith_buffered, List.length_append, List.length_singleton]
    omega
  accepted := by
    simp only [Sys.setCall, Sys.entries, queueWith_buffered, h.accepted, List.map_append,
      List.append_assoc, List.map_cons, List.map_nil]
  books := h.books
  waits := h.waits
  covered := by
    by_cases hw : s.consumer.waiting = .away
    · exact hw ▸ trivial
    · refine h.covered.mono fun _ _ => ⟨t, ?_⟩
      rw [hc (h.waits hw).1]
      exact Function.update_self t _ _

/-- The oldest message, a chunk, makes room for a new one. -/
theorem evict (h : Inv capacity policy s) {t : Tid} {m old : ChannelMessage A E}
    {rest : List (ChannelMessage A E)} (hbuf : s.queue.buffered = old :: rest)
    (hold : isChunk old = true) :
    Inv capacity policy ({ s with
      queue := queueWith capacity policy (rest ++ [m])
      accepted := s.accepted ++ [m]
      gone := s.gone ++ [(old, false)] }.setCall t .pushed) where
  policy_eq := h.policy_eq
  queue := by simp only [Sys.setCall, queueWith_buffered]
  length_le := by
    have hlen := h.length_le
    rw [hbuf, List.length_cons] at hlen
    simp only [Sys.setCall, queueWith_buffered, List.length_append, List.length_singleton]
    exact hlen
  accepted := by
    have hacc := h.accepted
    rw [Sys.entries, hbuf] at hacc
    simp only [Sys.setCall, Sys.entries, queueWith_buffered, hacc, List.map_append, List.map_cons,
      List.map_nil, List.append_assoc, List.cons_append, List.nil_append]
  books := h.books.evict hold
  waits := h.waits
  covered := h.covered.mono fun _ _ => ⟨t, Function.update_self t _ _⟩

/-- The consumer is woken: if it has not registered yet, somebody else is going to wake it again. -/
theorem notify (h : Inv capacity policy s) {t : Tid}
    (hg : s.consumer.waiting = .unregistered → s.EndQueued → ∃ u, u ≠ t ∧ s.calls u = .pushed) :
    Inv capacity policy ({ s with notifyCount := s.notifyCount + 1 }.setCall t .returned) := by
  refine { h with covered := h.covered.fire fun hw hdue => ?_ }
  obtain ⟨u, hne, hu⟩ := hg hw hdue
  exact ⟨u, (Function.update_of_ne hne _ _).trans hu⟩

omit [DecidableEq Tid] in
theorem take (h : Inv capacity policy s) {m : ChannelMessage A E}
    {rest : List (ChannelMessage A E)} (hl : Looking s.consumer)
    (hbuf : s.queue.buffered = m :: rest)
    (hg : s.consumer.errors ≠ [] → ∀ items, m = .chunk items → items = []) :
    Inv capacity policy ({ s with
      queue := queueWith capacity policy rest
      gone := s.gone ++ [(m, true)] }.setConsumer (s.consumer.handle m)) := by
  have hwait : (s.consumer.handle m).waiting = .away := by
    cases m <;> exact hl.waiting
  refine ⟨⟨h.policy_eq, ?_, ?_⟩, ?_, h.books.take hl hg, fun hw => absurd hwait hw, ?_⟩
  · simp only [Sys.setConsumer, queueWith_buffered]
  · have hlen := h.length_le
    rw [hbuf, List.length_cons] at hlen
    simp only [Sys.setConsumer, queueWith_buffered]
    omega
  · have hacc := h.accepted
    rw [Sys.entries, hbuf] at hacc
    simp only [Sys.setConsumer, Sys.entries, queueWith_buffered, hacc, List.map_append,
      List.map_cons, List.append_assoc, List.cons_append, List.nil_append]
  · show Covered _ _ _ (s.consumer.handle m).waiting
    rw [hwait]
    trivial

theorem step (h : Inv capacity policy s) (hg : s.Keeps l) (hstep : Step capacity policy s l s') :
    Inv capacity policy s' := by
  cases hstep with
  | quiet ht hl => exact h.setCall ht
  | enqueue ht hroom hc => exact h.enqueue hroom hc
  | @evict t m old rest ht hbuf hold =>
      exact h.evict hbuf (evicted_isChunk hg ht hold)
  | @notify t ht =>
      rw [Sys.Keeps, ht] at hg
      exact h.notify hg
  | @take size m rest hl hbuf =>
      refine h.take hl hbuf fun herrors items hm => ?_
      exact hg hl.closed herrors items (by rw [hbuf, hm]; rfl)
  | findEmpty hbuf hl hp =>
      refine { h with waits := fun _ => ⟨hp, hl.closed⟩, covered := ?_, books := { h.books with } }
      rintro ⟨m, hm, -⟩
      have hnil : m ∈ ([] : List (ChannelMessage A E)) := hbuf ▸ hm
      cases hnil
  | park hw =>
      have hwaits := h.waits (by rw [hw]; nofun)
      have hcovered := h.covered
      rw [hw] at hcovered
      exact { h with
        waits := fun _ => hwaits, covered := hcovered.register, books := { h.books with } }
  | wake hw =>
      exact { h with
        waits := fun hne => absurd rfl hne, covered := trivial, books := { h.books with } }
  | exhaust hw hbuf hc => exact { h with books := { h.books with exhausted := fun _ => hc } }
  | deliver hsize hw hbuf => exact { h with books := h.books.deliver _ }
  | rest hex => exact h

omit [DecidableEq Tid] in
/-- A message that ends the stream and has not been taken yet is in the queue. -/
theorem endQueued (h : Inv capacity policy s) (hend : s.Terminated)
    (herrors : s.consumer.errors = []) (hclosed : s.consumer.closed = false) : s.EndQueued := by
  obtain ⟨m, hm, hm'⟩ := hend
  rw [h.accepted, Sys.entries, List.map_append, List.mem_append, List.map_map] at hm
  rcases hm with hm | hm
  · obtain ⟨e, he, rfl⟩ := List.mem_map.1 hm
    rcases h.books.told.2 ⟨e, he, hm'⟩ with hc | hne
    · exact absurd (hclosed.symm.trans hc) (by simp)
    · exact absurd herrors hne
  · obtain ⟨n, hn, rfl⟩ := List.mem_map.1 hm
    exact ⟨n, hn, hm'⟩

end Inv

/-! ## How far the consumer has to go -/

/-- The steps it takes to get the messages of a queue up to the one that ends the stream. -/
def distance : List (ChannelMessage A E) → ℕ
  | .chunk items :: rest => items.length + 1 + distance rest
  | _ => 2

/-- The steps of a receiver until it looks into the queue again. -/
def stage : Waiter → ℕ
  | .away => 0
  | .registered _ => 1
  | .unregistered => 2

/-- A bound on the steps the consumer makes until it is told the end, given that a message that ends
    the stream is in the queue or has been taken. -/
def Sys.toGo (s : Sys Tid A E) : ℕ :=
  if s.consumer.closed then 1
  else stage s.consumer.waiting + s.consumer.buffered.length + distance s.queue.buffered

/-- What comes after a message that ends the stream does not matter. -/
theorem distance_snoc {buf : List (ChannelMessage A E)} {m : ChannelMessage A E}
    (h : ∃ m ∈ buf, isChunk m = false) : distance (buf ++ [m]) = distance buf := by
  induction buf with
  | nil =>
      obtain ⟨n, hn, -⟩ := h
      cases hn
  | cons n buf ih =>
      cases n with
      | chunk items =>
          have hrest : ∃ m ∈ buf, isChunk m = false := by
            obtain ⟨n, hn, hend⟩ := h
            rcases List.mem_cons.1 hn with rfl | hn
            · cases hend
            · exact ⟨n, hn, hend⟩
          simp only [List.cons_append, distance, ih hrest]
      | endStream => rfl
      | fail error => rfl

theorem distance_tail {old : ChannelMessage A E} (buf : List (ChannelMessage A E))
    (hold : isChunk old = true) : distance buf ≤ distance (old :: buf) := by
  cases old with
  | chunk items =>
      rw [distance]
      omega
  | endStream => cases hold
  | fail error => cases hold

/-- A chunk makes room at the front, and a message joins at the back. -/
theorem distance_evict {old m : ChannelMessage A E} {rest : List (ChannelMessage A E)}
    (hold : isChunk old = true) (hend : ∃ n ∈ old :: rest, isChunk n = false) :
    distance (rest ++ [m]) ≤ distance (old :: rest) := by
  have hrest : ∃ n ∈ rest, isChunk n = false := by
    obtain ⟨n, hn, hn'⟩ := hend
    rcases List.mem_cons.1 hn with rfl | hn
    · exact absurd (hold.symm.trans hn') (by simp)
    · exact ⟨n, hn, hn'⟩
  rw [distance_snoc hrest]
  exact distance_tail rest hold

theorem Consumer.seen_eq_false {c : Consumer A E} (h : c.seen = false) :
    c.exhausted = false ∧ c.errors = [] := by
  simpa only [seen, Bool.or_eq_false_iff, Bool.not_eq_false', List.isEmpty_iff] using h

theorem Consumer.seen_of_errors {c : Consumer A E} (h : c.errors ≠ []) : c.seen = true := by
  cases herrors : c.errors with
  | nil => exact absurd herrors h
  | cons e errors => simp [seen, herrors]

theorem Consumer.seen_handle {c : Consumer A E} (m : ChannelMessage A E) (h : c.seen = true) :
    (c.handle m).seen = true := by
  cases m with
  | chunk items => exact h
  | endStream => exact h
  | fail error => exact seen_of_errors (by simp [handle])

/-- What the consumer has been told stays told. -/
theorem seen_step (h : s.consumer.seen = true) (hstep : Step capacity policy s l s') :
    s'.consumer.seen = true := by
  cases hstep
  case take size m rest hl hbuf => exact Consumer.seen_handle m h
  case exhaust => rfl
  all_goals exact h

theorem terminated_step (h : s.Terminated) (hstep : Step capacity policy s l s') :
    s'.Terminated := by
  obtain ⟨m, hm, hend⟩ := h
  cases hstep
  case enqueue => exact ⟨m, List.mem_append_left _ hm, hend⟩
  case evict => exact ⟨m, List.mem_append_left _ hm, hend⟩
  all_goals exact ⟨m, hm, hend⟩

omit [DecidableEq Tid] in
theorem toGo_open (h : s.consumer.closed = false) : s.toGo =
    stage s.consumer.waiting + s.consumer.buffered.length + distance s.queue.buffered := by
  rw [Sys.toGo, h]
  rfl

/-- Every step of the consumer brings it closer to the end, and no other step takes it away. -/
theorem toGo_step (h : Inv capacity policy s) (hend : s.Terminated) (hg : s.Keeps l)
    (hnot : s.consumer.seen = false) (hstep : Step capacity policy s l s') :
    s'.consumer.seen = true ∨ s'.toGo + (if l.isPull then 1 else 0) ≤ s.toGo := by
  obtain ⟨hex, herrors⟩ := Consumer.seen_eq_false hnot
  have hqueued := h.endQueued hend herrors
  cases hstep with
  | quiet ht hl =>
      rw [hl]
      exact Or.inr (Nat.le_refl _)
  | @enqueue t m c ht hroom hc =>
      refine Or.inr ?_
      cases hclosed : s.consumer.closed with
      | true => simp [Sys.toGo, Sys.setCall, hclosed, Label.isPull]
      | false =>
          have hdist := distance_snoc (m := m) (hqueued hclosed)
          simp [Sys.toGo, Sys.setCall, hclosed, Label.isPull, hdist]
  | @evict t m old rest ht hbuf hold =>
      refine Or.inr ?_
      cases hclosed : s.consumer.closed with
      | true => simp [Sys.toGo, Sys.setCall, hclosed, Label.isPull]
      | false =>
          have hend : ∃ n ∈ old :: rest, isChunk n = false := hbuf ▸ hqueued hclosed
          have hle := distance_evict (m := m) (evicted_isChunk hg ht hold) hend
          simp only [Sys.toGo, Sys.setCall, hclosed, Label.isPull, queueWith_buffered, hbuf,
            Bool.false_eq_true, if_false]
          omega
  | notify ht => exact Or.inr (Nat.le_refl _)
  | @take size m rest hl hbuf =>
      have htoGo : s.toGo = distance (m :: rest) := by
        rw [toGo_open hl.closed, hl.waiting, hl.buffered, hbuf, stage, List.length_nil]
        omega
      rw [htoGo]
      cases m with
      | chunk items =>
          refine Or.inr ?_
          simp only [Sys.toGo, Sys.setConsumer, Consumer.handle, hl.closed, hl.waiting, hl.buffered,
            stage, distance, queueWith_buffered, Label.isPull, List.nil_append, Bool.false_eq_true,
            if_false, if_true]
          omega
      | endStream => exact Or.inr (Nat.le_refl _)
      | fail error =>
          refine Or.inl (Consumer.seen_of_errors ?_)
          simp [Sys.setConsumer, Consumer.handle]
  | findEmpty hbuf hl hp =>
      obtain ⟨m, hm, -⟩ := hqueued hl.closed
      rw [hbuf] at hm
      cases hm
  | park hw =>
      have hclosed := (h.waits (by rw [hw]; nofun)).2
      refine Or.inr ?_
      simp only [Sys.toGo, Sys.setConsumer, hclosed, hw, stage, Label.isPull, Bool.false_eq_true,
        if_false, if_true]
      omega
  | wake hw =>
      have hclosed := (h.waits (by rw [hw]; nofun)).2
      refine Or.inr ?_
      simp only [Sys.toGo, Sys.setConsumer, hclosed, hw, stage, Label.isPull, Bool.false_eq_true,
        if_false, if_true]
      omega
  | exhaust hw hbuf hc => exact Or.inl rfl
  | @deliver size hsize hw hbuf =>
      have hclosed : s.consumer.closed = false := by
        by_contra hne
        exact hbuf (h.books.served (Or.inl (eq_true_of_ne_false hne)))
      have hpos : 0 < s.consumer.buffered.length := List.length_pos_iff.2 hbuf
      refine Or.inr ?_
      simp only [Sys.toGo, Sys.setConsumer, hclosed, hw, stage, Label.isPull, List.length_drop,
        Bool.false_eq_true, if_false, if_true]
      omega
  | rest hrest =>
      rw [hex] at hrest
      cases hrest

/-- The consumer sees the end at the latest after `toGo` steps of its own. -/
theorem seen_of_toGo (h : Inv capacity policy s) (hend : s.Terminated) {ls : List (Label Tid A E)}
    (hg : Along Sys.step Sys.Keeps s ls) (hrun : run Sys.step s ls = some s')
    (hpulls : s.toGo < ls.countP Label.isPull) : s'.consumer.seen = true := by
  have hvariant := run_variant (I := fun s : Sys Tid A E => Inv capacity policy s ∧ s.Terminated)
    (P := fun s => s.consumer.seen = true) (μ := Sys.toGo) (c := Label.isPull)
    (fun a k b ha hk hb => ⟨ha.1.step hk (.of_step ha.1.toShape hb),
      terminated_step ha.2 (.of_step ha.1.toShape hb)⟩)
    (fun a k b ha hP hb => seen_step hP (.of_step ha.1.toShape hb))
    (fun a k b ha hk hP hb => toGo_step ha.1 ha.2 hk (eq_false_of_ne_true hP)
      (.of_step ha.1.toShape hb)) ⟨h, hend⟩ hg hrun
  rcases hvariant with hseen | hle
  · exact hseen
  · omega

/-! ## The promise -/

/-- A `send_chunk` acts as the decision says. -/
theorem Inv.acts (h : Inv capacity policy s) {t : Tid} {chunk : List A}
    (hc : s.calls t = .sending chunk) (hg : s.Keeps (.step t)) :
    ∃ s', s.step (.step t) = some s' ∧
      Acts chunk s.queue.buffered s'.queue.buffered (s'.calls t)
        (backpressureDecision policy s.queue.buffered.length capacity) := by
  have hstep : s.step (.step t) =
      some (s.offer t (.chunk chunk) (Sys.refusedChunk s.policy chunk)) := by
    simp only [Sys.step, Sys.stepCall, hc]
  refine ⟨_, hstep, ?_⟩
  by_cases hroom : s.queue.buffered.length < max capacity 1
  · rw [offer_room h.toShape hroom, decision_room hroom]
    refine ⟨queueWith_buffered, ?_⟩
    simp only [Sys.setCall, Function.update_self, Sys.afterPush]
    cases s.queue with
    | fromFlume f => exact Or.inl rfl
    | fromSliding q => exact Or.inr rfl
  · rw [decision_full hroom]
    cases policy with
    | dropOldest =>
        obtain ⟨old, rest, hbuf, hold, hoffer⟩ := offer_evicts h.toShape t (.chunk chunk)
          (Sys.refusedChunk s.policy chunk) hroom
        have hchunk := evicted_isChunk hg (m := .chunk chunk) (by rw [hc]; rfl) hold
        rw [hoffer]
        cases old with
        | chunk items =>
            exact ⟨items, rest, hbuf, rfl, Function.update_self t _ _⟩
        | endStream => cases hchunk
        | fail error => cases hchunk
    | boundedBlock =>
        rw [offer_refused h.toShape hroom nofun, h.policy_eq]
        exact ⟨rfl, Function.update_self t _ _⟩
    | dropNewest =>
        rw [offer_refused h.toShape hroom nofun, h.policy_eq]
        exact ⟨rfl, Function.update_self t _ _⟩
    | fail =>
        rw [offer_refused h.toShape hroom nofun, h.policy_eq]
        exact ⟨rfl, Function.update_self t _ _⟩

/-- A consumer that has not seen the end can go on, or is about to be woken. -/
theorem Inv.awake (h : Inv capacity policy s) (hend : s.Terminated)
    (hnot : s.consumer.seen = false) :
    (∀ size, 0 < size → ∃ s', s.step (.pull size) = some s') ∨ ∃ t, s.calls t = .pushed := by
  obtain ⟨hex, herrors⟩ := Consumer.seen_eq_false hnot
  have hpull : ∀ size, 0 < size → s.step (.pull size) = s.stepPull size :=
    fun size hsize => if_neg (Nat.ne_of_gt hsize)
  have hqueued := h.endQueued hend herrors
  cases hw : s.consumer.waiting with
  | unregistered =>
      refine Or.inl fun size hsize => ?_
      simp only [hpull size hsize, Sys.stepPull, hw]
      exact ⟨_, rfl⟩
  | registered seen =>
      by_cases hasleep : s.notifyCount = seen
      · -- it sleeps, so that the message it waits for is still to be announced
        have hcovered := h.covered
        rw [hw, ← hasleep] at hcovered
        exact Or.inr (hcovered.pending_of_asleep (hqueued (h.waits (by rw [hw]; nofun)).2))
      · refine Or.inl fun size hsize => ?_
        simp only [hpull size hsize, Sys.stepPull, hw, if_neg hasleep]
        exact ⟨_, rfl⟩
  | away =>
      refine Or.inl fun size hsize => ?_
      simp only [hpull size hsize, Sys.stepPull, hw, hex, Bool.false_eq_true, if_false]
      cases hbuf : s.consumer.buffered with
      | cons a buf => exact ⟨_, rfl⟩
      | nil =>
          cases hclosed : s.consumer.closed with
          | true => exact ⟨_, rfl⟩
          | false =>
              obtain ⟨m, hm, -⟩ := hqueued hclosed
              obtain ⟨n, rest, hq⟩ := List.exists_cons_of_ne_nil (List.ne_nil_of_mem hm)
              have hrecv : s.queue.recv = some (.ok n, queueWith capacity policy rest) := by
                rw [h.queue, hq]
                exact queueWith_recv_cons
              simp only [Sys.look, hrecv]
              exact ⟨_, rfl⟩

theorem Inv.delivers (h : Inv capacity policy s) : s.Delivers capacity policy where
  acts := fun _ _ hc hg => h.acts hc hg
  accepted := h.accepted
  elements := by
    have hpulled : s.consumer.pulled <+: keptElems s.gone := by
      rw [← h.books.elems]
      exact List.prefix_append _ _
    exact hpulled.trans keptElems_prefix
  complete := by
    intro hseen
    have htold : s.consumer.told := by
      rw [Consumer.seen, Bool.or_eq_true] at hseen
      rcases hseen with hex | herrors
      · exact Or.inl (h.books.exhausted hex)
      · refine Or.inr fun hnil => ?_
        rw [hnil] at herrors
        cases herrors
    have helems := h.books.elems
    rw [h.books.served htold, List.append_nil] at helems
    rw [Sys.entries, keptElems_append_of_end (h.books.told.1 htold), helems]
  kept := h.books.kept
  awake := h.awake
  sees := fun hend => ⟨s.toGo + 1, fun _ _ hg hrun hpulls => seen_of_toGo h hend hg hrun hpulls⟩

/-- **Channel-backed streams.** Whatever the policy, the capacity and the interleaving of any number
    of producers with the consumer: in every run whose steps all meet `Keeps`, each `send_chunk`
    acts as the decision says, the consumer gets the elements of the chunks kept before the end of
    the stream, in order, nothing that ends the stream is evicted, and a consumer that keeps pulling
    sees it. -/
theorem channel_delivers {Tid A E : Type} [DecidableEq Tid] (capacity : ℕ)
    (policy : BackpressurePolicy) (ls : List (Label Tid A E)) (s : Sys Tid A E)
    (hg : Along Sys.step Sys.Keeps (Sys.init capacity policy) ls)
    (h : run Sys.step (Sys.init capacity policy) ls = some s) : s.Delivers capacity policy := by
  have hinv : Inv capacity policy s :=
    run_invariant_along (fun _ _ _ ha hk hb => ha.step hk (.of_step ha.toShape hb))
      (Inv.init capacity policy) hg h
  exact hinv.delivers

/-- A chunk is evicted, the consumer is asleep when the end comes, and sees it. -/
theorem channel_delivers_sliding : ∃ s : Sys ℕ ℕ ℕ,
    run Sys.step (Sys.init 0 .dropOldest) [.sendChunk 0 [1], .step 0, .step 0, .sendChunk 1 [2],
      .step 1, .step 1, .pull 64, .pull 64, .pull 64, .endStream 2, .step 2, .pull 64, .step 2,
      .pull 64, .pull 64, .pull 64] = some s ∧
    s.consumer.pulled = [2] ∧ s.consumer.seen = true ∧ s.Delivers 0 .dropOldest := by
  refine ⟨_, rfl, rfl, rfl, channel_delivers 0 .dropOldest [.sendChunk 0 [1], .step 0, .step 0,
    .sendChunk 1 [2], .step 1, .step 1, .pull 64, .pull 64, .pull 64, .endStream 2, .step 2,
    .pull 64, .step 2, .pull 64, .pull 64, .pull 64] _ ?_ rfl⟩
  -- the guards in order: a full queue holds a chunk, nobody looks when a signal is given
  refine along_cons rfl trivial (along_cons rfl nofun (along_cons rfl nofun
    (along_cons rfl trivial (along_cons rfl ?_ (along_cons rfl nofun ?_)))))
  · rintro m ⟨⟩
    rfl
  · have hpull : ∀ {c d : Prop}, c → ([] : List ℕ) ≠ [] → d := fun _ h => absurd rfl h
    exact along_cons rfl hpull (along_cons rfl hpull (along_cons rfl hpull
      (along_cons rfl trivial (along_cons rfl nofun (along_cons rfl hpull (along_cons rfl nofun
        (along_cons rfl hpull (along_cons rfl hpull (along_cons rfl hpull trivial)))))))))

end IdEffect.Channels
