import IdEffect.Coordination.PubSubRuns

set_option autoImplicit false

/-! # `Stream::broadcast`

The pump publishes the elements of the upstream to a sliding hub, one after the other, shuts the hub
down and closes the hub's scope. Each branch has a subscription, made before the pump starts: a
forwarder that receives from the hub's channel and offers to the branch's queue, and a child scope
of the hub's scope whose finalizer aborts the forwarder and shuts the queue down. The branch's
stream takes from the queue and ends when it is disconnected.

The close of a child scope is begun by the pump, by the branch itself when it has come to its end,
or because the branch is dropped; whoever wins the swap of the scope's flag runs the finalizer, and
its progress is kept with the branch (`Stage`). An abort stops a forwarder where it waits for the
channel; one that has an element in hand still offers it.

The abort does not wait for what is in the ring. A branch gets everything if its forwarder has
received every published element when it is aborted, and has none in hand when its queue is shut
down (`Drained`); otherwise the branch loses its last elements. -/

namespace IdEffect.Fanout

open Transition Broadcast PubSubRuns

variable {A : Type}

/-! ## The system -/

/-- How far the close of a branch's scope has come. -/
inductive Stage where
  | untouched
  | swapped
  | aborted
  | closed
deriving DecidableEq

/-- A branch: its subscription, the abort of its forwarder, the close of its scope, what it has
    collected and whether it has come to its end or was dropped before. -/
structure Branch (A : Type) where
  sub : Subscriber A
  aborted : Bool
  stage : Stage
  dropped : Bool
  collected : List A
  ended : Bool
deriving DecidableEq

namespace Branch

def new : Branch A := ⟨.new, false, .untouched, false, [], false⟩

def setSub (b : Branch A) (x : Subscriber A) : Branch A := { b with sub := x }

/-- The close of the scope begins, unless it has begun before. -/
def beginClose (b : Branch A) : Branch A :=
  match b.stage with
  | .untouched => { b with stage := .swapped }
  | _ => b

theorem beginClose_dropped (b : Branch A) : b.beginClose.dropped = b.dropped := by
  unfold beginClose
  split <;> rfl

theorem beginClose_ended (b : Branch A) : b.beginClose.ended = b.ended := by
  unfold beginClose
  split <;> rfl

/-- `Ok(a)` of the branch's `take`. -/
def collect (b : Branch A) (a : A) (q : Queue A) : Branch A :=
  { b with sub := { b.sub with queue := q }, collected := b.collected ++ [a] }

/-- `Err(Disconnected)` of the branch's `take`: the stream is exhausted and closes its scope. -/
def finish (b : Branch A) : Branch A := { b with ended := true }.beginClose

/-- `h.abort()`: a forwarder that waits for the channel is gone. -/
def abort (b : Branch A) : Branch A :=
  { b with
    aborted := true
    stage := .aborted
    sub := match b.sub.inHand with
      | none => { b.sub with running := false }
      | some _ => b.sub }

/-- `q.shutdown()` of the finalizer. -/
def shut (b : Branch A) : Branch A :=
  { b with stage := .closed, sub := { b.sub with queue := b.sub.queue.shutdown } }

end Branch

/-- The pump: what it still has to publish, the hub shut down, the branches whose scopes it still
    has to close, the one it is closing. -/
inductive Pump (A : Type) where
  | publishing (rest : List A)
  | shutdown
  | closing (rest : List ℕ)
  | waiting (r : ℕ) (rest : List ℕ)
  | done
deriving DecidableEq

/-- Branch number `r` reads at cursor number `r` of the channel. -/
structure Sys (A : Type) where
  hub : PubSubInner A
  pump : Pump A
  branches : ℕ → Branch A

inductive Label where
  | pump
  | recv (r : ℕ)
  | offer (r : ℕ)
  | pull (r : ℕ)
  | drop (r : ℕ)
  | closer (r : ℕ)
deriving DecidableEq

namespace Sys

/-- The state `broadcast` returns: a sliding hub whose channel has `ring` slots, and `branches`
    subscriptions. -/
def init (ring n branches : ℕ) (items : List A) : Sys A where
  hub := { (PubSubInner.new ring (max n 1) .sliding : PubSubInner A) with
    chan := ⟨ring, [], List.replicate branches ⟨0, 0, none⟩⟩ }
  pump := .publishing items
  branches := fun _ => .new

def setBranch (s : Sys A) (r : ℕ) (b : Branch A) : Sys A :=
  { s with branches := Function.update s.branches r b }

def setChan (s : Sys A) (ch : Channel A) : Sys A := { s with hub := { s.hub with chan := ch } }

def setPump (s : Sys A) (p : Pump A) : Sys A := { s with pump := p }

/-- The pump's `publish`, whose result is ignored. -/
def publish (s : Sys A) (v : A) : Sys A :=
  match s.hub.chan.send v with
  | some ch => s.setChan ch
  | none => s

def stepPump (s : Sys A) : Option (Sys A) :=
  match s.pump with
  | .publishing (v :: rest) => some ((s.publish v).setPump (.publishing rest))
  | .publishing [] => some ({ s with hub := s.hub.takeSender.announce }.setPump .shutdown)
  | .shutdown => some (s.setPump (.closing (List.range s.hub.chan.cursors.length)))
  | .closing [] => some (s.setPump .done)
  | .closing (r :: rest) =>
      match (s.branches r).stage with
      | .untouched =>
          some ((s.setBranch r (s.branches r).beginClose).setPump (.waiting r rest))
      | _ => some (s.setPump (.closing rest))
  | .waiting r rest =>
      match (s.branches r).stage with
      | .closed => some (s.setPump (.closing rest))
      | _ => none
  | .done => none

/-- The forwarder of branch `r` receives. -/
def stepRecv (s : Sys A) (r : ℕ) (c : Cursor) : Option (Sys A) :=
  match (s.branches r).sub.inHand, (s.branches r).sub.running, (s.branches r).aborted with
  | none, true, false =>
      match s.hub.chan.recv r c with
      | (.value v, ch) => some ((s.setChan ch).setBranch r
          ((s.branches r).setSub ((s.branches r).sub.receive v false)))
      | (.lagged _, ch) =>
          some ((s.setChan ch).setBranch r ((s.branches r).setSub (s.branches r).sub.lag))
      | (.empty, _) =>
          if s.hub.tx then none
          else some (s.setBranch r ((s.branches r).setSub (s.branches r).sub.finish))
  | _, _, _ => none

/-- The forwarder of branch `r` offers; if it has been aborted, it is gone afterwards. -/
def stepOffer (s : Sys A) (r : ℕ) (c : Cursor) : Option (Sys A) :=
  match (s.branches r).sub.inHand with
  | none => none
  | some v =>
      if (s.branches r).aborted then
        some ((s.setChan (s.hub.chan.drop r c)).setBranch r
          ((s.branches r).setSub { (s.branches r).sub.put v with running := false }))
      else some (s.setBranch r ((s.branches r).setSub ((s.branches r).sub.put v)))

/-- The branch's stream takes from its queue. -/
def stepPull (s : Sys A) (r : ℕ) : Option (Sys A) :=
  if (s.branches r).ended || (s.branches r).dropped then none
  else
    match (s.branches r).sub.queue.recv with
    | some (.ok a, q) => some (s.setBranch r ((s.branches r).collect a q))
    | some (.error _, _) => some (s.setBranch r (s.branches r).finish)
    | none => none

/-- The finalizer of the scope of branch `r`. -/
def stepCloser (s : Sys A) (r : ℕ) (c : Cursor) : Option (Sys A) :=
  match (s.branches r).stage with
  | .swapped =>
      match (s.branches r).sub.inHand, (s.branches r).sub.running with
      | none, true => some ((s.setChan (s.hub.chan.drop r c)).setBranch r (s.branches r).abort)
      | _, _ => some (s.setBranch r (s.branches r).abort)
  | .aborted => some (s.setBranch r (s.branches r).shut)
  | _ => none

def step (s : Sys A) : Label → Option (Sys A)
  | .pump => s.stepPump
  | .recv r => (s.hub.chan.cursors[r]?).bind (s.stepRecv r)
  | .offer r => (s.hub.chan.cursors[r]?).bind (s.stepOffer r)
  | .pull r => if r < s.hub.chan.cursors.length then s.stepPull r else none
  | .drop r =>
      if (s.branches r).ended then none
      else some (s.setBranch r { (s.branches r).beginClose with dropped := true })
  | .closer r => (s.hub.chan.cursors[r]?).bind (s.stepCloser r)

/-! ## The promise -/

/-- Every branch that was pulled to its end has collected the upstream. -/
def Complete (items : List A) (s : Sys A) : Prop :=
  ∀ r, (s.branches r).ended = true → (s.branches r).collected = items

/-- The finalizer of a branch's scope finds its forwarder with nothing left to deliver: everything
    published has been received when it is aborted, and nothing is in hand when the queue is shut
    down. -/
def Drained (s : Sys A) : Label → Prop
  | .closer r => (s.branches r).dropped = false →
      ((s.branches r).stage = .swapped →
        ∀ c ∈ s.hub.chan.cursors[r]?, c.pos = s.hub.chan.sent.length) ∧
      ((s.branches r).stage = .aborted → (s.branches r).sub.inHand = none)
  | _ => True

end Sys

instance (s : Sys A) : (l : Label) → Decidable (Sys.Drained s l)
  | .pump | .recv _ | .offer _ | .pull _ | .drop _ => .isTrue trivial
  | .closer _ => inferInstanceAs (Decidable (_ → _))

/-- The pump publishes an element and closes the hub's scope before the forwarder has run. -/
theorem broadcast_loses_elements :
    ¬ ∀ (ring n branches : ℕ) (items : List ℕ) (ls : List Label) (s : Sys ℕ), max n 1 ≤ ring →
      items.length ≤ n → run Sys.step (Sys.init ring n branches items) ls = some s →
        s.Complete items := by
  intro hall
  have hrun : ∃ s, run Sys.step (Sys.init 1 1 1 [7])
      [.pump, .pump, .pump, .pump, .closer 0, .closer 0, .pull 0] = some s ∧
        ((s.branches 0).ended, (s.branches 0).collected) = (true, []) :=
    exists_run _ (by decide)
  obtain ⟨s, hs, hlast⟩ := hrun
  rw [Prod.mk.injEq] at hlast
  have hcomplete := hall 1 1 1 [7] _ s (by decide) (by decide) hs 0 hlast.1
  rw [hlast.2] at hcomplete
  cases hcomplete

/-! ## One step -/

variable {s s' : Sys A} {l : Label} {items : List A}

/-- What the pump still has to publish. -/
def Pump.left : Pump A → List A
  | .publishing rest => rest
  | _ => []

/-- The pump has published everything. -/
def Pump.over : Pump A → Bool
  | .publishing _ => false
  | _ => true

theorem Pump.left_eq_nil {p : Pump A} (h : p.over = true) : p.left = [] := by
  cases p with
  | publishing rest => cases h
  | shutdown => rfl
  | closing rest => rfl
  | waiting r rest => rfl
  | done => rfl

/-- What a step of the system can do. -/
inductive Step (s : Sys A) : Label → Sys A → Prop
  | publish {v : A} {rest : List A} (hp : s.pump = .publishing (v :: rest)) :
      Step s .pump ((s.publish v).setPump (.publishing rest))
  | shutdown (hp : s.pump = .publishing []) :
      Step s .pump ({ s with hub := s.hub.takeSender.announce }.setPump .shutdown)
  | advance {p : Pump A} (hover : s.pump.over = true) (hp : p.over = true) :
      Step s .pump (s.setPump p)
  | beginClose {r : ℕ} {p : Pump A} (hover : s.pump.over = true) (hp : p.over = true) :
      Step s .pump ((s.setBranch r (s.branches r).beginClose).setPump p)
  | recv {r : ℕ} {c : Cursor} {v : A} (hc : s.hub.chan.cursors[r]? = some c)
      (hhand : (s.branches r).sub.inHand = none) (hrun : (s.branches r).sub.running = true)
      (hv : s.hub.chan.sent[c.pos]? = some v) :
      Step s (.recv r) ((s.setChan (s.hub.chan.setCursor r { c with pos := c.pos + 1 })).setBranch r
        ((s.branches r).setSub ((s.branches r).sub.receive v false)))
  | lag {r : ℕ} {c : Cursor} (hc : s.hub.chan.cursors[r]? = some c)
      (hlag : c.pos + s.hub.chan.ring < s.hub.chan.sent.length) :
      Step s (.recv r) ((s.setChan (s.hub.chan.setCursor r
        { c with pos := s.hub.chan.sent.length - s.hub.chan.ring })).setBranch r
        ((s.branches r).setSub (s.branches r).sub.lag))
  | closed {r : ℕ} {c : Cursor} (hc : s.hub.chan.cursors[r]? = some c)
      (hhand : (s.branches r).sub.inHand = none) (hpos : s.hub.chan.sent.length ≤ c.pos)
      (htx : s.hub.tx = false) :
      Step s (.recv r) (s.setBranch r ((s.branches r).setSub (s.branches r).sub.finish))
  | offer {r : ℕ} {c : Cursor} {v : A} (hc : s.hub.chan.cursors[r]? = some c)
      (hv : (s.branches r).sub.inHand = some v) :
      Step s (.offer r) (s.setBranch r ((s.branches r).setSub ((s.branches r).sub.put v)))
  | offerLast {r : ℕ} {c : Cursor} {v : A} (hc : s.hub.chan.cursors[r]? = some c)
      (hv : (s.branches r).sub.inHand = some v) (hab : (s.branches r).aborted = true) :
      Step s (.offer r) ((s.setChan (s.hub.chan.drop r c)).setBranch r
        ((s.branches r).setSub { (s.branches r).sub.put v with running := false }))
  | collect {r : ℕ} {a : A} {q : Queue A} (hr : r < s.hub.chan.cursors.length)
      (hend : (s.branches r).ended = false)
      (hq : (s.branches r).sub.queue.recv = some (.ok a, q)) :
      Step s (.pull r) (s.setBranch r ((s.branches r).collect a q))
  | finish {r : ℕ} {e : QueueError} {q : Queue A} (hr : r < s.hub.chan.cursors.length)
      (hdrop : (s.branches r).dropped = false)
      (hq : (s.branches r).sub.queue.recv = some (.error e, q)) :
      Step s (.pull r) (s.setBranch r (s.branches r).finish)
  | drop {r : ℕ} (hend : (s.branches r).ended = false) :
      Step s (.drop r) (s.setBranch r { (s.branches r).beginClose with dropped := true })
  | abort {r : ℕ} {c : Cursor} (hc : s.hub.chan.cursors[r]? = some c)
      (hst : (s.branches r).stage = .swapped) :
      Step s (.closer r) (s.setBranch r (s.branches r).abort)
  | abortDrop {r : ℕ} {c : Cursor} (hc : s.hub.chan.cursors[r]? = some c)
      (hst : (s.branches r).stage = .swapped) :
      Step s (.closer r) ((s.setChan (s.hub.chan.drop r c)).setBranch r (s.branches r).abort)
  | shut {r : ℕ} {c : Cursor} (hc : s.hub.chan.cursors[r]? = some c)
      (hst : (s.branches r).stage = .aborted) :
      Step s (.closer r) (s.setBranch r (s.branches r).shut)

theorem Step.of_stepPump (h : s.stepPump = some s') : Step s .pump s' := by
  unfold Sys.stepPump at h
  split at h
  · next v rest hp => exact Option.some.inj h ▸ .publish hp
  · next hp => exact Option.some.inj h ▸ .shutdown hp
  · next hp => exact Option.some.inj h ▸ .advance (by rw [hp]; rfl) rfl
  · next hp => exact Option.some.inj h ▸ .advance (by rw [hp]; rfl) rfl
  · next r rest hp =>
      split at h
      · exact Option.some.inj h ▸ .beginClose (by rw [hp]; rfl) rfl
      · exact Option.some.inj h ▸ .advance (by rw [hp]; rfl) rfl
  · next r rest hp =>
      split at h
      · exact Option.some.inj h ▸ .advance (by rw [hp]; rfl) rfl
      · cases h
  · cases h

theorem Step.of_stepRecv {r : ℕ} {c : Cursor} (hc : s.hub.chan.cursors[r]? = some c)
    (h : s.stepRecv r c = some s') : Step s (.recv r) s' := by
  unfold Sys.stepRecv at h
  split at h
  · next hhand hrun hab =>
      rcases s.hub.chan.recv_cases r c with ⟨hlag, he⟩ | ⟨v, hv, he⟩ | ⟨hpos, he⟩
      · simp only [he, Option.some.injEq] at h
        exact h ▸ .lag hc hlag
      · simp only [he, Option.some.injEq] at h
        exact h ▸ .recv hc hhand hrun hv
      · simp only [he] at h
        split at h
        · cases h
        · next htx =>
            exact Option.some.inj h ▸ .closed hc hhand hpos (eq_false_of_ne_true htx)
  · cases h

theorem Step.of_stepOffer {r : ℕ} {c : Cursor} (hc : s.hub.chan.cursors[r]? = some c)
    (h : s.stepOffer r c = some s') : Step s (.offer r) s' := by
  unfold Sys.stepOffer at h
  split at h
  · cases h
  · next v hv =>
      split at h
      · next hab => exact Option.some.inj h ▸ .offerLast hc hv hab
      · exact Option.some.inj h ▸ .offer hc hv

theorem Step.of_stepPull {r : ℕ} (hr : r < s.hub.chan.cursors.length)
    (h : s.stepPull r = some s') : Step s (.pull r) s' := by
  unfold Sys.stepPull at h
  split at h
  · cases h
  · next hgo =>
      rw [Bool.or_eq_true, not_or] at hgo
      split at h
      · next a q hq => exact Option.some.inj h ▸ .collect hr (eq_false_of_ne_true hgo.1) hq
      · next e q hq => exact Option.some.inj h ▸ .finish hr (eq_false_of_ne_true hgo.2) hq
      · cases h

theorem Step.of_stepCloser {r : ℕ} {c : Cursor} (hc : s.hub.chan.cursors[r]? = some c)
    (h : s.stepCloser r c = some s') : Step s (.closer r) s' := by
  unfold Sys.stepCloser at h
  split at h
  · next hst =>
      split at h
      · exact Option.some.inj h ▸ .abortDrop hc hst
      · exact Option.some.inj h ▸ .abort hc hst
  · next hst => exact Option.some.inj h ▸ .shut hc hst
  · cases h

theorem Step.of_step (h : s.step l = some s') : Step s l s' := by
  cases l with
  | pump => exact .of_stepPump h
  | recv r =>
      obtain ⟨c, hc, h⟩ := Option.bind_eq_some_iff.1 h
      exact .of_stepRecv hc h
  | offer r =>
      obtain ⟨c, hc, h⟩ := Option.bind_eq_some_iff.1 h
      exact .of_stepOffer hc h
  | pull r =>
      simp only [Sys.step] at h
      split at h
      · next hr => exact .of_stepPull hr h
      · cases h
  | drop r =>
      simp only [Sys.step] at h
      split at h
      · cases h
      · next hend => exact Option.some.inj h ▸ .drop (eq_false_of_ne_true hend)
  | closer r =>
      obtain ⟨c, hc, h⟩ := Option.bind_eq_some_iff.1 h
      exact .of_stepCloser hc h

/-! ## What is kept of each branch -/

/-- What is said about a branch, given what has been published, what is still to publish, whether
    the pump is past publishing, and the branch's cursor. -/
abbrev Book (A : Type) := List A → List A → Bool → Cursor → Branch A → Prop

/-- The book of every branch that was not dropped; the sender is there while the pump publishes, and
    only branches that exist are pulled. -/
structure Books (P : Book A) (s : Sys A) : Prop where
  tx : s.hub.tx = false → s.pump.over = true
  books : ∀ (r : ℕ) (c : Cursor), s.hub.chan.cursors[r]? = some c →
    (s.branches r).dropped = false →
      P s.hub.chan.sent s.pump.left s.pump.over c (s.branches r)
  pulled : ∀ r, (s.branches r).ended = true →
    r < s.hub.chan.cursors.length ∧ (s.branches r).dropped = false

/-- A book that is kept by the steps of the pump, of the forwarder that receives and offers, and of
    the branch itself. -/
structure Laws (P : Book A) : Prop where
  attached {sent left c b} : P sent left false c b → c.stop = none
  begun {sent left past c b} : P sent left past c b → b.stage ≠ .untouched → past = true
  aborted {sent left past c b} : P sent left past c b → b.aborted = true → past = true
  publish {sent left c b v} : P sent (v :: left) false c b → P (sent ++ [v]) left false c b
  over_true {sent left past c b} : P sent left past c b → P sent left true c b
  beginClose {sent left c b} : P sent left true c b → P sent left true c b.beginClose
  recv {sent left past c b v} : P sent left past c b → b.sub.inHand = none →
    b.sub.running = true → sent[c.pos]? = some v →
      P sent left past { c with pos := c.pos + 1 } (b.setSub (b.sub.receive v false))
  closed {sent left c b} : P sent left true c b → b.sub.inHand = none → sent.length ≤ c.pos →
    P sent left true c (b.setSub b.sub.finish)
  offer {sent left past c b v} : P sent left past c b → b.sub.inHand = some v →
    P sent left past c (b.setSub (b.sub.put v))
  offerLast {sent left c b v} {n : Option ℕ} : P sent left true c b → b.sub.inHand = some v →
    P sent left true { c with stop := n } (b.setSub { b.sub.put v with running := false })
  detach {sent left c b} {n : Option ℕ} : P sent left true c b →
    P sent left true { c with stop := n } b
  collect {sent left past c b a q} : P sent left past c b → b.ended = false →
    b.sub.queue.recv = some (.ok a, q) → P sent left past c (b.collect a q)
  finish {sent left past c b e q} : P sent left past c b →
    b.sub.queue.recv = some (.error e, q) → P sent left past c b.finish

section Books

variable {P : Book A}

theorem setBranch_branches (r q : ℕ) (b : Branch A) :
    (s.setBranch r b).branches q = if q = r then b else s.branches q := by
  simp only [Sys.setBranch, Function.update_apply]

theorem books_init (branches ring n : ℕ) (hnew : P [] items false ⟨0, 0, none⟩ .new) :
    Books P (Sys.init ring n branches items) where
  tx := nofun
  books := by
    intro r c hc _
    have hmem : c ∈ List.replicate branches (⟨0, 0, none⟩ : Cursor) := List.mem_of_getElem? hc
    rw [List.eq_of_mem_replicate hmem]
    exact hnew
  pulled := nofun

/-- One branch changes, and of the channel at most its cursor. -/
theorem Books.update (h : Books P s) {r : ℕ} {ch : Channel A} {b : Branch A}
    (hsent : ch.sent = s.hub.chan.sent) (hlen : ch.cursors.length = s.hub.chan.cursors.length)
    (hcur : ∀ q c, ch.cursors[q]? = some c → q ≠ r → s.hub.chan.cursors[q]? = some c)
    (hend : b.ended = true → r < s.hub.chan.cursors.length ∧ b.dropped = false)
    (hok : ∀ c, ch.cursors[r]? = some c → b.dropped = false →
      P s.hub.chan.sent s.pump.left s.pump.over c b) :
    Books P ((s.setChan ch).setBranch r b) where
  tx := h.tx
  books := by
    intro q c hc hd
    rw [setBranch_branches] at hd ⊢
    show P ch.sent s.pump.left s.pump.over c _
    rw [hsent]
    split at hd
    · next hq =>
        rw [if_pos hq]
        exact hok c (hq ▸ hc) hd
    · next hq =>
        rw [if_neg hq]
        exact h.books q c (hcur q c hc hq) hd
  pulled := by
    intro q hq
    rw [setBranch_branches] at hq ⊢
    show q < ch.cursors.length ∧ _
    rw [hlen]
    split at hq
    · next hqr =>
        rw [if_pos hqr, hqr]
        exact hend hq
    · next hqr =>
        rw [if_neg hqr]
        exact h.pulled q hq

theorem Books.setBranch (h : Books P s) {r : ℕ} {b : Branch A}
    (hend : b.ended = true → r < s.hub.chan.cursors.length ∧ b.dropped = false)
    (hok : ∀ c, s.hub.chan.cursors[r]? = some c → b.dropped = false →
      P s.hub.chan.sent s.pump.left s.pump.over c b) :
    Books P (s.setBranch r b) :=
  h.update rfl rfl (fun _ _ hc _ => hc) hend hok

theorem Books.setCursor (h : Books P s) {r : ℕ} {d : Cursor} {b : Branch A}
    (hend : b.ended = true → r < s.hub.chan.cursors.length ∧ b.dropped = false)
    (hok : b.dropped = false → P s.hub.chan.sent s.pump.left s.pump.over d b) :
    Books P ((s.setChan (s.hub.chan.setCursor r d)).setBranch r b) := by
  refine h.update rfl List.length_set (fun q c hc hq => ?_) hend (fun c hc hd => ?_)
  · rcases Channel.mem_setCursor hc with ⟨rfl, -⟩ | ⟨-, hc⟩
    · exact absurd rfl hq
    · exact hc
  · rcases Channel.mem_setCursor hc with ⟨-, rfl⟩ | ⟨hne, -⟩
    · exact hok hd
    · exact absurd rfl hne

/-- The pump moves on after it has published everything. -/
theorem Books.setPump (h : Books P s) {p : Pump A} (hover : s.pump.over = true)
    (hp : p.over = true) : Books P (s.setPump p) where
  tx := fun _ => hp
  books := by
    intro r c hc hd
    have hok := h.books r c hc hd
    rw [Pump.left_eq_nil hover, hover] at hok
    show P s.hub.chan.sent p.left p.over c (s.branches r)
    rw [Pump.left_eq_nil hp, hp]
    exact hok
  pulled := h.pulled

theorem Books.publish (h : Books P s) (laws : Laws P) {v : A} {rest : List A}
    (hp : s.pump = .publishing (v :: rest)) :
    Books P ((s.publish v).setPump (.publishing rest)) := by
  have htx : s.hub.tx = false → False := fun hfalse => by
    have hover := h.tx hfalse
    rw [hp] at hover
    cases hover
  have hbooks := h.books
  rw [hp] at hbooks
  unfold Sys.publish
  split
  · next ch hsend =>
      rw [Channel.send_eq_some hsend]
      exact ⟨fun hfalse => (htx hfalse).elim, fun r c hc hd => laws.publish (hbooks r c hc hd),
        h.pulled⟩
  · next hsend =>
      refine ⟨fun hfalse => (htx hfalse).elim, fun r c hc hd => ?_, h.pulled⟩
      -- a branch that was not dropped still listens
      have hlive : s.hub.chan.cursors.any (·.stop.isNone) = true :=
        List.any_eq_true.2
          ⟨c, List.mem_of_getElem? hc, by rw [laws.attached (hbooks r c hc hd)]; rfl⟩
      rw [Channel.send, if_pos hlive] at hsend
      cases hsend

theorem Books.shutdown (h : Books P s) (laws : Laws P) (hp : s.pump = .publishing []) :
    Books P ({ s with hub := s.hub.takeSender.announce }.setPump .shutdown) where
  tx := fun _ => rfl
  books := by
    intro r c hc hd
    have hok := h.books r c hc hd
    rw [hp] at hok
    exact laws.over_true hok
  pulled := h.pulled

/-- The steps that can lose elements are left to the caller: a lag, an abort and a queue that is
    shut down. -/
theorem Books.step (h : Books P s) (laws : Laws P) (hstep : Step s l s')
    (hlag : ∀ r c, l = .recv r → s.hub.chan.cursors[r]? = some c →
      (s.branches r).dropped = false → c.pos + s.hub.chan.ring < s.hub.chan.sent.length →
      P s.hub.chan.sent s.pump.left s.pump.over c (s.branches r) →
      P s.hub.chan.sent s.pump.left s.pump.over
        { c with pos := s.hub.chan.sent.length - s.hub.chan.ring }
        ((s.branches r).setSub (s.branches r).sub.lag))
    (habort : ∀ r c, l = .closer r → s.hub.chan.cursors[r]? = some c →
      (s.branches r).dropped = false → (s.branches r).stage = .swapped →
      P s.hub.chan.sent s.pump.left true c (s.branches r) →
      P s.hub.chan.sent s.pump.left true c (s.branches r).abort)
    (hshut : ∀ r c, l = .closer r → s.hub.chan.cursors[r]? = some c →
      (s.branches r).dropped = false → (s.branches r).stage = .aborted →
      P s.hub.chan.sent s.pump.left s.pump.over c (s.branches r) →
      P s.hub.chan.sent s.pump.left s.pump.over c (s.branches r).shut) :
    Books P s' := by
  cases hstep with
  | publish hp => exact h.publish laws hp
  | shutdown hp => exact h.shutdown laws hp
  | advance hover hp => exact h.setPump hover hp
  | @beginClose r p hover hp =>
      have hbranch : Books P (s.setBranch r (s.branches r).beginClose) := by
        refine h.setBranch (fun hend => ?_) (fun c hc hd => ?_)
        · rw [Branch.beginClose_dropped]
          exact h.pulled r ((Branch.beginClose_ended _).symm.trans hend)
        · have hok := h.books r c hc ((Branch.beginClose_dropped _).symm.trans hd)
          rw [hover] at hok ⊢
          exact laws.beginClose hok
      exact hbranch.setPump hover hp
  | @recv r c v hc hhand hrun hv =>
      exact h.setCursor (h.pulled r) fun hd => laws.recv (h.books r c hc hd) hhand hrun hv
  | @lag r c hc hbehind =>
      exact h.setCursor (h.pulled r) fun hd => hlag r c rfl hc hd hbehind (h.books r c hc hd)
  | @closed r c hc hhand hpos htx =>
      refine h.setBranch (h.pulled r) (fun d hd hdrop => ?_)
      obtain rfl : c = d := Option.some.inj (hc.symm.trans hd)
      have hok := h.books r c hc hdrop
      rw [h.tx htx] at hok ⊢
      exact laws.closed hok hhand hpos
  | @offer r c v hc hv =>
      exact h.setBranch (h.pulled r) fun d hd hdrop => laws.offer (h.books r d hd hdrop) hv
  | @offerLast r c v hc hv hab =>
      refine h.setCursor (h.pulled r) fun hdrop => ?_
      have hok := h.books r c hc hdrop
      have hover : s.pump.over = true := laws.aborted hok hab
      rw [hover] at hok ⊢
      exact laws.offerLast hok hv
  | @collect r a q hr hend hq =>
      exact h.setBranch (h.pulled r) fun c hc hd => laws.collect (h.books r c hc hd) hend hq
  | @finish r e q hr hdrop hq =>
      refine h.setBranch (fun _ => ⟨hr, ?_⟩) fun c hc hd => ?_
      · exact (Branch.beginClose_dropped _).trans hdrop
      · exact laws.finish (h.books r c hc hdrop) hq
  | @drop r hend =>
      refine h.setBranch (fun he => ?_) fun c hc hd => by cases hd
      exact absurd ((Branch.beginClose_ended _).symm.trans he) (by simp [hend])
  | @abort r c hc hst =>
      refine h.setBranch (h.pulled r) fun d hd hdrop => ?_
      have hok := h.books r d hd hdrop
      have hover : s.pump.over = true := laws.begun hok (by rw [hst]; nofun)
      rw [hover] at hok ⊢
      exact habort r d rfl hd hdrop hst hok
  | @abortDrop r c hc hst =>
      refine h.setCursor (h.pulled r) fun hdrop => ?_
      have hok := h.books r c hc hdrop
      have hover : s.pump.over = true := laws.begun hok (by rw [hst]; nofun)
      rw [hover] at hok ⊢
      exact laws.detach (habort r c rfl hc hdrop hst hok)
  | @shut r c hc hst =>
      exact h.setBranch (h.pulled r) fun d hd hdrop =>
        hshut r d rfl hd hdrop hst (h.books r d hd hdrop)

end Books

/-! ## The books of a branch -/

/-- A branch nobody has dropped, against what has been published (`sent`), what is still to publish
    (`left`) and whether the pump is past publishing (`past`): what it collected, what waits in its
    queue and what its forwarder has in hand is what its cursor has passed. Its scope is not closed
    before everything is published, and from the abort of its forwarder on, nothing is missing. -/
structure BranchOk (items sent left : List A) (past : Bool) (c : Cursor) (b : Branch A) : Prop where
  published : sent ++ left = items
  pos_le : c.pos ≤ sent.length
  order : b.sub.received ++ b.sub.inHand.toList = sent.take c.pos
  taken : b.collected ++ b.sub.queue.buffered = b.sub.received
  queue : b.sub.queue.closed = false → Accepts b.sub.queue
  hand : b.sub.running = false → b.sub.inHand = none
  attached : past = false → c.stop = none
  begun : b.stage ≠ .untouched → past = true
  aborted : b.aborted = true → past = true
  stopped : b.stage = .aborted ∨ b.stage = .closed → c.pos = sent.length
  shut : b.sub.queue.closed = true → b.sub.inHand = none ∧ c.pos = sent.length ∧ past = true
  ended : b.ended = true → b.sub.queue.closed = true ∧ b.sub.queue.buffered = []

namespace BranchOk

variable {sent left : List A} {past : Bool} {c : Cursor} {b : Branch A}

theorem new (items : List A) :
    BranchOk items [] items false ⟨0, 0, none⟩ (Branch.new : Branch A) where
  published := rfl
  pos_le := Nat.le_refl _
  order := rfl
  taken := rfl
  queue := fun _ => ⟨_, rfl, rfl, rfl⟩
  hand := fun _ => rfl
  attached := fun _ => rfl
  begun := fun h => absurd rfl h
  aborted := nofun
  stopped := fun h => by rcases h with h | h <;> cases h
  shut := fun h => by cases h
  ended := fun h => by cases h

/-- A branch that has come to its end has everything. -/
theorem collected_eq (h : BranchOk items sent left past c b) (hleft : past = true → left = [])
    (hend : b.ended = true) : b.collected = items := by
  obtain ⟨hclosed, hempty⟩ := h.ended hend
  obtain ⟨hhand, hpos, hover⟩ := h.shut hclosed
  have htaken := h.taken
  have horder := h.order
  have hpublished := h.published
  rw [hempty, List.append_nil] at htaken
  rw [hhand, Option.toList_none, List.append_nil, hpos, List.take_length] at horder
  rw [hleft hover, List.append_nil] at hpublished
  rw [htaken, horder, hpublished]

/-- Nothing closes a scope or a queue while the pump still publishes. -/
theorem publishing (h : BranchOk items sent left false c b) :
    c.stop = none ∧ b.stage = .untouched ∧ b.sub.queue.closed = false := by
  refine ⟨h.attached rfl, ?_, ?_⟩
  · by_contra hne
    cases h.begun hne
  · by_contra hne
    cases (h.shut (eq_true_of_ne_false hne)).2.2

theorem publish {v : A} (h : BranchOk items sent (v :: left) false c b) :
    BranchOk items (sent ++ [v]) left false c b := by
  obtain ⟨hstop, hstage, hopen⟩ := h.publishing
  refine ⟨?_, ?_, ?_, h.taken, h.queue, h.hand, h.attached, h.begun, h.aborted, ?_, ?_, h.ended⟩
  · rw [List.append_assoc, List.singleton_append, h.published]
  · have hle := h.pos_le
    rw [List.length_append]
    omega
  · rw [List.take_append_of_le_length h.pos_le, h.order]
  · rw [hstage]
    rintro (hst | hst) <;> cases hst
  · rw [hopen]
    intro hclosed
    cases hclosed

theorem over_true (h : BranchOk items sent left past c b) : BranchOk items sent left true c b :=
  { h with
    attached := nofun
    begun := fun _ => rfl
    aborted := fun _ => rfl
    shut := fun hcl => ⟨(h.shut hcl).1, (h.shut hcl).2.1, rfl⟩ }

theorem recv {v : A} (h : BranchOk items sent left past c b) (hhand : b.sub.inHand = none)
    (hrun : b.sub.running = true) (hv : sent[c.pos]? = some v) :
    BranchOk items sent left past { c with pos := c.pos + 1 }
      (b.setSub (b.sub.receive v false)) := by
  obtain ⟨hlt, hget⟩ := List.getElem?_eq_some_iff.1 hv
  have hbehind : c.pos ≠ sent.length := by omega
  refine ⟨h.published, hlt, ?_, h.taken, h.queue, ?_, h.attached, h.begun, h.aborted, ?_, ?_,
    h.ended⟩
  · have horder := h.order
    rw [hhand, Option.toList_none, List.append_nil] at horder
    show b.sub.received ++ [v] = sent.take (c.pos + 1)
    rw [horder, List.take_succ_eq_append_getElem hlt, hget]
  · intro hstop
    exact absurd (hrun.symm.trans hstop) (by simp)
  · intro hst
    exact absurd (h.stopped hst) hbehind
  · intro hcl
    exact absurd (h.shut hcl).2.1 hbehind

/-- The forwarder sees the channel closed. -/
theorem closed (h : BranchOk items sent left true c b) (hhand : b.sub.inHand = none)
    (hpos : sent.length ≤ c.pos) : BranchOk items sent left true c (b.setSub b.sub.finish) := by
  have hshut : b.sub.queue.shutdown.closed = true := Queue.shutdown_closed _
  refine ⟨h.published, h.pos_le, h.order, ?_, ?_, fun _ => hhand, h.attached, h.begun, h.aborted,
    h.stopped, fun _ => ⟨hhand, Nat.le_antisymm h.pos_le hpos, rfl⟩, fun hend => ⟨hshut, ?_⟩⟩
  · show b.collected ++ b.sub.queue.shutdown.buffered = b.sub.received
    rw [Queue.shutdown_buffered, h.taken]
  · intro hopen
    exact absurd (hshut.symm.trans hopen) (by simp)
  · show b.sub.queue.shutdown.buffered = []
    rw [Queue.shutdown_buffered]
    exact (h.ended hend).2

theorem offer {v : A} (h : BranchOk items sent left past c b) (hv : b.sub.inHand = some v) :
    BranchOk items sent left past c (b.setSub (b.sub.put v)) := by
  have hopen : b.sub.queue.closed = false := by
    by_contra hne
    have := (h.shut (eq_true_of_ne_false hne)).1
    rw [hv] at this
    cases this
  obtain ⟨hstored, hacc⟩ := (h.queue hopen).offer v
  have hbuf : (b.sub.queue.offer v).2.buffered = b.sub.queue.buffered ++ [v] := by
    obtain ⟨f, hf, -, -⟩ := h.queue hopen
    rw [hf] at hstored ⊢
    exact Queue.flume_offer_buffered f v hstored
  have hclosed : (b.sub.queue.offer v).2.closed = false := by
    obtain ⟨f, hf, -, htx⟩ := hacc
    rw [hf]
    simp [Queue.closed, htx]
  have hreceived : (b.setSub (b.sub.put v)).sub.received = b.sub.received ++ [v] := if_pos hstored
  refine ⟨h.published, h.pos_le, ?_, ?_, fun _ => hacc, fun _ => rfl, h.attached, h.begun,
    h.aborted, h.stopped, ?_, ?_⟩
  · have horder := h.order
    rw [hv] at horder
    rw [hreceived]
    exact (List.append_nil _).trans horder
  · rw [hreceived, ← h.taken, List.append_assoc]
    exact congrArg (b.collected ++ ·) hbuf
  · intro hcl
    exact absurd (hclosed.symm.trans hcl) (by simp)
  · intro hend
    exact absurd (hopen.symm.trans (h.ended hend).1) (by simp)

/-- The receiver of a branch goes away, after the last element was published. -/
theorem detach {n : Option ℕ} (h : BranchOk items sent left true c b) :
    BranchOk items sent left true { c with stop := n } b :=
  { h with attached := nofun }

theorem collect {a : A} {q : Queue A} (h : BranchOk items sent left past c b)
    (hend : b.ended = false) (hq : b.sub.queue.recv = some (.ok a, q)) :
    BranchOk items sent left past c (b.collect a q) := by
  have hclosed : q.closed = b.sub.queue.closed := Queue.recv_closed hq
  refine ⟨h.published, h.pos_le, h.order, ?_, ?_, h.hand, h.attached, h.begun, h.aborted,
    h.stopped, ?_, ?_⟩
  · have htaken := h.taken
    rw [Queue.recv_ok hq] at htaken
    show (b.collected ++ [a]) ++ q.buffered = b.sub.received
    rw [List.append_assoc, List.singleton_append, htaken]
  · intro hopen
    exact (h.queue (hclosed ▸ hopen)).recv hq
  · intro hcl
    exact h.shut (hclosed ▸ hcl)
  · intro hend'
    exact absurd (hend.symm.trans hend') (by simp)

theorem beginClose (h : BranchOk items sent left true c b) :
    BranchOk items sent left true c b.beginClose := by
  unfold Branch.beginClose
  split
  · refine { h with begun := fun _ => rfl, stopped := ?_ }
    rintro (hst | hst) <;> cases hst
  · exact h

theorem finish {e : QueueError} {q : Queue A} (h : BranchOk items sent left past c b)
    (hq : b.sub.queue.recv = some (.error e, q)) : BranchOk items sent left past c b.finish := by
  obtain ⟨-, hempty, hclosed⟩ := Queue.recv_error hq
  obtain rfl : past = true := (h.shut hclosed).2.2
  have hend : BranchOk items sent left true c { b with ended := true } :=
    { h with ended := fun _ => ⟨hclosed, hempty⟩ }
  exact hend.beginClose

theorem abort (h : BranchOk items sent left true c b) (hpos : c.pos = sent.length) :
    BranchOk items sent left true c b.abort := by
  cases hhand : b.sub.inHand with
  | none =>
      have hsub : b.abort.sub = { b.sub with running := false } := by
        simp only [Branch.abort, hhand]
      refine ⟨h.published, h.pos_le, ?_, ?_, ?_, ?_, nofun, fun _ => rfl, fun _ => rfl,
        fun _ => hpos, ?_, ?_⟩
      all_goals rw [hsub]
      exacts [h.order, h.taken, h.queue, fun _ => hhand, h.shut, h.ended]
  | some v =>
      have hsub : b.abort.sub = b.sub := by
        simp only [Branch.abort, hhand]
      refine ⟨h.published, h.pos_le, ?_, ?_, ?_, ?_, nofun, fun _ => rfl, fun _ => rfl,
        fun _ => hpos, ?_, ?_⟩
      all_goals rw [hsub]
      exacts [h.order, h.taken, h.queue, h.hand, h.shut, h.ended]

theorem shutDown (h : BranchOk items sent left past c b) (hst : b.stage = .aborted)
    (hhand : b.sub.inHand = none) : BranchOk items sent left past c b.shut := by
  have hover : past = true := h.begun (by rw [hst]; nofun)
  have hpos : c.pos = sent.length := h.stopped (Or.inl hst)
  have hshut : b.sub.queue.shutdown.closed = true := Queue.shutdown_closed _
  refine ⟨h.published, h.pos_le, h.order, ?_, ?_, h.hand, h.attached, fun _ => hover,
    fun _ => hover, fun _ => hpos, fun _ => ⟨hhand, hpos, hover⟩, fun hend => ⟨hshut, ?_⟩⟩
  · show b.collected ++ b.sub.queue.shutdown.buffered = b.sub.received
    rw [Queue.shutdown_buffered, h.taken]
  · intro hopen
    exact absurd (hshut.symm.trans hopen) (by simp)
  · show b.sub.queue.shutdown.buffered = []
    rw [Queue.shutdown_buffered]
    exact (h.ended hend).2

theorem laws (items : List A) : Laws (BranchOk items) where
  attached h := h.attached rfl
  begun h := h.begun
  aborted h := h.aborted
  publish h := h.publish
  over_true h := h.over_true
  beginClose h := h.beginClose
  recv h := h.recv
  closed h := h.closed
  offer h := h.offer
  offerLast h hv := { (h.offer hv).detach with hand := fun _ => rfl }
  detach h := h.detach
  collect h := h.collect
  finish h := h.finish

end BranchOk

/-! ## The invariant -/

/-- The books of every branch that was not dropped, and what they need of the hub: the ring has room
    for all elements, the sender is there while the pump publishes, and only branches that exist
    are pulled. -/
structure Inv (items : List A) (s : Sys A) : Prop where
  room : s.hub.chan.sent.length + s.pump.left.length ≤ s.hub.chan.ring
  tx : s.hub.tx = false → s.pump.over = true
  books : ∀ (r : ℕ) (c : Cursor), s.hub.chan.cursors[r]? = some c →
    (s.branches r).dropped = false →
      BranchOk items s.hub.chan.sent s.pump.left s.pump.over c (s.branches r)
  pulled : ∀ r, (s.branches r).ended = true →
    r < s.hub.chan.cursors.length ∧ (s.branches r).dropped = false

theorem Inv.complete (h : Inv items s) : s.Complete items := by
  intro r hend
  obtain ⟨hr, hdropped⟩ := h.pulled r hend
  obtain ⟨c, hc⟩ : ∃ c, s.hub.chan.cursors[r]? = some c := ⟨_, List.getElem?_eq_getElem hr⟩
  exact (h.books r c hc hdropped).collected_eq Pump.left_eq_nil hend

theorem inv_init {ring n : ℕ} (branches : ℕ) (hring : items.length ≤ ring) :
    Inv items (Sys.init ring n branches items) where
  room := by simpa [Sys.init, Pump.left] using hring
  tx := nofun
  books := (books_init branches ring n (.new items)).books
  pulled := nofun

/-- The ring keeps its room: what is published was still to publish. -/
theorem room_step (hroom : s.hub.chan.sent.length + s.pump.left.length ≤ s.hub.chan.ring)
    (hstep : Step s l s') :
    s'.hub.chan.sent.length + s'.pump.left.length ≤ s'.hub.chan.ring := by
  cases hstep with
  | @publish v rest hp =>
      rw [hp] at hroom
      simp only [Pump.left, List.length_cons] at hroom
      unfold Sys.publish
      split
      · next ch hsend =>
          rw [Channel.send_eq_some hsend]
          show (s.hub.chan.sent ++ [v]).length + rest.length ≤ s.hub.chan.ring
          rw [List.length_append, List.length_singleton]
          omega
      · show s.hub.chan.sent.length + rest.length ≤ s.hub.chan.ring
        omega
  | shutdown hp =>
      rw [hp] at hroom
      exact hroom
  | @advance p hover hp | @beginClose _ p hover hp =>
      rw [Pump.left_eq_nil hover] at hroom
      show s.hub.chan.sent.length + p.left.length ≤ s.hub.chan.ring
      rw [Pump.left_eq_nil hp]
      exact hroom
  | recv | lag | closed | offer | offerLast | collect | finish | drop | abort | abortDrop | shut =>
      exact hroom

theorem Inv.step (h : Inv items s) (hg : s.Drained l) (hstep : Step s l s') : Inv items s' := by
  have hbooks : Books (BranchOk items) s := ⟨h.tx, h.books, h.pulled⟩
  have hnext : Books (BranchOk items) s' := by
    refine hbooks.step (BranchOk.laws items) hstep ?_ ?_ ?_
    · intro r c _ _ _ hlag _
      -- the ring has room for everything that is ever sent
      have hroom := h.room
      omega
    · rintro r c rfl hc hdrop hst hok
      exact hok.abort ((hg hdrop).1 hst c hc)
    · rintro r c rfl _ hdrop hst hok
      exact hok.shutDown hst ((hg hdrop).2 hst)
  exact ⟨room_step h.room hstep, hnext.tx, hnext.books, hnext.pulled⟩

/-- **Broadcasting.** Every branch that is pulled to its end collects exactly the elements of the
    upstream, in order, in every run in which no forwarder is aborted before it has received
    everything and no queue is shut down before its forwarder has offered everything. -/
theorem broadcast_complete {A : Type} (ring n branches : ℕ) (items : List A) (ls : List Label)
    (s : Sys A) (hring : max n 1 ≤ ring) (hn : items.length ≤ n)
    (hg : Along Sys.step Sys.Drained (Sys.init ring n branches items) ls)
    (h : run Sys.step (Sys.init ring n branches items) ls = some s) : s.Complete items := by
  have hinit : Inv items (Sys.init ring n branches items) := inv_init branches (by omega)
  have hinv : Inv items s :=
    run_invariant_along (fun _ _ _ hs hd hstep => hs.step hd (.of_step hstep)) hinit hg h
  exact hinv.complete

/-- The forwarder keeps up with the pump. -/
theorem broadcast_complete_kept_up : ∃ s : Sys ℕ,
    run Sys.step (Sys.init 2 2 1 [7, 8]) [.pump, .recv 0, .pump, .offer 0, .recv 0, .offer 0, .pump,
      .pump, .pump, .closer 0, .closer 0, .pull 0, .pull 0, .pull 0] = some s ∧
    (s.branches 0).ended = true ∧ s.Complete [7, 8] := by
  have hrun : ∃ s, run Sys.step (Sys.init 2 2 1 [7, 8]) [.pump, .recv 0, .pump, .offer 0, .recv 0,
      .offer 0, .pump, .pump, .pump, .closer 0, .closer 0, .pull 0, .pull 0, .pull 0] = some s ∧
        (s.branches 0).ended = true := exists_run _ (by decide)
  obtain ⟨s, hs, hend⟩ := hrun
  exact ⟨s, hs, hend, broadcast_complete 2 2 1 [7, 8] _ s (by decide) (by decide) (by decide) hs⟩

end IdEffect.Fanout
