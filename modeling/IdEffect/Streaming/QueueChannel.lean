import Mathlib.Data.List.Nodup
import Mathlib.Data.List.Perm.Subperm
import Mathlib.Order.Nat
import IdEffect.Lib.Calls
import IdEffect.Coordination.Queue

set_option autoImplicit false

/-! # Round trips over a queue channel

A `QueueChannel` has one queue for both directions: `write` offers the mapped element, `read` takes
the oldest one. A call that writes a request and then reads the response takes whatever is oldest by
then. Every element is accounted for as long as no write evicts one: it is in the queue or has been
delivered to one call, and when nobody waits for a response the queue is empty (`Books`). So each
call has its own response exactly when the oldest element was its own, or one like it, whenever a
call read. -/

namespace IdEffect

namespace Queue

variable {A : Type}

/-- The elements that have to go when `v` is accepted. -/
def evicted (q : Queue A) (v : A) : List A :=
  match q with
  | .fromFlume _ => []
  | .fromSliding s => (s.deque ++ [v]).take ((s.deque ++ [v]).length - s.capacity)

/-- A sliding queue with as many elements as it holds. -/
def slidingFull (q : Queue A) : Bool :=
  match q with
  | .fromFlume _ => false
  | .fromSliding s => decide (s.capacity ≤ s.deque.length)

theorem offer_accepted {q q' : Queue A} {v : A} (h : q.offer v = (true, q')) :
    q.evicted v ++ q'.buffered = q.buffered ++ [v] ∧ q.closed = false := by
  cases q with
  | fromFlume f =>
      have haccepted : ((Queue.fromFlume f).offer v).1 = true := congrArg Prod.fst h
      have hbuffered := flume_offer_buffered f v haccepted
      rw [h] at hbuffered
      refine ⟨hbuffered, ?_⟩
      cases htx : f.tx with
      | true => simp [closed, htx]
      | false => simp [offer, FlumeShared.offer, htx] at haccepted
  | fromSliding s =>
      simp only [offer, SlidingShared.offer, SlidingShared.offerOrRetain] at h
      cases hopen : s.isOpen with
      | false => simp [hopen] at h
      | true =>
          simp only [hopen, if_true, Prod.mk.injEq, true_and] at h
          subst h
          refine ⟨?_, by simp [closed, hopen]⟩
          simp only [evicted, buffered]
          rw [SlidingShared.trim_eq_drop, List.take_append_drop]

/-- A refused element changes nothing. -/
theorem offer_refused {q q' : Queue A} {v : A} (h : q.offer v = (false, q')) : q' = q := by
  obtain ⟨htrue, -⟩ | ⟨-, hsame⟩ := q.offer_spec v
  · rw [h] at htrue
    cases htrue
  · rw [h] at hsame
    exact hsame

/-- An open sliding queue accepts everything. -/
theorem slidingFull_of_refused {q : Queue A} {v : A} (h : (q.offer v).1 = false)
    (hopen : q.closed = false) : q.slidingFull = false := by
  cases q with
  | fromFlume f => rfl
  | fromSliding s =>
      simp only [closed, Bool.not_eq_false'] at hopen
      simp [offer, SlidingShared.offer, SlidingShared.offerOrRetain, hopen] at h

theorem evicted_eq_nil {q : Queue A} {v : A} : q.evicted v = [] ↔ q.slidingFull = false := by
  cases q with
  | fromFlume f => exact iff_of_true rfl rfl
  | fromSliding s =>
      simp only [evicted, slidingFull, List.take_eq_nil_iff, List.length_append,
        List.length_singleton, decide_eq_false_iff_not]
      constructor
      · rintro (hle | hnil)
        · omega
        · simp at hnil
      · intro hlt
        exact .inl (by omega)

end Queue

namespace QueueChannel

open Calls Transition

variable {In Out A E : Type}

/-- What a channel does to its elements. -/
structure QueueChannelInner (Out In : Type) where
  mapIn : In → Out
  flatMapOut : Option (Out → List Out)
  postRead : Out → Out

/-- `QueueChannel::from_queue_and_map`, the only way to make one. -/
def fromQueueAndMap (mapIn : In → Out) : QueueChannelInner Out In := ⟨mapIn, none, id⟩

/-- The cells of a channel. Elements carry the number of the call that wrote them, which no call
    looks at. The other fields are an observer's: the calls that have written, those whose element
    was evicted, and who wrote and who got the elements that were read. -/
structure Cells (Out : Type) where
  q : Queue (ℕ × Out)
  pending : List (ℕ × Out)
  written : List ℕ
  lost : List ℕ
  delivered : List (ℕ × ℕ)

def Cells.new (q : Queue (ℕ × Out)) : Cells Out := ⟨q, [], [], [], []⟩

/-- Where a round trip is: in the loop of `write`, at the head of the loop of `read`, or waiting in
    `take`. -/
inductive Exchanging (In : Type) where
  | writing (req : In)
  | draining (req : In)
  | taking (req : In)
  deriving DecidableEq

namespace QueueChannelInner

variable (ch : QueueChannelInner Out In)

/-- What `read` makes of an element it has taken. -/
def expand (wire : ℕ × Out) : List (ℕ × Out) :=
  match ch.flatMapOut with
  | some f => (f wire.2).map fun x => (wire.1, x)
  | none => [wire]

/-- One access of `write(req)` followed by `read()`; the result is that of `read`. A write that is
    refused yields and tries again. -/
def access (t : ℕ) (exchanging : Exchanging In) (cells : Cells Out) :
    Option ((Exchanging In ⊕ Except QueueError (Option Out)) × Cells Out) :=
  match exchanging with
  | .writing req =>
      let out := ch.mapIn req
      match cells.q.offer (t, out) with
      | (true, q) => some (.inl (.draining req),
          { cells with
            q := q
            written := cells.written ++ [t]
            lost := cells.lost ++ (cells.q.evicted (t, out)).map Prod.fst })
      | (false, q) => some (.inl (.writing req), { cells with q := q })
  | .draining req =>
      match cells.pending with
      | x :: rest => some (.inr (.ok (some (ch.postRead x.2))),
          { cells with pending := rest, delivered := cells.delivered ++ [(x.1, t)] })
      | [] => some (.inl (.taking req), cells)
  | .taking req =>
      match cells.q.recv with
      | none => none
      | some (.ok wire, q) =>
          match ch.expand wire with
          | [] => some (.inl (.draining req), { cells with q := q })
          | first :: buf => some (.inr (.ok (some (ch.postRead first.2))),
              { cells with
                q := q
                pending := cells.pending ++ buf
                delivered := cells.delivered ++ [(first.1, t)] })
      | some (.error .disconnected, q) => some (.inr (.ok none), { cells with q := q })

end QueueChannelInner

/-- What a caller of the round trip makes of the result of `read`: an element is a response, none is
    a failure. -/
structure Caller (Out A E : Type) where
  finish : Except QueueError (Option Out) → Except E A
  into : Out → A
  finish_some : ∀ x, finish (.ok (some x)) = .ok (into x)
  finish_none : ∃ e, finish (.ok none) = .error e

/-- The calls of `caller` on clones of one channel. -/
def machine (ch : QueueChannelInner Out In) (caller : Caller Out A E) :
    Machine (Cells Out) In (Exchanging In) (Except E A) Unit where
  start _ req := .writing req
  step t exchanging _ cells :=
    (ch.access t exchanging cells).map fun x => (x.1.map id caller.finish, x.2)

/-- The calls of `caller` on a channel with a new queue, interleaved as `ls` says. -/
def exchanges (mapIn : In → Out) (caller : Caller Out A E) (q : Queue (ℕ × Out))
    (ls : List (Label In Unit)) : Option (Sys (Cells Out) In (Exchanging In) (Except E A)) :=
  run (machine (fromQueueAndMap mapIn) caller).sysStep (Sys.init (Cells.new q)) ls

/-! ## What is asked -/

/-- The call has written and has not read yet. -/
def waits : Status In (Exchanging In) (Except E A) → Bool
  | .running _ (.draining _) | .running _ (.taking _) => true
  | .running _ (.writing _) | .idle | .done _ _ => false

/-- Each call has the response to its own request. What was written is in the queue or was delivered
    to one call, and was delivered if no call waits for a response. -/
structure Answers (mapIn : In → Out) (caller : Caller Out A E)
    (s : Sys (Cells Out) In (Exchanging In) (Except E A)) : Prop where
  own : ∀ t req r, s.calls t = .done req r → r = .ok (caller.into (mapIn req))
  once : ∀ w ∈ s.store.written,
    (s.store.delivered.map Prod.fst).count w + (s.store.q.buffered.map Prod.fst).count w = 1
  all : (∀ t, waits (s.calls t) = false) →
    ∀ w ∈ s.store.written, (s.store.delivered.map Prod.fst).count w = 1

/-- A call reads when the oldest element is its own response, or is answered like it. -/
def OwnOldest (mapIn : In → Out) (caller : Caller Out A E) (cells : Cells Out) (_ : ℕ)
    (exchanging : Exchanging In) (_ : Unit) : Prop :=
  match exchanging with
  | .taking req =>
      cells.q.buffered.head?.map (fun x => caller.into x.2) = some (caller.into (mapIn req))
  | .writing _ | .draining _ => True

/-- A call writes when there is room, or is refused. -/
def HasRoom (cells : Cells Out) (_ : ℕ) (exchanging : Exchanging In) (_ : Unit) : Prop :=
  match exchanging with
  | .writing _ => cells.q.closed = false → cells.q.slidingFull = false
  | .draining _ | .taking _ => True

instance [DecidableEq A] (mapIn : In → Out) (caller : Caller Out A E) (cells : Cells Out) (t : ℕ)
    (exchanging : Exchanging In) (e : Unit) :
    Decidable (OwnOldest mapIn caller cells t exchanging e) :=
  match exchanging with
  | .taking _ => inferInstanceAs (Decidable (_ = _))
  | .writing _ | .draining _ => .isTrue trivial

instance (cells : Cells Out) (t : ℕ) (exchanging : Exchanging In) (e : Unit) :
    Decidable (HasRoom cells t exchanging e) :=
  match exchanging with
  | .writing _ => inferInstanceAs (Decidable (_ → _))
  | .draining _ | .taking _ => .isTrue trivial

/-- Every call reads in its turn and writes when there is room. -/
def InTurn (mapIn : In → Out) (caller : Caller Out A E) (q : Queue (ℕ × Out))
    (ls : List (Label In Unit)) : Prop :=
  Along (machine (fromQueueAndMap mapIn) caller).sysStep
      (Machine.guardOf (OwnOldest mapIn caller)) (Sys.init (Cells.new q)) ls
    ∧ Along (machine (fromQueueAndMap mapIn) caller).sysStep
        (Machine.guardOf HasRoom) (Sys.init (Cells.new q)) ls

instance [DecidableEq A] (mapIn : In → Out) (caller : Caller Out A E) (q : Queue (ℕ × Out))
    (ls : List (Label In Unit)) : Decidable (InTurn mapIn caller q ls) :=
  inferInstanceAs (Decidable (_ ∧ _))

/-! ## The books -/

/-- The request the call has written, or will write. -/
def Exchanging.req : Exchanging In → In
  | .writing req | .draining req | .taking req => req

/-- Nothing is pending, and the written elements are those delivered, lost and in the queue; calls
    write once, and read once, after they have written. -/
structure Books (cells : Cells Out) : Prop where
  pending : cells.pending = []
  kept : (cells.delivered.map Prod.fst ++ (cells.lost ++ cells.q.buffered.map Prod.fst)).Perm
    cells.written
  writers : cells.written.Nodup
  readers : (cells.delivered.map Prod.snd).Nodup
  read_written : ∀ t ∈ cells.delivered.map Prod.snd, t ∈ cells.written

def Known (t : ℕ) (status : Status In (Exchanging In) (Except E A)) (cells : Cells Out) : Prop :=
  match status with
  | .idle => t ∉ cells.written
  | .running q (.writing req) => req = q ∧ t ∉ cells.written
  | .running q (.draining req) | .running q (.taking req) =>
      req = q ∧ t ∈ cells.written ∧ t ∉ cells.delivered.map Prod.snd
  | .done _ (.ok _) => t ∈ cells.written ∧ t ∈ cells.delivered.map Prod.snd
  | .done _ (.error _) => t ∈ cells.written

/-- What a step does when nothing is pending. -/
inductive Access (mapIn : In → Out) (caller : Caller Out A E) (t : ℕ) (cells : Cells Out) :
    Exchanging In → Exchanging In ⊕ Except E A → Cells Out → Prop where
  | written {req : In} {q : Queue (ℕ × Out)} (h : cells.q.offer (t, mapIn req) = (true, q)) :
      Access mapIn caller t cells (.writing req) (.inl (.draining req))
        { cells with
          q := q
          written := cells.written ++ [t]
          lost := cells.lost ++ (cells.q.evicted (t, mapIn req)).map Prod.fst }
  | refused {req : In} (h : (cells.q.offer (t, mapIn req)).1 = false) :
      Access mapIn caller t cells (.writing req) (.inl (.writing req)) cells
  | drained {req : In} : Access mapIn caller t cells (.draining req) (.inl (.taking req)) cells
  | read {req : In} {w : ℕ} {out : Out} {q : Queue (ℕ × Out)}
      (h : cells.q.buffered = (w, out) :: q.buffered) :
      Access mapIn caller t cells (.taking req) (.inr (.ok (caller.into out)))
        { cells with q := q, delivered := cells.delivered ++ [(w, t)] }
  | ended {req : In} {e : E} (h : cells.q.buffered = []) :
      Access mapIn caller t cells (.taking req) (.inr (.error e)) cells

variable {mapIn : In → Out} {caller : Caller Out A E} {t : ℕ} {cells cells' : Cells Out}
variable {exchanging : Exchanging In} {x : Exchanging In ⊕ Except E A} {e : Unit}

theorem Access.of_step (hpending : cells.pending = [])
    (h : (machine (fromQueueAndMap mapIn) caller).step t exchanging e cells = some (x, cells')) :
    Access mapIn caller t cells exchanging x cells' := by
  obtain ⟨⟨y, cells''⟩, haccess, heq⟩ := Option.map_eq_some_iff.mp h
  cases heq
  unfold QueueChannelInner.access at haccess
  cases exchanging with
  | writing req =>
      cases hoffer : cells.q.offer (t, mapIn req) with
      | mk accepted q =>
          cases accepted with
          | true =>
              simp only [fromQueueAndMap, hoffer] at haccess
              cases haccess
              exact .written hoffer
          | false =>
              simp only [fromQueueAndMap, hoffer, Queue.offer_refused hoffer] at haccess
              cases haccess
              exact .refused (congrArg Prod.fst hoffer)
  | draining req =>
      simp only [hpending] at haccess
      cases haccess
      exact .drained
  | taking req =>
      simp only at haccess
      split at haccess
      · cases haccess
      · next wire q hrecv =>
          have hexpand : (fromQueueAndMap mapIn).expand wire = [wire] := rfl
          simp only [hexpand, hpending, List.append_nil] at haccess
          cases haccess
          have hread : caller.finish (.ok (some wire.2)) = .ok (caller.into wire.2) :=
            caller.finish_some wire.2
          change Access mapIn caller t cells _ (.inr (caller.finish (.ok (some wire.2)))) _
          rw [hread, ← hpending]
          exact .read (Queue.recv_ok hrecv)
      · next q hrecv =>
          cases haccess
          obtain ⟨rfl, hempty, -⟩ := Queue.recv_error hrecv
          obtain ⟨e, he⟩ := caller.finish_none
          change Access mapIn caller t cells _ (.inr (caller.finish (.ok none))) _
          rw [he]
          exact .ended hempty

/-- A call knows the same if it has written and read as before. -/
theorem Known.congr {status : Status In (Exchanging In) (Except E A)} (h : Known t status cells)
    (hwritten : t ∈ cells'.written ↔ t ∈ cells.written)
    (hread : t ∈ cells'.delivered.map Prod.snd ↔ t ∈ cells.delivered.map Prod.snd) :
    Known t status cells' := by
  match status, h with
  | .idle, h => exact hwritten.not.mpr h
  | .running _ (.writing _), h => exact ⟨h.1, hwritten.not.mpr h.2⟩
  | .running _ (.draining _), h => exact ⟨h.1, hwritten.mpr h.2.1, hread.not.mpr h.2.2⟩
  | .running _ (.taking _), h => exact ⟨h.1, hwritten.mpr h.2.1, hread.not.mpr h.2.2⟩
  | .done _ (.ok _), h => exact ⟨hwritten.mpr h.1, hread.mpr h.2⟩
  | .done _ (.error _), h => exact hwritten.mpr h

theorem Books.new {q : Queue (ℕ × Out)} (hq : q.buffered = []) : Books (Cells.new q) where
  pending := rfl
  kept := by simp [Cells.new, hq]
  writers := List.nodup_nil
  readers := List.nodup_nil
  read_written := fun _ h => absurd h List.not_mem_nil

theorem Books.write (h : Books cells) (ht : t ∉ cells.written) {out : Out}
    {q : Queue (ℕ × Out)} (hoffer : cells.q.offer (t, out) = (true, q)) :
    Books { cells with
      q := q
      written := cells.written ++ [t]
      lost := cells.lost ++ (cells.q.evicted (t, out)).map Prod.fst } where
  pending := h.pending
  kept := by
    have hqueue : (cells.q.evicted (t, out)).map Prod.fst ++ q.buffered.map Prod.fst
        = cells.q.buffered.map Prod.fst ++ [t] := by
      rw [← List.map_append, (Queue.offer_accepted hoffer).1, List.map_append]
      rfl
    have hkept := h.kept.append_right [t]
    simp only [List.append_assoc] at hkept ⊢
    rwa [hqueue]
  writers := by
    rw [← List.concat_eq_append]
    exact h.writers.concat ht
  readers := h.readers
  read_written := fun u hu => List.mem_append_left _ (h.read_written u hu)

theorem Books.read (h : Books cells) (ht : t ∈ cells.written)
    (hnew : t ∉ cells.delivered.map Prod.snd) {w : ℕ} {out : Out} {q : Queue (ℕ × Out)}
    (hbuffered : cells.q.buffered = (w, out) :: q.buffered) :
    Books { cells with q := q, delivered := cells.delivered ++ [(w, t)] } where
  pending := h.pending
  kept := by
    refine List.Perm.trans ?_ h.kept
    rw [hbuffered]
    simp only [List.map_append, List.map_cons, List.map_nil, List.append_assoc,
      List.singleton_append]
    exact (List.perm_middle.symm).append_left _
  writers := h.writers
  readers := by
    rw [List.map_append, List.map_singleton, ← List.concat_eq_append]
    exact h.readers.concat hnew
  read_written := by
    intro u hu
    rw [List.map_append, List.mem_append] at hu
    obtain hu | hu := hu
    · exact h.read_written u hu
    · exact List.mem_singleton.mp hu ▸ ht

theorem keeps_books (mapIn : In → Out) (caller : Caller Out A E) :
    (machine (fromQueueAndMap mapIn) caller).Keeps Books Known := by
  refine ⟨fun t req cells h => ⟨rfl, h⟩, ?_⟩
  intro t req exchanging e x cells cells' hbooks hknown hstep
  cases Access.of_step hbooks.pending hstep with
  | written hoffer =>
      refine ⟨hbooks.write hknown.2 hoffer, ⟨hknown.1, ?_, ?_⟩, fun u c hu hc => hc.congr ?_ .rfl⟩
      · exact List.mem_append_right _ (List.mem_singleton_self _)
      · exact fun hread => hknown.2 (hbooks.read_written t hread)
      · rw [List.mem_append, List.mem_singleton, or_iff_left hu]
  | refused _ => exact ⟨hbooks, hknown, fun _ _ _ hc => hc⟩
  | drained => exact ⟨hbooks, hknown, fun _ _ _ hc => hc⟩
  | read hbuffered =>
      refine ⟨hbooks.read hknown.2.1 hknown.2.2 hbuffered, ⟨hknown.2.1, ?_⟩,
        fun u c hu hc => hc.congr .rfl ?_⟩
      · rw [List.map_append]
        exact List.mem_append_right _ (List.mem_singleton_self _)
      · rw [List.map_append, List.mem_append, List.map_singleton, List.mem_singleton,
          or_iff_left hu]
  | ended _ => exact ⟨hbooks, hknown.2.1, fun _ _ _ hc => hc⟩

/-! ## What the books say -/

/-- An element that was written is in one place. -/
theorem Books.count (h : Books cells) {w : ℕ} (hw : w ∈ cells.written) :
    (cells.delivered.map Prod.fst).count w + (cells.q.buffered.map Prod.fst).count w
      + cells.lost.count w = 1 := by
  have hcount := h.kept.count_eq w
  rw [List.count_append, List.count_append, List.count_eq_one_of_mem h.writers hw] at hcount
  omega

theorem Books.once_iff (h : Books cells) :
    (∀ w ∈ cells.written,
      (cells.delivered.map Prod.fst).count w + (cells.q.buffered.map Prod.fst).count w = 1)
      ↔ cells.lost = [] := by
  constructor
  · intro honce
    refine List.eq_nil_iff_forall_not_mem.mpr fun w hlost => ?_
    have hw : w ∈ cells.written :=
      h.kept.subset (List.mem_append_right _ (List.mem_append_left _ hlost))
    have hpos : 0 < cells.lost.count w := List.count_pos_iff.mpr hlost
    have hplaces := h.count hw
    have hplace := honce w hw
    omega
  · intro hlost w hw
    have hplaces := h.count hw
    rwa [hlost, List.count_nil, Nat.add_zero] at hplaces

/-- If nothing was lost, and whoever has written has read, the queue is empty. -/
theorem Books.drained (h : Books cells) (hlost : cells.lost = [])
    (hread : ∀ t ∈ cells.written, t ∈ cells.delivered.map Prod.snd) : cells.q.buffered = [] := by
  have hle : cells.written.length ≤ cells.delivered.length := by
    have hsub := (h.writers.subperm hread).length_le
    rwa [List.length_map] at hsub
  have hkept := h.kept.length_eq
  rw [hlost, List.nil_append, List.length_append, List.length_map, List.length_map] at hkept
  exact List.eq_nil_of_length_eq_zero (by omega)

variable {s : Sys (Cells Out) In (Exchanging In) (Except E A)}

/-- All that is asked, apart from the responses being the right ones, is that nothing is lost. -/
theorem answers_iff (hs : Machine.Knows Books Known s) :
    Answers mapIn caller s
      ↔ (∀ t req r, s.calls t = .done req r → r = .ok (caller.into (mapIn req)))
          ∧ s.store.lost = [] := by
  constructor
  · exact fun h => ⟨h.own, hs.store.once_iff.mp h.once⟩
  · rintro ⟨hown, hlost⟩
    have honce := hs.store.once_iff.mpr hlost
    refine ⟨hown, honce, fun hnone w hw => ?_⟩
    have hread : ∀ t ∈ s.store.written, t ∈ s.store.delivered.map Prod.snd := by
      intro t ht
      have hknown := hs.calls t
      have hwaits := hnone t
      revert hknown hwaits
      cases hcall : s.calls t with
      | idle => exact fun hknown _ => absurd ht hknown
      | running q exchanging =>
          cases exchanging with
          | writing req => exact fun hknown _ => absurd ht hknown.2
          | draining req => exact fun _ hwaits => by cases hwaits
          | taking req => exact fun _ hwaits => by cases hwaits
      | done q r =>
          obtain rfl := hown t q r hcall
          exact fun hknown _ => hknown.2
    have hcount := honce w hw
    rwa [hs.store.drained hlost hread, List.map_nil, List.count_nil, Nat.add_zero] at hcount

/-- The step in which a call reads decides whether it has its response. -/
theorem decides_own (mapIn : In → Out) (caller : Caller Out A E) :
    (machine (fromQueueAndMap mapIn) caller).Decides (OwnOldest mapIn caller) Books Known
      fun _ status _ => ∀ req r, status = .done req r → r = .ok (caller.into (mapIn req)) := by
  have hunanswered : ∀ {status : Status In (Exchanging In) (Except E A)},
      (∀ q r, status ≠ .done q r) →
        ∀ q r, status = .done q r → r = .ok (caller.into (mapIn q)) :=
    fun hstatus q r h => absurd h (hstatus q r)
  refine ⟨fun _ _ => hunanswered fun _ _ h => (by cases h),
    fun _ _ _ _ => hunanswered fun _ _ h => (by cases h), ?_⟩
  intro t req exchanging e x cells cells' hbooks hknown hstep
  refine ⟨?_, fun _ _ _ => .rfl⟩
  cases Access.of_step hbooks.pending hstep with
  | written _ => exact iff_of_true (hunanswered fun _ _ h => (by cases h)) trivial
  | refused _ => exact iff_of_true (hunanswered fun _ _ h => (by cases h)) trivial
  | drained => exact iff_of_true (hunanswered fun _ _ h => (by cases h)) trivial
  | @read own w out q hbuffered =>
      obtain rfl : own = req := hknown.1
      have hoffered : OwnOldest mapIn caller cells t (.taking own) e
          ↔ caller.into out = caller.into (mapIn own) := by
        simp only [OwnOldest, hbuffered, List.head?_cons, Option.map_some, Option.some.injEq]
      rw [hoffered]
      constructor
      · exact fun h => Except.ok.inj (h own _ rfl)
      · intro h req' r hdone
        cases hdone
        exact congrArg Except.ok h
  | @ended own error hempty =>
      refine iff_of_false (fun h => ?_) fun h => ?_
      · cases h req _ rfl
      · simp only [OwnOldest, hempty, List.head?_nil, Option.map_none] at h
        cases h

/-- A write loses something exactly when there is no room for it. -/
theorem lost_step (hbooks : Books cells)
    (hstep : (machine (fromQueueAndMap mapIn) caller).step t exchanging e cells
      = some (x, cells')) :
    cells'.lost = [] ↔ cells.lost = [] ∧ HasRoom cells t exchanging e := by
  cases Access.of_step hbooks.pending hstep with
  | written hoffer =>
      simp only [List.append_eq_nil_iff, List.map_eq_nil_iff, Queue.evicted_eq_nil]
      refine and_congr_right fun _ => ⟨fun h _ => h, fun h => h (Queue.offer_accepted hoffer).2⟩
  | refused hrefused =>
      exact (and_iff_left fun hopen => Queue.slidingFull_of_refused hrefused hopen).symm
  | drained => exact (and_iff_left trivial).symm
  | read _ => exact (and_iff_left trivial).symm
  | ended _ => exact (and_iff_left trivial).symm

/-- **Each call has its own response, and every response goes to one call, in exactly the runs in
    which the calls take turns.** -/
theorem exchanges_answers_iff {q : Queue (ℕ × Out)} (hq : q.buffered = [])
    {ls : List (Label In Unit)} (hrun : exchanges mapIn caller q ls = some s) :
    Answers mapIn caller s ↔ InTurn mapIn caller q ls := by
  have hkeeps := keeps_books mapIn caller
  have hinit : Machine.Knows Books Known
      (Sys.init (Cells.new q) : Sys (Cells Out) In (Exchanging In) (Except E A)) :=
    ⟨.new hq, fun _ => List.not_mem_nil⟩
  rw [answers_iff (hkeeps.run hinit hrun)]
  refine and_congr ?_ ?_
  · exact (decides_own mapIn caller).run_iff hkeeps hinit hrun
  · have hlost := hkeeps.run_iff_store (J := fun cells : Cells Out => cells.lost = [])
      (fun t req exchanging e x cells cells' hbooks _ hstep => lost_step hbooks hstep) hinit hrun
    exact hlost.trans (and_iff_right rfl)

end QueueChannel

end IdEffect
