import IdEffect.Lib.Pull

set_option autoImplicit false

/-! # Streams: `streaming/stream.rs`

A stream is a state machine that is polled for chunks. `poll` follows
`poll_next_chunk_with_size`; the combinators make a new pending stream whose closure owns the one it
is built from and drains it in a loop of its own, so that what the closure will return is determined
when the combinator is called. Chunks are cut only by `poll`: 64 elements at most (`chunkSize`).

What a queue will hand to the stream is given as a list: the messages a channel-backed stream will
receive, and then a disconnected queue. Functions given to combinators are pure, or carry their
state explicitly where the source allows an `FnMut`. Whether a chunk is mapped or filtered by
several threads depends on the load of the machine and is left to a `Plan`: where the chunk is cut
into pieces that are worked on in parallel and collected in order. The throughput counter is left
out. -/

namespace IdEffect.Streaming

variable {A B E S : Type}

inductive ChannelMessage (A E : Type) where
  | chunk (items : List A)
  | endStream
  | fail (error : E)
  deriving DecidableEq, Repr

/-- `StreamState`. `chaining` is a `Chaining` whose first stream is there, `chained` one whose first
    stream has ended. -/
inductive Stream (A E : Type) where
  | pending (make : Option (Unit → Except E (List A)))
  | channel (incoming : List (ChannelMessage A E)) (buffered : List A) (closed : Bool)
  | directQueue (incoming : List A) (buffered : List A) (closed : Bool) (sharedFail : Option E)
  | buffered (items : List A)
  | chaining (first second : Stream A E)
  | chained (second : Stream A E)
  | exhausted

/-! ## Polling -/

namespace Stream

/-- An answer to a poll, and the stream afterwards. -/
abbrev Polled (A E : Type) : Type := Except E (Option (List A)) × Stream A E

/-- The arm of `Channel`: receive until there is something to serve or the channel is closed. -/
def pollChannel (n : ℕ) : List (ChannelMessage A E) → List A → Bool → Polled A E
  | incoming, a :: buf, closed =>
      (.ok (some ((a :: buf).take n)),
        .channel incoming ((a :: buf).drop n) closed)
  | _, [], true => (.ok none, .exhausted)
  | .chunk items :: incoming, [], false => pollChannel n incoming items false
  | .endStream :: _, [], false => (.ok none, .exhausted)
  | .fail error :: incoming, [], false => (.error error, .channel incoming [] false)
  | [], [], false => (.ok none, .exhausted)

/-- The arm of `DirectQueue`: an error shared by the branches goes first. -/
def pollDirectQueue (n : ℕ) : List A → List A → Bool → Option E → Polled A E
  | incoming, buf, closed, some error =>
      (.error error, .directQueue incoming buf closed none)
  | incoming, a :: buf, closed, none =>
      (.ok (some ((a :: buf).take n)),
        .directQueue incoming ((a :: buf).drop n) closed none)
  | _, [], true, none => (.ok none, .exhausted)
  | a :: incoming, [], false, none =>
      (.ok (some ([a].take n)), .directQueue incoming ([a].drop n) false none)
  | [], [], false, none => (.ok none, .exhausted)

/-- Serve from what is left of a list of elements. -/
def pollItems (n : ℕ) : List A → Polled A E
  | [] => (.ok none, .exhausted)
  | a :: items =>
      match (a :: items).drop n with
      | [] => (.ok (some ((a :: items).take n)), .exhausted)
      | b :: rest => (.ok (some ((a :: items).take n)), .buffered (b :: rest))

/-- The arm of `Chaining` once the first stream has ended. -/
def chainSecond : Polled A E → Polled A E
  | (.ok none, _) => (.ok none, .exhausted)
  | (out, second) => (out, .chained second)

/-- `poll_next_chunk_with_size`, for a positive size. -/
def poll (n : ℕ) : Stream A E → Polled A E
  | .channel incoming buf closed => pollChannel n incoming buf closed
  | .directQueue incoming buf closed sharedFail =>
      pollDirectQueue n incoming buf closed sharedFail
  | .chaining first second =>
      match poll n first with
      | (.ok (some chunk), first) => (.ok (some chunk), .chaining first second)
      | (.error e, first) => (.error e, .chaining first second)
      | (.ok none, _) => chainSecond (poll n second)
  | .chained second => chainSecond (poll n second)
  | .buffered items => pollItems n items
  | .exhausted => (.ok none, .exhausted)
  | .pending none => (.ok none, .exhausted)
  | .pending (some make) =>
      match make () with
      | .ok items => pollItems n items
      | .error e => (.error e, .pending none)

/-! ## What a stream still holds -/

/-- The elements of a channel up to the message that ends it. -/
def incomingElems : List (ChannelMessage A E) → List A
  | .chunk items :: incoming => items ++ incomingElems incoming
  | _ => []

/-- The elements a stream still holds, up to an error. -/
def elems : Stream A E → List A
  | .pending none => []
  | .pending (some make) =>
      match make () with
      | .ok items => items
      | .error _ => []
  | .channel incoming buf closed => buf ++ if closed then [] else incomingElems incoming
  | .directQueue _ _ _ (some _) => []
  | .directQueue incoming buf closed none => buf ++ if closed then [] else incoming
  | .buffered items => items
  | .chaining first second => first.elems ++ second.elems
  | .chained second => second.elems
  | .exhausted => []

/-- A channel whose messages do not come to a failure. -/
def Unfailing : List (ChannelMessage A E) → Prop
  | .chunk _ :: incoming => Unfailing incoming
  | .fail _ :: _ => False
  | .endStream :: _ => True
  | [] => True

/-- Polling the stream never fails. -/
def ErrorFree : Stream A E → Prop
  | .pending none => True
  | .pending (some make) => ∃ items, make () = .ok items
  | .channel incoming _ closed => closed = true ∨ Unfailing incoming
  | .directQueue _ _ _ sharedFail => sharedFail = none
  | .buffered _ => True
  | .chaining first second => first.ErrorFree ∧ second.ErrorFree
  | .chained second => second.ErrorFree
  | .exhausted => True

/-- The answer of a poll agrees with the elements the stream held before. -/
def Serves (l : List A) : Polled A E → Prop
  | (.ok (some chunk), s) => chunk ≠ [] ∧ l = chunk ++ s.elems
  | (.ok none, _) => l = []
  | (.error _, _) => True

theorem take_ne_nil {n : ℕ} (hn : 0 < n) (a : A) (l : List A) : (a :: l).take n ≠ [] := by
  cases n with
  | zero => omega
  | succ n => simp

theorem serves_pollChannel {n : ℕ} (hn : 0 < n) (incoming : List (ChannelMessage A E))
    (buf : List A) (closed : Bool) :
    Serves (buf ++ if closed then [] else incomingElems incoming)
      (pollChannel n incoming buf closed) := by
  fun_induction pollChannel n incoming buf closed with
  | case1 incoming a buf closed =>
      refine ⟨take_ne_nil hn a buf, ?_⟩
      rw [elems, ← List.append_assoc, List.take_append_drop]
  | case2 incoming => rfl
  | case3 items incoming ih => simpa [incomingElems] using ih
  | case4 incoming => rfl
  | case5 error incoming => trivial
  | case6 => rfl

theorem serves_pollDirectQueue {n : ℕ} (hn : 0 < n) (incoming buf : List A) (closed : Bool)
    (sharedFail : Option E) :
    Serves (elems (.directQueue incoming buf closed sharedFail))
      (pollDirectQueue n incoming buf closed sharedFail) := by
  fun_cases pollDirectQueue n incoming buf closed sharedFail with
  | case1 incoming buf closed error => trivial
  | case2 incoming a buf closed =>
      refine ⟨take_ne_nil hn a buf, ?_⟩
      rw [elems, elems, ← List.append_assoc, List.take_append_drop]
  | case3 incoming => rfl
  | case4 a incoming =>
      refine ⟨take_ne_nil hn a [], ?_⟩
      rw [elems, elems, ← List.append_assoc, List.take_append_drop]
      rfl
  | case5 => rfl

theorem serves_pollItems {n : ℕ} (hn : 0 < n) (items : List A) :
    Serves items (pollItems (E := E) n items) := by
  cases items with
  | nil => rfl
  | cons a items =>
      have hcut := List.take_append_drop n (a :: items)
      simp only [pollItems]
      split
      · next hdrop =>
          rw [hdrop, List.append_nil] at hcut
          exact ⟨take_ne_nil hn a items, by rw [elems, List.append_nil, hcut]⟩
      · next b rest hdrop =>
          rw [hdrop] at hcut
          exact ⟨take_ne_nil hn a items, by rw [elems, hcut]⟩

theorem serves_chainSecond {l : List A} {out : Polled A E} (h : Serves l out) :
    Serves l (chainSecond out) := by
  fun_cases chainSecond out with
  | case1 s => exact h
  | case2 out second hne =>
      match out, h, hne with
      | .ok (some chunk), h, _ => exact h
      | .ok none, h, _ => exact h
      | .error e, _, _ => trivial

/-- **A poll serves what the stream holds**: a chunk that is not empty and comes first, or the end
    if nothing is left. -/
theorem serves_poll {n : ℕ} (hn : 0 < n) (s : Stream A E) : Serves s.elems (poll n s) := by
  induction s with
  | pending make =>
      cases make with
      | none => rfl
      | some make =>
          unfold poll elems
          cases make () with
          | ok items => exact serves_pollItems hn items
          | error e => trivial
  | channel incoming buf closed => exact serves_pollChannel hn incoming buf closed
  | directQueue incoming buf closed sharedFail =>
      exact serves_pollDirectQueue hn incoming buf closed sharedFail
  | buffered items => exact serves_pollItems hn items
  | chaining first second ihfirst ihsecond =>
      unfold poll
      split
      · next chunk first' hpoll =>
          rw [hpoll] at ihfirst
          exact ⟨ihfirst.1, by rw [elems, elems, ihfirst.2, List.append_assoc]⟩
      · trivial
      · next first' hpoll =>
          rw [hpoll] at ihfirst
          rw [elems, show first.elems = [] from ihfirst, List.nil_append]
          exact serves_chainSecond ihsecond
  | chained second ih => exact serves_chainSecond ih
  | exhausted => rfl

/-! ## Streams that do not fail -/

/-- The answer is no error, and none can follow. -/
def Sound : Polled A E → Prop
  | (.ok _, s) => s.ErrorFree
  | (.error _, _) => False

theorem sound_pollChannel (n : ℕ) (incoming : List (ChannelMessage A E)) (buf : List A)
    (closed : Bool) (h : closed = true ∨ Unfailing incoming) :
    Sound (pollChannel n incoming buf closed) := by
  fun_induction pollChannel n incoming buf closed with
  | case1 incoming a buf closed => exact h
  | case2 incoming => trivial
  | case3 items incoming ih => exact ih (.inr (h.resolve_left Bool.false_ne_true))
  | case4 incoming => trivial
  | case5 error incoming => exact h.resolve_left Bool.false_ne_true
  | case6 => trivial

theorem sound_pollDirectQueue (n : ℕ) (incoming buf : List A) (closed : Bool) :
    Sound (pollDirectQueue (E := E) n incoming buf closed none) := by
  match incoming, buf, closed with
  | _, _ :: _, _ => rfl
  | _, [], true => trivial
  | _ :: _, [], false => rfl
  | [], [], false => trivial

theorem sound_pollItems (n : ℕ) (items : List A) : Sound (pollItems (E := E) n items) := by
  fun_cases pollItems n items <;> trivial

theorem sound_chainSecond {out : Polled A E} (h : Sound out) : Sound (chainSecond out) := by
  fun_cases chainSecond out with
  | case1 s => trivial
  | case2 out second hne =>
      match out, h with
      | .ok _, h => exact h

theorem sound_poll (n : ℕ) (s : Stream A E) (h : s.ErrorFree) : Sound (poll n s) := by
  induction s with
  | pending make =>
      cases make with
      | none => trivial
      | some make =>
          obtain ⟨items, hmake⟩ := h
          unfold poll
          rw [hmake]
          exact sound_pollItems n items
  | channel incoming buf closed => exact sound_pollChannel n incoming buf closed h
  | directQueue incoming buf closed sharedFail =>
      obtain rfl : sharedFail = none := h
      exact sound_pollDirectQueue n incoming buf closed
  | buffered items => exact sound_pollItems n items
  | chaining first second ihfirst ihsecond =>
      have hfirst := ihfirst h.1
      unfold poll
      split
      · next chunk first' hpoll =>
          rw [hpoll] at hfirst
          exact ⟨hfirst, h.2⟩
      · next e first' hpoll =>
          rw [hpoll] at hfirst
          exact hfirst
      · exact sound_chainSecond (ihsecond h.2)
  | chained second ih => exact sound_chainSecond (ih h)
  | exhausted => trivial

/-! ## Draining -/

/-- `poll_next_chunk`. -/
def chunkSize : ℕ := 64

/-- Every chunk takes elements away, so a stream is polled to its end. -/
def pull (A E : Type) : Pull (Stream A E) A E where
  poll := poll chunkSize
  size := fun s => s.elems.length
  size_lt := by
    intro s s' chunk hpoll
    have hserves := serves_poll (n := chunkSize) (by decide) s
    rw [hpoll] at hserves
    have hpos := List.length_pos_of_ne_nil hserves.1
    rw [hserves.2, List.length_append]
    omega

/-- A stream that does not fail delivers what it holds. -/
theorem delivers_of_errorFree (s : Stream A E) (h : s.ErrorFree) :
    (pull A E).Delivers s s.elems := by
  induction hlen : s.elems.length using Nat.strongRecOn generalizing s with
  | ind len ih =>
      have hserves := serves_poll (n := chunkSize) (by decide) s
      have hsound := sound_poll chunkSize s h
      cases hpoll : poll chunkSize s with
      | mk out s' =>
          rw [hpoll] at hserves hsound
          match out, hpoll, hserves, hsound with
          | .ok none, hpoll, hserves, _ =>
              rw [show s.elems = [] from hserves]
              exact .done hpoll
          | .ok (some chunk), hpoll, hserves, hsound =>
              have hlt : s'.elems.length < s.elems.length := (pull A E).size_lt hpoll
              rw [hserves.2]
              exact .chunk hpoll (ih _ (hlen ▸ hlt) s' hsound rfl)

end Stream

end IdEffect.Streaming
