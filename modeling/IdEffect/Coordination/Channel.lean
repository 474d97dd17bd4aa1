import IdEffect.Streaming.Stream

set_option autoImplicit false

/-! # Channels: `coordination/channel.rs`

A channel hands out what it takes from a queue or from a stream. The output combinators do not form
a chain: `flat_map_out` adds to an expansion that is applied to what is taken, `map_out` to a
function that is applied to what is handed out, and what cannot be handed out at once waits in
`pending`.

A channel over a stream takes a chunk at a time and puts its rest into `pending` as well, where it
is behind the expansion: only the first element of a chunk is expanded, and the rest of the chunk
comes between its first output and the others (`readAll_eq`). So `flat_map_out` expands the stream,
whatever its function, exactly if no chunk has a second element (`flatMapOut_expands_iff`). -/

namespace IdEffect.Channel

variable {S A In Out E : Type}

/-! ## The output side -/

/-- The output combinators of a channel, in all its variants. -/
structure Outlet (Out : Type) where
  flatMapOut : Option (Out → List Out)
  postRead : Out → Out

namespace Outlet

/-- A new channel. -/
def new : Outlet Out := ⟨none, fun o => o⟩

def mapOut (o : Outlet Out) (f : Out → Out) : Outlet Out :=
  { o with postRead := fun x => f (o.postRead x) }

/-- `Channel::flat_map_out` -/
def thenFlatMapOut (o : Outlet Out) (f : Out → List Out) : Outlet Out :=
  { o with
    flatMapOut := some fun x =>
      let mid := match o.flatMapOut with
        | some p => p x
        | none => [x]
      mid.flatMap f }

/-- What `read` makes of an element it has taken. -/
def expand (o : Outlet Out) (wire : Out) : List Out :=
  match o.flatMapOut with
  | some f => f wire
  | none => [wire]

/-- What is handed out for an element, in all. -/
def outputs (o : Outlet Out) (wire : Out) : List Out := (o.expand wire).map o.postRead

@[simp] theorem expand_new (wire : Out) : (new : Outlet Out).expand wire = [wire] := rfl

end Outlet

/-! ## Channels over a stream -/

/-- The loop in `read` that polls until a chunk has an element; the rest of the chunk goes to
    `pending`. -/
def pullWire (p : Pull S A E) (stream : S) : Except E (Option (A × List A)) × S :=
  match _h : p.poll stream with
  | (.ok none, stream') => (.ok none, stream')
  | (.ok (some []), stream') => pullWire p stream'
  | (.ok (some (first :: rest)), stream') => (.ok (some (first, rest)), stream')
  | (.error e, stream') => (.error e, stream')
termination_by p.size stream
decreasing_by exact p.size_lt _h

theorem pullWire_of_none {p : Pull S A E} {stream stream' : S}
    (h : p.poll stream = (.ok none, stream')) : pullWire p stream = (.ok none, stream') := by
  rw [pullWire]
  split <;> simp_all

theorem pullWire_of_nil {p : Pull S A E} {stream stream' : S}
    (h : p.poll stream = (.ok (some []), stream')) : pullWire p stream = pullWire p stream' := by
  rw [pullWire]
  split <;> simp_all

theorem pullWire_of_cons {p : Pull S A E} {stream stream' : S} {first : A} {rest : List A}
    (h : p.poll stream = (.ok (some (first :: rest)), stream')) :
    pullWire p stream = (.ok (some (first, rest)), stream') := by
  rw [pullWire]
  split <;> simp_all

theorem pullWire_size {p : Pull S A E} {stream stream' : S} {wire : A × List A}
    (h : pullWire p stream = (.ok (some wire), stream')) : p.size stream' < p.size stream := by
  fun_induction pullWire p stream with
  | case1 => cases h
  | case2 stream stream'' hpoll ih => exact Nat.lt_trans (ih h) (p.size_lt hpoll)
  | case3 stream first rest stream'' hpoll =>
      cases h
      exact p.size_lt hpoll
  | case4 => cases h

/-- The cells of a `FromStream`. -/
structure FromStream (S A : Type) where
  stream : S
  pending : List A

namespace FromStream

/-- `Channel::from_stream` -/
def new (stream : S) : FromStream S A := ⟨stream, []⟩

/-- `Channel::read`. When the expansion of an element is empty, the loop goes on with what is
    pending. -/
def read (o : Outlet A) (p : Pull S A E) (st : FromStream S A) :
    Except E (Option A) × FromStream S A :=
  match st.pending with
  | x :: pending => (.ok (some (o.postRead x)), { st with pending := pending })
  | [] =>
      match _h : pullWire p st.stream with
      | (.error e, stream) => (.error e, ⟨stream, []⟩)
      | (.ok none, stream) => (.ok none, ⟨stream, []⟩)
      | (.ok (some (wire, rest)), stream) =>
          match o.expand wire with
          | [] => read o p ⟨stream, rest⟩
          | first :: buf => (.ok (some (o.postRead first)), ⟨stream, rest ++ buf⟩)
termination_by p.size st.stream
decreasing_by exact pullWire_size _h

theorem read_lt {o : Outlet A} {p : Pull S A E} {st st' : FromStream S A} {v : A}
    (h : st.read o p = (.ok (some v), st')) :
    Prod.Lex (· < ·) (· < ·) (p.size st'.stream, st'.pending.length)
      (p.size st.stream, st.pending.length) := by
  fun_induction read o p st with
  | case1 st x pending hpending =>
      cases h
      exact .right _ (by simp [hpending])
  | case2 | case3 => cases h
  | case4 st hpending wire rest stream hpull hexpand ih =>
      have hlt := pullWire_size hpull
      rcases Prod.lex_def.1 (ih h) with hrest | ⟨heq, -⟩
      · exact .left _ _ (Nat.lt_trans hrest hlt)
      · exact .left _ _ (lt_of_eq_of_lt heq hlt)
  | case5 st hpending wire rest stream hpull first buf hexpand =>
      cases h
      exact .left _ _ (pullWire_size hpull)

/-- `read` again and again, until it returns `None`. -/
def readAll (o : Outlet A) (p : Pull S A E) (st : FromStream S A) : Except E (List A) :=
  match _h : st.read o p with
  | (.ok none, _) => .ok []
  | (.ok (some v), st') => (readAll o p st').map (v :: ·)
  | (.error e, _) => .error e
termination_by (p.size st.stream, st.pending.length)
decreasing_by exact read_lt _h

/-! ## What is read of a stream -/

/-- What is handed out of a chunk: the first element is expanded, and the others come after the
    first output. -/
def chunkOutputs (o : Outlet A) : List A → List A
  | [] => []
  | wire :: rest => ((o.expand wire).take 1 ++ rest ++ (o.expand wire).drop 1).map o.postRead

variable {o : Outlet A} {p : Pull S A E}

theorem read_nil (stream : S) :
    read o p ⟨stream, []⟩ =
      match pullWire p stream with
      | (.error e, stream) => (.error e, ⟨stream, []⟩)
      | (.ok none, stream) => (.ok none, ⟨stream, []⟩)
      | (.ok (some (wire, rest)), stream) =>
          match o.expand wire with
          | [] => read o p ⟨stream, rest⟩
          | first :: buf => (.ok (some (o.postRead first)), ⟨stream, rest ++ buf⟩) := by
  rw [read]
  dsimp only
  split <;> simp_all

theorem read_cons (stream : S) (x : A) (pending : List A) :
    read o p ⟨stream, x :: pending⟩ = (.ok (some (o.postRead x)), ⟨stream, pending⟩) := by
  rw [read]

theorem readAll_eq_read (st : FromStream S A) :
    st.readAll o p =
      match st.read o p with
      | (.ok none, _) => .ok []
      | (.ok (some v), st') => (st'.readAll o p).map (v :: ·)
      | (.error e, _) => .error e := by
  rw [readAll]
  split <;> simp_all

theorem readAll_pending {stream : S} {out : List A} (h : readAll o p ⟨stream, []⟩ = .ok out)
    (pending : List A) :
    readAll o p ⟨stream, pending⟩ = .ok (pending.map o.postRead ++ out) := by
  induction pending with
  | nil => exact h
  | cons x pending ih =>
      rw [readAll_eq_read, read_cons]
      simp only [ih]
      rfl

/-- **What is read of a stream**, by induction on its chunks. -/
theorem readAll_eq {stream : S} {chunks : List (List A)} (h : p.Chunked stream chunks) :
    readAll o p (new stream) = .ok (chunks.flatMap (chunkOutputs o)) := by
  induction h with
  | done hpoll => rw [new, readAll_eq_read, read_nil, pullWire_of_none hpoll, List.flatMap_nil]
  | @chunk s s' chunk chunks hpoll hrest ih =>
      rw [new] at ih ⊢
      rw [List.flatMap_cons]
      cases chunk with
      | nil =>
          rw [readAll_eq_read, read_nil, pullWire_of_nil hpoll, ← read_nil, ← readAll_eq_read, ih]
          rfl
      | cons wire rest =>
          rw [readAll_eq_read, read_nil, pullWire_of_cons hpoll, chunkOutputs]
          cases hexpand : o.expand wire with
          | nil =>
              simp only [hexpand]
              rw [← readAll_eq_read, readAll_pending ih]
              simp
          | cons first buf =>
              simp only [hexpand]
              rw [readAll_pending ih]
              simp [Except.map]

/-! ## The expansion of a stream -/

/-- A chunk with its first element expanded around the others. -/
def around (f : A → List A) : List A → List A
  | [] => []
  | x :: rest => (f x).take 1 ++ rest ++ (f x).drop 1

/-- That is the expansion of all elements. -/
def Expands (f : A → List A) (chunks : List (List A)) : Prop :=
  chunks.flatMap (around f) = chunks.flatten.flatMap f

theorem chunkOutputs_flatMapOut (f : A → List A) (chunk : List A) :
    chunkOutputs (Outlet.new.thenFlatMapOut f) chunk = around f chunk := by
  cases chunk with
  | nil => rfl
  | cons x rest =>
      have hexpand : (Outlet.new.thenFlatMapOut f).expand x = f x := List.flatMap_singleton f x
      rw [chunkOutputs, hexpand]
      exact List.map_id _

theorem expands_of_short {chunks : List (List A)} (h : ∀ chunk ∈ chunks, chunk.length ≤ 1)
    (f : A → List A) : Expands f chunks := by
  induction chunks with
  | nil => rfl
  | cons chunk chunks ih =>
      have hrest := ih fun c hc => h c (List.mem_cons_of_mem chunk hc)
      rw [Expands] at hrest ⊢
      rw [List.flatMap_cons, hrest, List.flatten_cons, List.flatMap_append]
      cases chunk with
      | nil => rfl
      | cons wire rest =>
          have hlen := h _ List.mem_cons_self
          obtain rfl : rest = [] := by
            rw [← List.length_eq_zero_iff]
            simpa using hlen
          rw [around, List.append_nil, List.take_append_drop, List.flatMap_singleton]

/-- If all is to be expanded to nothing, a chunk with a second element gives it away. -/
theorem short_of_expands {chunks : List (List A)} (h : Expands (fun _ => []) chunks) :
    ∀ chunk ∈ chunks, chunk.length ≤ 1 := by
  intro chunk hchunk
  have hall : chunks.flatMap (around fun _ => []) = [] := h.trans (by simp)
  have hnil := List.flatMap_eq_nil_iff.1 hall chunk hchunk
  cases chunk with
  | nil => simp
  | cons x rest =>
      simp only [around, List.take_nil, List.nil_append, List.drop_nil, List.append_nil] at hnil
      simp [hnil]

/-- **What `flat_map_out` makes of a stream.** Reading a stream in chunks to its end gives the
    expansion of its elements, whatever the function, exactly if no chunk has a second element; for
    one function, exactly if the chunks come out as their expansion when only the first element of
    each is expanded, around the others. -/
theorem flatMapOut_expands_iff {p : Pull S A E} {stream : S} {chunks : List (List A)}
    (h : p.Chunked stream chunks) :
    ((∀ f : A → List A, (new stream).readAll (Outlet.new.thenFlatMapOut f) p =
        .ok (chunks.flatten.flatMap f)) ↔ ∀ chunk ∈ chunks, chunk.length ≤ 1) ∧
      ∀ f : A → List A, (new stream).readAll (Outlet.new.thenFlatMapOut f) p =
        .ok (chunks.flatten.flatMap f) ↔ Expands f chunks := by
  have hread : ∀ f : A → List A, (new stream).readAll (Outlet.new.thenFlatMapOut f) p =
      .ok (chunks.flatten.flatMap f) ↔ Expands f chunks := by
    intro f
    have houtputs : chunkOutputs (Outlet.new.thenFlatMapOut f) = around f :=
      funext (chunkOutputs_flatMapOut f)
    rw [readAll_eq h, houtputs, Except.ok.injEq, Expands]
  refine ⟨⟨fun hall => ?_, fun hshort f => ?_⟩, hread⟩
  · exact short_of_expands ((hread _).1 (hall _))
  · exact (hread f).2 (expands_of_short hshort f)

/-- Two elements that come in a chunk each. -/
theorem flatMapOut_expands_iff_single :
    (new (.channel [.chunk [1], .chunk [2]] [] false)).readAll
      (Outlet.new.thenFlatMapOut fun x => [x, x + 100]) (Streaming.Stream.pull ℕ Unit) =
        .ok [1, 101, 2, 102] := by
  have hchunks : (Streaming.Stream.pull ℕ Unit).Chunked
      (.channel [.chunk [1], .chunk [2]] [] false) [[1], [2]] :=
    .chunk rfl (.chunk rfl (.done rfl))
  exact (flatMapOut_expands_iff hchunks).1.2 (by decide) _

/-- Two elements in one chunk: the second one comes in the middle, unexpanded. -/
theorem flatMapOut_skips_rest_of_chunk :
    ¬ ∀ (stream : Streaming.Stream ℕ Unit) (chunks : List (List ℕ)) (f : ℕ → List ℕ),
      (Streaming.Stream.pull ℕ Unit).Chunked stream chunks →
      (new stream).readAll (Outlet.new.thenFlatMapOut f) (Streaming.Stream.pull ℕ Unit) =
        .ok (chunks.flatten.flatMap f) := by
  intro hall
  have hchunks : (Streaming.Stream.pull ℕ Unit).Chunked (.buffered [1, 2]) [[1, 2]] :=
    .chunk rfl (.done rfl)
  have hread := hall _ _ (fun x => [x, x + 100]) hchunks
  rw [readAll_eq hchunks, Except.ok.injEq] at hread
  exact absurd hread (by decide)

end FromStream

end IdEffect.Channel
