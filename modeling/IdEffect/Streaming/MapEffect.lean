import IdEffect.Lib.Groups
import IdEffect.Streaming.Combinators

set_option autoImplicit false

/-! # Mapping with effects: `Stream::map_effect`

`map_effect` takes one chunk of its upstream after the other. The effects of a chunk run at the same
time, and their results come in as they complete; they carry the index of their element and are
sorted by it. So the order of completion is not seen in what is put out. It decides which error is
the one of the stream if several effects of a chunk fail: the first one that came in
(`mapEffect_in_order`).

An effect is given by what it comes to, a value or an error, for the element at each position of the
stream. How many effects run at once only leaves out orders of completion, and is left out. -/

namespace IdEffect.Streaming

open Pull

variable {A B E E2 : Type}

/-- The order in which `buffer_unordered(permits).collect()` has the results of a chunk. Any order
    may come about, also one that depends on the results. -/
structure Completion (T : Type) where
  arrange : ℕ → List T → List T
  perm : ∀ base results, (arrange base results).Perm results

/-- The futures of a chunk, in the order of the chunk. -/
def chunkTasks (outcome : ℕ → A → Except E2 B) (base : ℕ) (chunk : List A) :
    List (Except E2 (ℕ × B)) :=
  chunk.mapIdx fun idx item => (outcome (base + idx) item).map fun b => (idx, b)

/-- The `for` over the results, which returns on an error. -/
def pushPairs : List (ℕ × B) → List (Except E2 (ℕ × B)) → Except E2 (List (ℕ × B))
  | pairs, [] => .ok pairs
  | pairs, .ok pair :: results => pushPairs (pairs ++ [pair]) results
  | _, .error e :: _ => .error e

/-- The body of the `loop` of `map_effect`. The error is what it has returned. -/
def mapEffectChunk (order : Completion (Except E2 (ℕ × B))) (outcome : ℕ → A → Except E2 B) :
    List B × Option E2 → List A → Loop (List B × Option E2)
  | (out, _), chunk =>
      let base := out.length
      match pushPairs [] (order.arrange base (chunkTasks outcome base chunk)) with
      | .ok pairs => .next (out ++ (sortByKey pairs).map Prod.snd, none)
      | .error e => .stop (out, some e)

/-- `Stream::map_effect`. The left errors are those of the upstream, the right ones those of the
    effects. -/
def Stream.mapEffect (order : Completion (Except E2 (ℕ × B))) (outcome : ℕ → A → Except E2 B)
    (upstream : Stream A E) : Stream B (E ⊕ E2) :=
  .pending (some fun _ =>
    match (pull A E).drain (fun _ => true) (mapEffectChunk order outcome) ([], none) upstream with
    | .error e => .error (.inl e)
    | .ok (_, some e) => .error (.inr e)
    | .ok (out, none) => .ok out)

/-! ## One chunk -/

/-- What the effects of the elements come to, the first of which is at the position `base`. -/
def outcomes (outcome : ℕ → A → Except E2 B) (base : ℕ) (l : List A) : List (Except E2 B) :=
  l.mapIdx fun idx item => outcome (base + idx) item

section

variable {outcome : ℕ → A → Except E2 B} {base : ℕ}

theorem outcomes_append (l l' : List A) :
    outcomes outcome base (l ++ l') =
      outcomes outcome base l ++ outcomes outcome (base + l.length) l' := by
  unfold outcomes
  rw [List.mapIdx_append]
  congr 1
  refine List.mapIdx_eq_mapIdx_iff.2 fun i hi => ?_
  rw [Nat.add_assoc, Nat.add_comm i]

theorem pushPairs_ok {results : List (Except E2 (ℕ × B))} (h : ∀ r ∈ results, ∃ x, r = .ok x)
    (pairs : List (ℕ × B)) :
    pushPairs pairs results = .ok (pairs ++ results.filterMap Except.toOption) := by
  induction results generalizing pairs with
  | nil => rw [pushPairs, List.filterMap_nil, List.append_nil]
  | cons r results ih =>
      obtain ⟨x, rfl⟩ := h r List.mem_cons_self
      rw [pushPairs, ih fun r hr => h r (List.mem_cons_of_mem _ hr)]
      simp [Except.toOption]

theorem pushPairs_error {results : List (Except E2 (ℕ × B))} {e : E2} (h : .error e ∈ results)
    (pairs : List (ℕ × B)) :
    ∃ e, .error e ∈ results ∧ pushPairs pairs results = .error e := by
  induction results generalizing pairs with
  | nil => cases h
  | cons r results ih =>
      cases r with
      | error e' => exact ⟨e', List.mem_cons_self, rfl⟩
      | ok x =>
          have hrest : .error e ∈ results := by simpa using h
          obtain ⟨e', hmem, hpush⟩ := ih hrest (pairs ++ [x])
          exact ⟨e', List.mem_cons_of_mem _ hmem, hpush⟩

theorem chunkTasks_ok {chunk : List A} {bs : List B}
    (h : outcomes outcome base chunk = bs.map .ok) :
    chunkTasks outcome base chunk = (bs.mapIdx Prod.mk).map .ok := by
  have htasks : chunkTasks outcome base chunk =
      (outcomes outcome base chunk).mapIdx fun idx r => r.map fun b => (idx, b) := by
    rw [outcomes, List.mapIdx_mapIdx]
    rfl
  rw [htasks, h]
  refine List.ext_getElem (by simp) fun i _ _ => ?_
  simp [Except.map]

theorem error_mem_chunkTasks {chunk : List A} {e : E2} :
    .error e ∈ chunkTasks outcome base chunk ↔ .error e ∈ outcomes outcome base chunk := by
  unfold chunkTasks outcomes
  rw [List.mem_mapIdx, List.mem_mapIdx]
  refine exists_congr fun i => exists_congr fun hi => ?_
  cases outcome (base + i) chunk[i] with
  | ok b => simp [Except.map]
  | error e' => simp [Except.map]

/-- The pairs of a chunk, sorted by their indices. -/
theorem sortByKey_pairs {pairs : List (ℕ × B)} {bs : List B}
    (h : pairs.Perm (bs.mapIdx Prod.mk)) : (sortByKey pairs).map Prod.snd = bs := by
  have hsorted : (bs.mapIdx Prod.mk).Pairwise fun x y : ℕ × B => x.1 < y.1 := by
    rw [List.pairwise_iff_getElem]
    intro i j hi hj hij
    simpa using hij
  rw [sortByKey_eq_of_perm h hsorted]
  refine List.ext_getElem (by simp) fun i _ _ => ?_
  simp

/-- If the effects of a chunk succeed, their values are put out in the order of the chunk. -/
theorem mapEffectChunk_ok (order : Completion (Except E2 (ℕ × B))) {out : List B} {chunk : List A}
    {bs : List B} (h : outcomes outcome out.length chunk = bs.map .ok) :
    mapEffectChunk order outcome (out, none) chunk = .next (out ++ bs, none) := by
  have hperm := order.perm out.length (chunkTasks outcome out.length chunk)
  have htasks := chunkTasks_ok h
  have hok : ∀ r ∈ order.arrange out.length (chunkTasks outcome out.length chunk),
      ∃ x, r = .ok x := by
    intro r hr
    rw [hperm.mem_iff, htasks] at hr
    obtain ⟨x, -, hx⟩ := List.mem_map.1 hr
    exact ⟨x, hx.symm⟩
  have hpairs : ((order.arrange out.length (chunkTasks outcome out.length chunk)).filterMap
      Except.toOption).Perm (bs.mapIdx Prod.mk) := by
    refine (hperm.filterMap Except.toOption).trans ?_
    rw [htasks, List.filterMap_map]
    exact List.Perm.of_eq (List.filterMap_some ..)
  rw [mapEffectChunk, pushPairs_ok hok, List.nil_append]
  simp only [sortByKey_pairs hpairs]

/-- If one fails, the loop returns an error of the chunk. -/
theorem mapEffectChunk_error (order : Completion (Except E2 (ℕ × B))) (out : List B)
    {chunk : List A} {e : E2} (h : .error e ∈ outcomes outcome out.length chunk) :
    ∃ e, .error e ∈ outcomes outcome out.length chunk ∧
      mapEffectChunk order outcome (out, none) chunk = .stop (out, some e) := by
  have hperm := order.perm out.length (chunkTasks outcome out.length chunk)
  obtain ⟨e', hmem, hpush⟩ :=
    pushPairs_error (hperm.mem_iff.2 (error_mem_chunkTasks.2 h)) []
  refine ⟨e', error_mem_chunkTasks.1 (hperm.mem_iff.1 hmem), ?_⟩
  rw [mapEffectChunk, hpush]

/-! ## All chunks -/

/-- Chunks whose effects succeed are put out, and the loop goes on with the others. -/
theorem afterChunks_ok (order : Completion (Except E2 (ℕ × B))) (ending : Except E Unit)
    {chunks : List (List A)} {out bs : List B}
    (h : outcomes outcome out.length chunks.flatten = bs.map .ok) (rest : List (List A)) :
    afterChunks (mapEffectChunk order outcome) ending (out, none) (chunks ++ rest) =
      afterChunks (mapEffectChunk order outcome) ending (out ++ bs, none) rest := by
  induction chunks generalizing out bs with
  | nil =>
      have hnil : bs = [] := List.map_eq_nil_iff.1 h.symm
      rw [hnil, List.append_nil, List.nil_append]
  | cons chunk chunks ih =>
      rw [List.flatten_cons, outcomes_append] at h
      obtain ⟨bs₁, bs₂, rfl, hfirst, hrest⟩ := List.map_eq_append_iff.1 h.symm
      have hlen : out.length + chunk.length = (out ++ bs₁).length := by
        have := congrArg List.length hfirst
        simp only [outcomes, List.length_map, List.length_mapIdx] at this
        rw [List.length_append, this]
      rw [hlen] at hrest
      rw [List.cons_append, afterChunks, mapEffectChunk_ok order hfirst.symm]
      exact (ih hrest.symm).trans (by rw [List.append_assoc])

end

namespace Stream

/-- The chunks the stream delivers until it ends or fails. -/
def chunks (s : Stream A E) : List (List A) := ((pull A E).polls s).1

/-- Whether it ends or fails. -/
def ending (s : Stream A E) : Except E Unit := ((pull A E).polls s).2

/-- The stream puts out nothing: its first poll fails, and it has ended then. -/
structure Fails (s : Stream A E) (e : E) : Prop where
  poll : ∀ n, s.poll n = (.error e, .pending none)
  collected : ∀ interrupted : ℕ → Bool, interrupted 0 = false → s.runCollect interrupted = .error e

theorem fails_pending {make : Unit → Except E (List A)} {e : E} (h : make () = .error e) :
    (Stream.pending (some make)).Fails e := by
  have hpoll : ∀ n, (Stream.pending (some make)).poll n = (.error e, .pending none) := by
    intro n
    rw [poll, h]
  refine ⟨hpoll, fun interrupted hrun => ?_⟩
  rw [runCollect, drain_of_error (by simp [hrun]) (hpoll chunkSize)]
  rfl

section

variable {outcome : ℕ → A → Except E2 B} {upstream : Stream A E}

theorem mapEffect_of_ok (order : Completion (Except E2 (ℕ × B))) {bs : List B}
    (h : outcomes outcome 0 upstream.chunks.flatten = bs.map .ok) :
    (pull A E).drain (fun _ => true) (mapEffectChunk order outcome) ([], none) upstream =
      upstream.ending.map fun _ => (bs, none) := by
  have hrun : afterChunks (mapEffectChunk order outcome) upstream.ending ([], none)
      (upstream.chunks ++ []) = upstream.ending.map fun _ => ([] ++ bs, none) :=
    afterChunks_ok order upstream.ending h []
  rw [List.append_nil, List.nil_append] at hrun
  exact (drain_eq_afterChunks ..).trans hrun

theorem yields_mapEffect (order : Completion (Except E2 (ℕ × B))) {bs : List B}
    (h : outcomes outcome 0 upstream.chunks.flatten = bs.map .ok)
    (hend : upstream.ending = .ok ()) : (upstream.mapEffect order outcome).Yields bs := by
  refine yields_pending ?_
  rw [mapEffect_of_ok order h, hend]
  rfl

/-- Like the other combinators, `map_effect` maps the list of an upstream that does not fail. -/
theorem Yields.mapEffect {l : List A} {bs : List B} (hupstream : upstream.Yields l)
    (order : Completion (Except E2 (ℕ × B))) (h : outcomes outcome 0 l = bs.map .ok) :
    (upstream.mapEffect order outcome).Yields bs := by
  obtain ⟨hflatten, hend⟩ := polls_of_delivers hupstream.delivers
  exact yields_mapEffect order (hflatten ▸ h) hend

theorem mapEffect_fails_of_upstream (order : Completion (Except E2 (ℕ × B))) {bs : List B} {e : E}
    (h : outcomes outcome 0 upstream.chunks.flatten = bs.map .ok)
    (hend : upstream.ending = .error e) : (upstream.mapEffect order outcome).Fails (.inl e) := by
  refine fails_pending ?_
  rw [mapEffect_of_ok order h, hend]
  rfl

theorem mapEffect_fails_of_effect (order : Completion (Except E2 (ℕ × B)))
    {before after : List (List A)} {chunk : List A} {bs : List B} {e : E2}
    (hchunks : upstream.chunks = before ++ chunk :: after)
    (hbs : outcomes outcome 0 before.flatten = bs.map .ok)
    (hfail : .error e ∈ outcomes outcome before.flatten.length chunk) :
    ∃ e, .error e ∈ outcomes outcome before.flatten.length chunk ∧
      (upstream.mapEffect order outcome).Fails (.inr e) := by
  have hlen : before.flatten.length = bs.length := by
    have := congrArg List.length hbs
    simpa only [outcomes, List.length_map, List.length_mapIdx] using this
  rw [hlen] at hfail ⊢
  obtain ⟨e', hmem, hstop⟩ := mapEffectChunk_error order bs hfail
  have hrun : (pull A E).drain (fun _ => true) (mapEffectChunk order outcome) ([], none) upstream =
      .ok (bs, some e') := by
    have hfirst : afterChunks (mapEffectChunk order outcome) upstream.ending ([], none)
        (before ++ chunk :: after) = afterChunks (mapEffectChunk order outcome) upstream.ending
          ([] ++ bs, none) (chunk :: after) :=
      afterChunks_ok order upstream.ending hbs (chunk :: after)
    rw [← hchunks, List.nil_append, afterChunks, hstop] at hfirst
    exact (drain_eq_afterChunks ..).trans hfirst
  refine ⟨e', hmem, fails_pending ?_⟩
  rw [hrun]

end

/-- **The order of completion is not seen.** If all effects succeed, their values are collected in
    the order of the stream, unless the upstream fails, which the stream then does too. If an effect
    fails, the stream fails with an error of the first chunk with one and puts out nothing. -/
theorem mapEffect_in_order (order : Completion (Except E2 (ℕ × B))) (outcome : ℕ → A → Except E2 B)
    (upstream : Stream A E) :
    (∀ bs, outcomes outcome 0 upstream.chunks.flatten = bs.map .ok →
      (upstream.ending = .ok () →
        (upstream.mapEffect order outcome).Yields bs ∧
          (upstream.mapEffect order outcome).Collects bs) ∧
      ∀ e, upstream.ending = .error e → (upstream.mapEffect order outcome).Fails (.inl e)) ∧
    ∀ before chunk after (bs : List B), upstream.chunks = before ++ chunk :: after →
      outcomes outcome 0 before.flatten = bs.map .ok →
      (∃ e, .error e ∈ outcomes outcome before.flatten.length chunk) →
      ∃ e, .error e ∈ outcomes outcome before.flatten.length chunk ∧
        (upstream.mapEffect order outcome).Fails (.inr e) := by
  constructor
  · intro bs hbs
    refine ⟨fun hend => ?_, fun e hend => mapEffect_fails_of_upstream order hbs hend⟩
    have hyields := yields_mapEffect order hbs hend
    exact ⟨hyields, hyields.collects⟩
  · rintro before chunk after bs hchunks hbs ⟨e, hfail⟩
    exact mapEffect_fails_of_effect order hchunks hbs hfail

theorem mapEffect_in_order_reversed :
    ((Stream.buffered [1, 2] : Stream ℕ ℕ).mapEffect
      ⟨fun _ => List.reverse, fun _ results => results.reverse_perm⟩
      fun _ n => (.ok (10 * n) : Except ℕ ℕ)).Collects [10, 20] := by
  have hpoll : (pull ℕ ℕ).poll (.buffered [1, 2]) = (.ok (some [1, 2]), .exhausted) := rfl
  have hend : (pull ℕ ℕ).poll .exhausted = (.ok none, .exhausted) := rfl
  have hpolls : (pull ℕ ℕ).polls (.buffered [1, 2]) = ([[1, 2]], .ok ()) := by
    rw [polls_of_chunk hpoll, polls_of_none hend]
  refine (((mapEffect_in_order _ _ _).1 [10, 20] ?_).1 ?_).2
  · rw [chunks, hpolls]
    rfl
  · rw [ending, hpolls]

/-- If the upstream fails, the values of the effects that succeeded before are not collected. -/
theorem mapEffect_upstream_fails :
    ¬ ∀ (upstream : Stream ℕ ℕ) (order : Completion (Except ℕ (ℕ × ℕ)))
      (outcome : ℕ → ℕ → Except ℕ ℕ) (bs : List ℕ),
      outcomes outcome 0 upstream.chunks.flatten = bs.map .ok →
        (upstream.mapEffect order outcome).Collects bs := by
  intro hall
  have hpoll : (pull ℕ ℕ).poll (.channel [.chunk [1], .fail 7] [] false) =
      (.ok (some [1]), .channel [.fail 7] [] false) := rfl
  have hpoll' : (pull ℕ ℕ).poll (.channel [.fail 7] [] false) =
      (.error 7, .channel [] [] false) := rfl
  have hpolls : (pull ℕ ℕ).polls (.channel [.chunk [1], .fail 7] [] false) = ([[1]], .error 7) := by
    rw [polls_of_chunk hpoll, polls_of_error hpoll']
  have hok : outcomes (fun _ n => (.ok n : Except ℕ ℕ)) 0
      (Stream.channel [.chunk [1], .fail 7] [] false : Stream ℕ ℕ).chunks.flatten =
        [1].map .ok := by
    rw [chunks, hpolls]
    rfl
  have hend : (Stream.channel [.chunk [1], .fail 7] [] false : Stream ℕ ℕ).ending = .error 7 := by
    rw [ending, hpolls]
  have hfails := mapEffect_fails_of_upstream ⟨fun _ results => results, fun _ _ => .rfl⟩ hok hend
  have hcollect := hall _ ⟨fun _ results => results, fun _ _ => .rfl⟩ _ _ hok (fun _ => false)
    fun _ => rfl
  rw [hfails.collected _ rfl] at hcollect
  cases hcollect

end Stream

end IdEffect.Streaming
