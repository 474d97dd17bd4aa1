import IdEffect.Coordination.Queue
import IdEffect.Streaming.Combinators

set_option autoImplicit false

/-! # Fold sinks: `streaming/sink.rs` and `coordination/channel.rs`

The driver of a fold sink writes the elements of a stream to a fold channel, which has an
accumulator, and returns the accumulator. The channel is made with the sink, and all clones of the
sink share it: nothing sets the accumulator back, so a run goes on from where the runs before it
ended. A run returns the fold of its own stream exactly if it does not matter that the fold starts
there (`sink_reusable_iff`). -/

namespace IdEffect.Streaming

open Pull

variable {A B In Out E : Type}

/-! ## Fold channels -/

structure FoldState (Out In : Type) where
  init : Out
  f : Out → In → Out

/-- The cells of a fold channel that its writers use. -/
structure SinkAccumInner (Out In : Type) where
  acc : Out
  step : Out → In → Out
  q : Queue Out
  postRead : Out → Out

namespace SinkAccumInner

/-- `Channel::from_fold` -/
def fromFold (init : Out) (step : Out → In → Out) : SinkAccumInner Out In :=
  ⟨init, step, .unbounded, fun o => o⟩

/-- `Channel::write`: the accumulator is replaced and a snapshot of it offered until it is accepted.
    `none` is an offer that is made for ever. -/
def write (inner : SinkAccumInner Out In) (value : In) : Option (SinkAccumInner Out In) :=
  let acc := inner.step inner.acc value
  match inner.q.offer (inner.postRead acc) with
  | (true, q) => some { inner with acc := acc, q := q }
  | (false, _) => none

/-- The `for` over a chunk. -/
def writeAll (inner : SinkAccumInner Out In) (chunk : List In) : Option (SinkAccumInner Out In) :=
  chunk.foldlM write inner

/-- `Channel::fold_state` -/
def foldState (inner : SinkAccumInner Out In) : Out := inner.acc

end SinkAccumInner

/-! ## Sinks -/

/-- A sink with a fold. The driver of the sink and of its clones has captured `inner`. -/
structure Sink (Out In : Type) where
  inner : SinkAccumInner Out In
  fold : FoldState Out In

/-- A stream for a sink to run over, and whether the environment asks for an interruption before
    each of the polls. -/
structure SinkRun (In E : Type) where
  stream : Stream In E
  interrupted : ℕ → Bool

namespace Sink

/-- `Sink::fold_left` -/
def foldLeft (init : Out) (f : Out → In → Out) : Sink Out In := ⟨.fromFold init f, ⟨init, f⟩⟩

/-- `Sink::from_fold` -/
def fromFold (init : Out) (f : Out → In → Out) : Sink Out In := foldLeft init f

/-- `Sink::collect` -/
def collect : Sink (List In) In := foldLeft [] fun v x => v ++ [x]

/-- `Sink::drain` -/
def drain : Sink Unit In := foldLeft () fun () _ => ()

/-- `Sink::zip`, which makes a channel of its own. -/
def zip (a : Sink A In) (b : Sink B In) : Sink (A × B) In :=
  let state : FoldState (A × B) In :=
    { init := (a.fold.init, b.fold.init), f := fun st x => (a.fold.f st.1 x, b.fold.f st.2 x) }
  ⟨.fromFold state.init state.f, state⟩

/-- `Sink::run` of a clone, by `consume_sink_accum_stream`: what it returns, and the sink. -/
def run (sink : Sink Out In) (r : SinkRun In E) : Option (Except E Out × Sink Out In) :=
  let out := (Stream.pull In E).drainKeeping (fun st => !r.interrupted st.1)
    (fun st chunk => (st.1 + 1, st.2.bind fun inner => inner.writeAll chunk))
    (0, some sink.inner) r.stream
  out.2.2.map fun inner => (out.1.map fun _ => inner.foldState, { sink with inner := inner })

/-- Runs of clones of a sink, one after another. -/
def runs (sink : Sink Out In) : List (SinkRun In E) → Option (List (Except E Out))
  | [] => some []
  | r :: rs => (sink.run r).bind fun out => (out.2.runs rs).map (out.1 :: ·)

/-- The sinks that have a fold. -/
inductive Built {In : Type} : {Out : Type} → Sink Out In → Prop
  | foldLeft {Out : Type} (init : Out) (f : Out → In → Out) : Built (Sink.foldLeft init f)
  | fromFold {Out : Type} (init : Out) (f : Out → In → Out) : Built (Sink.fromFold init f)
  | collect : Built Sink.collect
  | drain : Built Sink.drain
  | zip {A B : Type} {a : Sink A In} {b : Sink B In} (ha : a.Built) (hb : b.Built) :
      Built (a.zip b)

end Sink

/-! ## What a run should return -/

namespace SinkRun

/-- The elements that the run takes from its stream. -/
def elems (r : SinkRun In E) : List In := ((Stream.pull In E).taken r.interrupted r.stream).2.2

/-- How the stream ends, or that the run was interrupted before. -/
def outcome (r : SinkRun In E) : Except E Unit :=
  ((Stream.pull In E).taken r.interrupted r.stream).1

/-- Where nothing interrupts it, a run takes all the elements of its stream. -/
theorem of_yields {s : Stream In E} {l : List In} (h : s.Yields l) :
    (⟨s, fun _ => false⟩ : SinkRun In E).outcome = .ok () ∧
      (⟨s, fun _ => false⟩ : SinkRun In E).elems = l :=
  taken_of_delivers (fun _ => rfl) h.delivers

end SinkRun

namespace FoldState

/-- The left fold of the elements of a stream, or the stream's error. -/
def answer (fs : FoldState Out In) (r : SinkRun In E) : Except E Out :=
  r.outcome.map fun _ => r.elems.foldl fs.f fs.init

/-- The fold of `l` is the same if it goes on from the fold of `earlier`. -/
def Forgets (fs : FoldState Out In) (earlier l : List In) : Prop :=
  l.foldl fs.f (earlier.foldl fs.f fs.init) = l.foldl fs.f fs.init

end FoldState

/-- The elements that the first `n` runs take. -/
def takenBefore (n : ℕ) (rs : List (SinkRun In E)) : List In := (rs.take n).flatMap SinkRun.elems

/-! ## What the runs do -/

/-- The channel has come to `acc` by the steps `f`. Its queue, which nobody else has, takes
    everything. -/
structure SinkAccumInner.At (inner : SinkAccumInner Out In) (f : Out → In → Out) (acc : Out) :
    Prop where
  step : inner.step = f
  acc : inner.acc = acc
  q : ∃ buf, inner.q = .fromFlume ⟨.unbounded, none, buf, true, false⟩

section At

variable {f : Out → In → Out} {acc : Out} {inner : SinkAccumInner Out In}

theorem SinkAccumInner.at_fromFold (init : Out) (f : Out → In → Out) :
    (fromFold init f).At f init :=
  ⟨rfl, rfl, [], rfl⟩

theorem SinkAccumInner.At.write (h : inner.At f acc) (value : In) :
    ∃ inner', inner.write value = some inner' ∧ inner'.At f (f acc value) := by
  obtain ⟨buf, hq⟩ := h.q
  refine ⟨⟨f acc value, f, .fromFlume ⟨.unbounded, none, buf ++ [inner.postRead (f acc value)],
    true, false⟩, inner.postRead⟩, ?_, rfl, rfl, _, rfl⟩
  rw [SinkAccumInner.write, h.step, h.acc, hq]
  rfl

theorem SinkAccumInner.At.writeAll (h : inner.At f acc) (chunk : List In) :
    ∃ inner', inner.writeAll chunk = some inner' ∧ inner'.At f (chunk.foldl f acc) := by
  induction chunk generalizing inner acc with
  | nil => exact ⟨inner, rfl, h⟩
  | cons x chunk ih =>
      obtain ⟨inner', hwrite, hat⟩ := h.write x
      obtain ⟨inner'', hrest, hat'⟩ := ih hat
      refine ⟨inner'', ?_, hat'⟩
      rw [SinkAccumInner.writeAll, List.foldlM_cons, hwrite]
      exact hrest

/-- The loop of a driver has written what a loop that only polls has taken. -/
def HasWritten (f : Out → In → Out) (acc : Out) (st : ℕ × Option (SinkAccumInner Out In))
    (st' : ℕ × List In) : Prop :=
  st.1 = st'.1 ∧ ∃ inner, st.2 = some inner ∧ inner.At f (st'.2.foldl f acc)

/-- A run goes on from where the channel is. -/
theorem Sink.run_at {sink : Sink Out In} (h : sink.inner.At f acc) (r : SinkRun In E) :
    ∃ sink', sink.run r = some (r.outcome.map fun _ => r.elems.foldl f acc, sink') ∧
      sink'.inner.At f (r.elems.foldl f acc) := by
  have hcond : ∀ st st', HasWritten f acc st st' → (!r.interrupted st.1) = !r.interrupted st'.1 :=
    fun st st' h => by rw [h.1]
  have hbody : ∀ (st : ℕ × Option (SinkAccumInner Out In)) (st' : ℕ × List In) chunk,
      HasWritten f acc st st' →
        HasWritten f acc (st.1 + 1, st.2.bind fun inner => inner.writeAll chunk)
          (st'.1 + 1, st'.2 ++ chunk) := by
    rintro ⟨round, _⟩ ⟨_, l⟩ chunk ⟨rfl, inner, rfl, hat⟩
    obtain ⟨inner', hwrite, hat'⟩ := hat.writeAll chunk
    refine ⟨rfl, inner', hwrite, ?_⟩
    rwa [List.foldl_append]
  have hinit : HasWritten f acc (0, some sink.inner) (0, []) := ⟨rfl, _, rfl, h⟩
  obtain ⟨houtcome, -, inner, hinner, hat⟩ :=
    drainKeeping_related hcond hbody hinit (p := Stream.pull In E) r.stream
  refine ⟨{ sink with inner := inner }, ?_, hat⟩
  simp only [Sink.run, hinner, Option.map_some, houtcome, SinkAccumInner.foldState, hat.acc]
  rfl

/-- Each run goes on from where the runs before it ended. -/
theorem Sink.runs_at {sink : Sink Out In} (h : sink.inner.At f acc) (rs : List (SinkRun In E)) :
    ∃ results, sink.runs rs = some results ∧ ∀ i, results[i]? = rs[i]?.map fun r : SinkRun In E =>
      r.outcome.map fun _ => r.elems.foldl f ((takenBefore i rs).foldl f acc) := by
  induction rs generalizing sink acc with
  | nil => exact ⟨[], rfl, fun i => rfl⟩
  | cons r rs ih =>
      obtain ⟨sink', hrun, hat⟩ := Sink.run_at h r
      obtain ⟨results, hruns, hresults⟩ := ih hat
      refine ⟨(r.outcome.map fun _ => r.elems.foldl f acc) :: results, ?_, fun i => ?_⟩
      · rw [Sink.runs, hrun, Option.bind_some, hruns, Option.map_some]
      · cases i with
        | zero => rfl
        | succ i =>
            rw [List.getElem?_cons_succ, List.getElem?_cons_succ, hresults i, takenBefore,
              takenBefore, List.take_succ_cons, List.flatMap_cons, List.foldl_append]

end At

theorem Sink.Built.inner_eq {sink : Sink Out In} (h : sink.Built) :
    sink.inner = .fromFold sink.fold.init sink.fold.f := by
  cases h <;> rfl

/-! ## When sinks are reusable -/

theorem collect_forgets_iff (earlier l : List In) :
    (Sink.collect : Sink (List In) In).fold.Forgets earlier l ↔ earlier = [] := by
  have hfold : ∀ acc l : List In, l.foldl (fun v x => v ++ [x]) acc = acc ++ l := by
    intro acc l
    induction l generalizing acc with
    | nil => exact (List.append_nil acc).symm
    | cons x l ih => rw [List.foldl_cons, ih, List.append_assoc, List.singleton_append]
  show l.foldl (fun v x => v ++ [x]) (earlier.foldl (fun v x => v ++ [x]) []) =
    l.foldl (fun v x => v ++ [x]) [] ↔ _
  rw [hfold, hfold, hfold, List.nil_append, List.nil_append]
  exact List.append_left_eq_self

theorem drain_forgets (earlier l : List In) :
    (Sink.drain : Sink Unit In).fold.Forgets earlier l :=
  rfl

theorem foldl_zip (a : Sink A In) (b : Sink B In) (x : A) (y : B) (l : List In) :
    l.foldl (a.zip b).fold.f (x, y) = (l.foldl a.fold.f x, l.foldl b.fold.f y) := by
  induction l generalizing x y with
  | nil => rfl
  | cons v l ih => exact ih _ _

/-- A zip forgets what both its sinks forget. -/
theorem zip_forgets_iff (a : Sink A In) (b : Sink B In) (earlier l : List In) :
    (a.zip b).fold.Forgets earlier l ↔ a.fold.Forgets earlier l ∧ b.fold.Forgets earlier l := by
  show l.foldl (a.zip b).fold.f (earlier.foldl (a.zip b).fold.f (a.fold.init, b.fold.init)) =
    l.foldl (a.zip b).fold.f (a.fold.init, b.fold.init) ↔ _
  rw [foldl_zip, foldl_zip, foldl_zip, Prod.mk.injEq]
  rfl

/-- A zip should return the pair of what its sinks should return. -/
theorem zip_answer (a : Sink A In) (b : Sink B In) (r : SinkRun In E) :
    (a.zip b).fold.answer r = (a.fold.answer r).bind fun x =>
      (b.fold.answer r).map fun y => (x, y) := by
  unfold FoldState.answer
  cases r.outcome with
  | error e => rfl
  | ok _ => exact congrArg Except.ok (foldl_zip a b a.fold.init b.fold.init r.elems)

/-- **When fold sinks are reusable.** Of the runs of clones of a fold sink, a given one returns the
    fold of its own stream if and only if its stream fails, or the fold of its elements is the same
    from where the earlier runs ended. A collecting sink has to have taken nothing before; a
    draining one always returns the same. Zipped sinks should return the pair of what each of them
    should, and they do if and only if both would. -/
theorem sink_reusable_iff {sink : Sink Out In} (h : sink.Built) (rs : List (SinkRun In E)) :
    (∃ results, sink.runs rs = some results ∧ ∀ i r, rs[i]? = some r →
      (results[i]? = some (sink.fold.answer r) ↔
        (∃ e, r.outcome = .error e) ∨ sink.fold.Forgets (takenBefore i rs) r.elems)) ∧
    (∀ earlier l : List In,
      (Sink.collect : Sink (List In) In).fold.Forgets earlier l ↔ earlier = []) ∧
    (∀ earlier l : List In, (Sink.drain : Sink Unit In).fold.Forgets earlier l) ∧
    ∀ {A B : Type} (a : Sink A In) (b : Sink B In),
      (∀ r : SinkRun In E, (a.zip b).fold.answer r = (a.fold.answer r).bind fun x =>
        (b.fold.answer r).map fun y => (x, y)) ∧
      ∀ earlier l, (a.zip b).fold.Forgets earlier l ↔
        a.fold.Forgets earlier l ∧ b.fold.Forgets earlier l := by
  refine ⟨?_, collect_forgets_iff, drain_forgets, fun a b => ⟨zip_answer a b, zip_forgets_iff a b⟩⟩
  have hat : sink.inner.At sink.fold.f sink.fold.init :=
    h.inner_eq ▸ SinkAccumInner.at_fromFold sink.fold.init sink.fold.f
  obtain ⟨results, hruns, hresults⟩ := Sink.runs_at hat rs
  refine ⟨results, hruns, fun i r hr => ?_⟩
  rw [hresults i, hr, Option.map_some, Option.some.injEq, FoldState.answer]
  cases r.outcome with
  | error e => exact iff_of_true rfl (.inl ⟨e, rfl⟩)
  | ok _ => simp [Except.map, FoldState.Forgets]

/-- The run of a stream that nothing interrupts. -/
def SinkRun.plain (l : List ℕ) : SinkRun ℕ Unit := ⟨.buffered l, fun _ => false⟩

/-- A collecting sink that has taken nothing before. -/
theorem sink_reusable_iff_collect :
    ∃ results, (Sink.collect : Sink (List ℕ) ℕ).runs [.plain [], .plain [1, 2]] = some results ∧
      results[1]? = some (.ok [1, 2]) := by
  have hfirst := SinkRun.of_yields (s := (.buffered [] : Stream ℕ Unit)) (l := []) ⟨trivial, rfl⟩
  have hsecond := SinkRun.of_yields (s := (.buffered [1, 2] : Stream ℕ Unit)) (l := [1, 2])
    ⟨trivial, rfl⟩
  obtain ⟨⟨results, hruns, hresults⟩, hcollect, -⟩ :=
    sink_reusable_iff Sink.Built.collect [SinkRun.plain [], .plain [1, 2]]
  refine ⟨results, hruns, ?_⟩
  have hforgets := (hcollect (takenBefore 1 [SinkRun.plain [], .plain [1, 2]])
    (SinkRun.plain [1, 2]).elems).2 (by simp [takenBefore, SinkRun.plain, hfirst.2])
  rw [(hresults 1 (.plain [1, 2]) rfl).2 (.inr hforgets), FoldState.answer, SinkRun.plain,
    hsecond.1, hsecond.2]
  rfl

/-- A collecting sink that is run twice. -/
theorem sink_collects_both :
    ¬ ∀ (In Out : Type) (sink : Sink Out In), sink.Built → ∀ rs : List (SinkRun In Unit),
      sink.runs rs = some (rs.map sink.fold.answer) := by
  intro hall
  have hone := SinkRun.of_yields (s := (.buffered [1] : Stream ℕ Unit)) (l := [1]) ⟨trivial, rfl⟩
  have htwo := SinkRun.of_yields (s := (.buffered [2] : Stream ℕ Unit)) (l := [2]) ⟨trivial, rfl⟩
  have hwanted := hall ℕ (List ℕ) .collect .collect [.plain [1], .plain [2]]
  have hat : (Sink.collect : Sink (List ℕ) ℕ).inner.At (fun v x => v ++ [x]) [] :=
    SinkAccumInner.at_fromFold [] _
  obtain ⟨results, hruns, hresults⟩ := Sink.runs_at hat [SinkRun.plain [1], .plain [2]]
  have hgot := hresults 1
  rw [Option.some.inj (hruns.symm.trans hwanted)] at hgot
  simp [takenBefore, SinkRun.plain, FoldState.answer, hone.2, htwo.1, htwo.2] at hgot
  cases hgot

end IdEffect.Streaming
