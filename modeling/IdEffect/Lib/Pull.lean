import Mathlib.Data.List.Basic

set_option autoImplicit false

/-! # Loops over a source that is pulled in chunks

A `Pull` is something that answers each poll with a chunk of elements, with its end or with an
error, and is something new afterwards. `drain` is the loop of a consumer: while a condition on its
own state holds, it polls and lets its body process the chunk, which may stop the loop early.

`Delivers` says which elements a source yields in all, however they are cut into chunks. What a loop
computes then depends on these elements only (`drain_of_delivers`): it is enough that the body, on a
chunk, does what the intended result says about a list that begins with the chunk. -/

variable {S A E σ ρ : Type*}

/-- What the body of a loop says after a chunk: go on, or leave the loop. -/
inductive Pull.Loop (σ : Type*) where
  | next (st : σ)
  | stop (st : σ)

/-- `size` bounds the chunks that are still to come. -/
structure Pull (S A E : Type*) where
  poll : S → Except E (Option (List A)) × S
  size : S → ℕ
  size_lt : ∀ {s s' : S} {chunk : List A}, poll s = (.ok (some chunk), s') → size s' < size s

namespace Pull

/-- `while cond { match poll? { Some(chunk) => body(chunk), None => break } }` -/
def drain (p : Pull S A E) (cond : σ → Bool) (body : σ → List A → Loop σ) (st : σ) (s : S) :
    Except E σ :=
  if cond st then
    match _h : p.poll s with
    | (.ok (some chunk), s') =>
        match body st chunk with
        | .next st' => drain p cond body st' s'
        | .stop st' => .ok st'
    | (.ok none, _) => .ok st
    | (.error e, _) => .error e
  else .ok st
termination_by p.size s
decreasing_by exact p.size_lt ‹_›

section

variable {p : Pull S A E} {cond : σ → Bool} {body : σ → List A → Loop σ} {st st' : σ} {s s' : S}
  {chunk : List A}

theorem drain_of_cond (hcond : cond st = false) : p.drain cond body st s = .ok st := by
  rw [drain, if_neg (by simp [hcond])]

/-- One round of the loop. -/
theorem drain_round (hcond : cond st = true) :
    p.drain cond body st s =
      match p.poll s with
      | (.ok (some chunk), s') =>
          match body st chunk with
          | .next st' => p.drain cond body st' s'
          | .stop st' => .ok st'
      | (.ok none, _) => .ok st
      | (.error e, _) => .error e := by
  rw [drain, if_pos hcond]
  split
  · next heq => rw [heq]
  · next heq => rw [heq]
  · next heq => rw [heq]

theorem drain_of_none (hpoll : p.poll s = (.ok none, s')) :
    p.drain cond body st s = .ok st := by
  cases hcond : cond st with
  | false => exact drain_of_cond hcond
  | true => rw [drain_round hcond, hpoll]

theorem drain_of_error {e : E} (hcond : cond st = true) (hpoll : p.poll s = (.error e, s')) :
    p.drain cond body st s = .error e := by
  rw [drain_round hcond, hpoll]

theorem drain_of_next (hcond : cond st = true) (hpoll : p.poll s = (.ok (some chunk), s'))
    (hbody : body st chunk = .next st') :
    p.drain cond body st s = p.drain cond body st' s' := by
  rw [drain_round hcond, hpoll]
  simp only [hbody]

theorem drain_of_stop (hcond : cond st = true) (hpoll : p.poll s = (.ok (some chunk), s'))
    (hbody : body st chunk = .stop st') : p.drain cond body st s = .ok st' := by
  rw [drain_round hcond, hpoll]
  simp only [hbody]

end

/-- The source yields the elements of `l`, in some chunks, and then its end. -/
inductive Delivers (p : Pull S A E) : S → List A → Prop
  | done {s s' : S} (h : p.poll s = (.ok none, s')) : Delivers p s []
  | chunk {s s' : S} {chunk l : List A} (h : p.poll s = (.ok (some chunk), s'))
      (hrest : Delivers p s' l) : Delivers p s (chunk ++ l)

/-- The same, with the chunks. -/
inductive Chunked (p : Pull S A E) : S → List (List A) → Prop
  | done {s s' : S} (h : p.poll s = (.ok none, s')) : Chunked p s []
  | chunk {s s' : S} {chunk : List A} {chunks : List (List A)}
      (h : p.poll s = (.ok (some chunk), s')) (hrest : Chunked p s' chunks) :
      Chunked p s (chunk :: chunks)

theorem Delivers.chunked {p : Pull S A E} {s : S} {l : List A} (h : p.Delivers s l) :
    ∃ chunks, p.Chunked s chunks ∧ chunks.flatten = l := by
  induction h with
  | done h => exact ⟨[], .done h, rfl⟩
  | @chunk s s' chunk l h _ ih =>
      obtain ⟨chunks, hchunks, rfl⟩ := ih
      exact ⟨chunk :: chunks, .chunk h hchunks, rfl⟩

/-- **Loop rule.** Let `result st l` be what is wanted from a loop in the state `st` when the
    elements `l` are still to come, and `finish` what is made of its last state. If the body does to
    `st` what a chunk in front of `l` does to `result`, the loop computes `result`. -/
theorem drain_of_delivers {p : Pull S A E} {cond : σ → Bool} {body : σ → List A → Loop σ}
    {finish : σ → ρ} {result : σ → List A → ρ} (hend : ∀ st, result st [] = finish st)
    (hcond : ∀ st l, cond st = false → result st l = finish st)
    (hnext : ∀ st chunk st' l, cond st = true → body st chunk = .next st' →
      result st (chunk ++ l) = result st' l)
    (hstop : ∀ st chunk st' l, cond st = true → body st chunk = .stop st' →
      result st (chunk ++ l) = finish st')
    {s : S} {l : List A} (h : p.Delivers s l) (st : σ) :
    ∃ st', p.drain cond body st s = .ok st' ∧ finish st' = result st l := by
  induction h generalizing st with
  | @done s s' hpoll => exact ⟨st, drain_of_none hpoll, (hend st).symm⟩
  | @chunk s s' chunk l hpoll hrest ih =>
      by_cases hc : cond st = true
      · cases hbody : body st chunk with
        | next st' =>
            obtain ⟨st'', hdrain, hfin⟩ := ih st'
            exact ⟨st'', (drain_of_next hc hpoll hbody).trans hdrain,
              hfin.trans (hnext st chunk st' l hc hbody).symm⟩
        | stop st' =>
            exact ⟨st', drain_of_stop hc hpoll hbody, (hstop st chunk st' l hc hbody).symm⟩
      · rw [Bool.not_eq_true] at hc
        exact ⟨st, drain_of_cond hc, (hcond st _ hc).symm⟩

/-- The rule for a loop that ends only with its source. -/
theorem drain_forever {p : Pull S A E} {body : σ → List A → σ} {finish : σ → ρ}
    {result : σ → List A → ρ} (hend : ∀ st, result st [] = finish st)
    (hnext : ∀ st chunk l, result st (chunk ++ l) = result (body st chunk) l)
    {s : S} {l : List A} (h : p.Delivers s l) (st : σ) :
    ∃ st', p.drain (fun _ => true) (fun st chunk => .next (body st chunk)) st s = .ok st' ∧
      finish st' = result st l := by
  refine drain_of_delivers hend ?_ ?_ ?_ h st
  · intro st l hfalse
    cases hfalse
  · intro st chunk st' l _ hbody
    rw [hnext, Loop.next.inj hbody]
  · intro st chunk st' l _ hbody
    cases hbody

/-! ## What a source answers in all -/

/-- The chunks that a source answers its polls with, and how it ends after them. -/
def polls (p : Pull S A E) (s : S) : List (List A) × Except E Unit :=
  match _h : p.poll s with
  | (.ok (some chunk), s') => (chunk :: (polls p s').1, (polls p s').2)
  | (.ok none, _) => ([], .ok ())
  | (.error e, _) => ([], .error e)
termination_by p.size s
decreasing_by all_goals exact p.size_lt ‹_›

section

variable {p : Pull S A E} {s s' : S} {chunk : List A}

theorem polls_of_chunk (h : p.poll s = (.ok (some chunk), s')) :
    p.polls s = (chunk :: (p.polls s').1, (p.polls s').2) := by
  rw [polls]
  split <;> simp_all

theorem polls_of_none (h : p.poll s = (.ok none, s')) : p.polls s = ([], .ok ()) := by
  rw [polls]
  split <;> simp_all

theorem polls_of_error {e : E} (h : p.poll s = (.error e, s')) : p.polls s = ([], .error e) := by
  rw [polls]
  split <;> simp_all

end

/-- A source that delivers `l` answers with the chunks of `l` and ends. -/
theorem polls_of_delivers {p : Pull S A E} {s : S} {l : List A} (h : p.Delivers s l) :
    (p.polls s).1.flatten = l ∧ (p.polls s).2 = .ok () := by
  induction h with
  | @done s s' hpoll =>
      rw [polls_of_none hpoll]
      exact ⟨rfl, rfl⟩
  | @chunk s s' chunk l hpoll hrest ih =>
      rw [polls_of_chunk hpoll]
      exact ⟨congrArg (chunk ++ ·) ih.1, ih.2⟩

/-- A loop over chunks that are there, with the end that comes after them. -/
def afterChunks (body : σ → List A → Loop σ) (ending : Except E Unit) :
    σ → List (List A) → Except E σ
  | st, [] => ending.map fun _ => st
  | st, chunk :: chunks =>
      match body st chunk with
      | .next st' => afterChunks body ending st' chunks
      | .stop st' => .ok st'

theorem drain_eq_afterChunks (p : Pull S A E) (body : σ → List A → Loop σ) (st : σ) (s : S) :
    p.drain (fun _ => true) body st s = afterChunks body (p.polls s).2 st (p.polls s).1 := by
  fun_induction polls p s generalizing st with
  | case1 s chunk s' hpoll ih =>
      rw [afterChunks]
      cases hbody : body st chunk with
      | next st' => exact (drain_of_next rfl hpoll hbody).trans (ih st')
      | stop st' => exact drain_of_stop rfl hpoll hbody
  | case2 s s' hpoll => exact drain_of_none hpoll
  | case3 s e s' hpoll => exact drain_of_error rfl hpoll

/-! ## Loops whose state outlives them -/

/-- `while cond { match poll? { Some(chunk) => body(chunk), None => break } }`, where what the body
    has done is still there when the source fails. -/
def drainKeeping (p : Pull S A E) (cond : σ → Bool) (body : σ → List A → σ) (st : σ) (s : S) :
    Except E Unit × σ :=
  if cond st then
    match _h : p.poll s with
    | (.ok (some chunk), s') => drainKeeping p cond body (body st chunk) s'
    | (.ok none, _) => (.ok (), st)
    | (.error e, _) => (.error e, st)
  else (.ok (), st)
termination_by p.size s
decreasing_by exact p.size_lt ‹_›

section

variable {p : Pull S A E} {cond : σ → Bool} {body : σ → List A → σ} {st : σ} {s s' : S}

theorem drainKeeping_of_cond (hcond : cond st = false) :
    p.drainKeeping cond body st s = (.ok (), st) := by
  rw [drainKeeping, if_neg (by simp [hcond])]

theorem drainKeeping_of_chunk {chunk : List A} (hcond : cond st = true)
    (hpoll : p.poll s = (.ok (some chunk), s')) :
    p.drainKeeping cond body st s = p.drainKeeping cond body (body st chunk) s' := by
  rw [drainKeeping, if_pos hcond]
  split <;> simp_all

theorem drainKeeping_of_none (hpoll : p.poll s = (.ok none, s')) :
    p.drainKeeping cond body st s = (.ok (), st) := by
  rw [drainKeeping]
  split
  · split <;> simp_all
  · rfl

theorem drainKeeping_of_error {e : E} (hcond : cond st = true)
    (hpoll : p.poll s = (.error e, s')) : p.drainKeeping cond body st s = (.error e, st) := by
  rw [drainKeeping, if_pos hcond]
  split <;> simp_all

end

/-- **Simulation rule.** Loops over one source whose states stay related end alike, in related
    states. -/
theorem drainKeeping_related {τ : Type*} {p : Pull S A E} {R : σ → τ → Prop} {cond : σ → Bool}
    {body : σ → List A → σ} {cond' : τ → Bool} {body' : τ → List A → τ}
    (hcond : ∀ st st', R st st' → cond st = cond' st')
    (hbody : ∀ st st' chunk, R st st' → R (body st chunk) (body' st' chunk)) {st : σ} {st' : τ}
    (h : R st st') (s : S) :
    (p.drainKeeping cond body st s).1 = (p.drainKeeping cond' body' st' s).1 ∧
      R (p.drainKeeping cond body st s).2 (p.drainKeeping cond' body' st' s).2 := by
  fun_induction drainKeeping p cond body st s generalizing st' with
  | case1 st s hc chunk s' hpoll ih =>
      rw [drainKeeping_of_chunk ((hcond _ _ h).symm.trans hc) hpoll]
      exact ih (hbody _ _ chunk h)
  | case2 st s hc s' hpoll =>
      rw [drainKeeping_of_none hpoll]
      exact ⟨rfl, h⟩
  | case3 st s hc e s' hpoll =>
      rw [drainKeeping_of_error ((hcond _ _ h).symm.trans hc) hpoll]
      exact ⟨rfl, h⟩
  | case4 st s hc =>
      rw [drainKeeping_of_cond ((hcond _ _ h).symm.trans (eq_false_of_ne_true hc))]
      exact ⟨rfl, h⟩

/-- How the polls end, and the elements they deliver: until `interrupted` answers `true` in some
    round, or to the end of the source or its first error. -/
def taken (p : Pull S A E) (interrupted : ℕ → Bool) (s : S) : Except E Unit × ℕ × List A :=
  p.drainKeeping (fun st => !interrupted st.1) (fun st chunk => (st.1 + 1, st.2 ++ chunk)) (0, []) s

theorem drainKeeping_of_delivers {p : Pull S A E} {interrupted : ℕ → Bool}
    (hrun : ∀ round, interrupted round = false) {s : S} {l : List A} (h : p.Delivers s l)
    (round : ℕ) (out : List A) :
    ∃ round', p.drainKeeping (fun st => !interrupted st.1)
      (fun st chunk => (st.1 + 1, st.2 ++ chunk)) (round, out) s =
        (.ok (), round', out ++ l) := by
  induction h generalizing round out with
  | @done s s' hpoll =>
      refine ⟨round, ?_⟩
      rw [drainKeeping_of_none hpoll, List.append_nil]
  | @chunk s s' chunk l hpoll hrest ih =>
      obtain ⟨round', hround⟩ := ih (round + 1) (out ++ chunk)
      refine ⟨round', ?_⟩
      rw [drainKeeping_of_chunk (by simp [hrun]) hpoll, hround, List.append_assoc]

/-- Without an interruption everything is taken. -/
theorem taken_of_delivers {p : Pull S A E} {interrupted : ℕ → Bool}
    (hrun : ∀ round, interrupted round = false) {s : S} {l : List A} (h : p.Delivers s l) :
    (p.taken interrupted s).1 = .ok () ∧ (p.taken interrupted s).2.2 = l := by
  obtain ⟨round, hround⟩ := drainKeeping_of_delivers hrun h 0 []
  rw [taken, hround]
  exact ⟨rfl, List.nil_append l⟩

end Pull
