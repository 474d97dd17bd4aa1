import IdEffect.Streaming.Stream

set_option autoImplicit false

/-! # Combinators have list semantics

Each combinator is a loop over the chunks of the stream it is built from, with its own state: the
elements put out so far, and a flag, a count, an unfinished group or the state of a function. The
loops are written as the source writes them. By the loop rule of `Pull`, what such a loop computes
depends only on the elements in all and not on the chunks they come in; so a pipeline of combinators
denotes a function on lists, whatever the chunks its sources deliver
(`runCollect_build`). -/

namespace IdEffect.Streaming

open Pull

variable {A B E S : Type}

/-! ## Work on one chunk -/

/-- Where a chunk is cut into pieces that several threads work on. -/
abbrev Cuts : Type := List ℕ

/-- For each chunk in turn: is it worked on in parallel, and how is it cut? -/
abbrev Plan : Type := ℕ → Option Cuts

def pieces : Cuts → List A → List (List A)
  | [], chunk => [chunk]
  | n :: cuts, chunk => chunk.take n :: pieces cuts (chunk.drop n)

/-- `install_parallel(|| vec.into_par_iter() … .collect())`: the pieces are collected in order. -/
def install (cuts : Option Cuts) (work : List A → List B) (chunk : List A) : List B :=
  match cuts with
  | none => work chunk
  | some cuts => ((pieces cuts chunk).map work).flatten

theorem flatten_pieces (cuts : Cuts) (chunk : List A) : (pieces cuts chunk).flatten = chunk := by
  induction cuts generalizing chunk with
  | nil => simp [pieces]
  | cons n cuts ih => rw [pieces, List.flatten_cons, ih, List.take_append_drop]

theorem install_map (cuts : Option Cuts) (f : A → B) (chunk : List A) :
    install cuts (List.map f) chunk = chunk.map f := by
  cases cuts with
  | none => rfl
  | some cuts => rw [install, ← List.map_flatten, flatten_pieces]

theorem install_filter (cuts : Option Cuts) (p : A → Bool) (chunk : List A) :
    install cuts (List.filter p) chunk = chunk.filter p := by
  cases cuts with
  | none => rfl
  | some cuts => rw [install, ← List.filter_flatten, flatten_pieces]

/-- Apply an `FnMut`, whose state is passed along, to every element. -/
def mapState (f : S → A → B × S) : S → List A → List B × S
  | st, [] => ([], st)
  | st, a :: items =>
      ((f st a).1 :: (mapState f (f st a).2 items).1, (mapState f (f st a).2 items).2)

theorem mapState_append (f : S → A → B × S) (st : S) (l l' : List A) :
    (mapState f st (l ++ l')).1 = (mapState f st l).1 ++ (mapState f (mapState f st l).2 l').1 := by
  induction l generalizing st with
  | nil => rfl
  | cons a l ih => simp only [List.cons_append, mapState, ih]

/-- The `for` of `take_while`. -/
def takeWhileItems (p : A → Bool) : List A → List A → Loop (List A)
  | out, [] => .next out
  | out, item :: items => if !p item then .stop out else takeWhileItems p (out ++ [item]) items

/-- The body of the `for` of `drop_while`. -/
def dropWhileItem (p : A → Bool) : Bool × List A → A → Bool × List A
  | (true, out), item => if p item then (true, out) else (false, out ++ [item])
  | (false, out), item => (false, out ++ [item])

/-- The body of the `while` of `take`. -/
def takeItems : ℕ × List A → List A → ℕ × List A
  | (remaining, out), items =>
      let items := if items.length > remaining then items.take remaining else items
      (remaining - items.length, out ++ items)

/-- The body of the `for` of `grouped`. -/
def groupItem (size : ℕ) : List (List A) × List A → A → List (List A) × List A
  | (out, cur), item =>
      let cur := cur ++ [item]
      if cur.length = size then (out ++ [cur], []) else (out, cur)

/-- The end of `grouped`. -/
def groupRest : List (List A) × List A → List (List A)
  | (out, []) => out
  | (out, cur) => out ++ [cur]

/-- The body of the `for` of `scan`. -/
def scanItem (f : S → A → B × S) : S × List B → A → S × List B
  | (st, out), item => ((f st item).2, out ++ [(f st item).1])

/-! ## The combinators -/

namespace Stream

/-- `Stream::new` around a loop over the upstream. -/
def drainingWhile {σ : Type} (cond : σ → Bool) (body : σ → List A → Loop σ) (init : σ)
    (finish : σ → List B) (upstream : Stream A E) : Stream B E :=
  .pending (some fun _ => ((pull A E).drain cond body init upstream).map finish)

/-- `Stream::new` around a loop that ends only with its upstream. -/
def draining {σ : Type} (body : σ → List A → σ) (init : σ) (finish : σ → List B)
    (upstream : Stream A E) : Stream B E :=
  upstream.drainingWhile (fun _ => true) (fun st chunk => .next (body st chunk)) init finish

def map (plan : Plan) (f : A → B) (upstream : Stream A E) : Stream B E :=
  draining (fun (round, out) chunk => (round + 1, out ++ install (plan round) (List.map f) chunk))
    (0, []) Prod.snd upstream

def mapSerial (f : S → A → B × S) (init : S) (upstream : Stream A E) : Stream B E :=
  draining (fun (st, out) chunk => ((mapState f st chunk).2, out ++ (mapState f st chunk).1))
    (init, []) Prod.snd upstream

def filter (plan : Plan) (p : A → Bool) (upstream : Stream A E) : Stream A E :=
  draining
    (fun (round, out) chunk => (round + 1, out ++ install (plan round) (List.filter p) chunk))
    (0, []) Prod.snd upstream

def filterSerial (p : A → Bool) (upstream : Stream A E) : Stream A E :=
  draining (fun out chunk => out ++ chunk.filter p) [] id upstream

def takeWhile (p : A → Bool) (upstream : Stream A E) : Stream A E :=
  upstream.drainingWhile (fun _ => true) (takeWhileItems p) [] id

def dropWhile (p : A → Bool) (upstream : Stream A E) : Stream A E :=
  draining (fun st chunk => chunk.foldl (dropWhileItem p) st) (true, []) Prod.snd upstream

def take (n : ℕ) (upstream : Stream A E) : Stream A E :=
  upstream.drainingWhile (fun (remaining, _) => decide (remaining > 0))
    (fun st chunk => .next (takeItems st chunk)) (n, []) Prod.snd

def grouped (size : ℕ) (upstream : Stream A E) : Stream (List A) E :=
  if size = 0 then .pending (some fun _ => .ok [])
  else draining (fun st chunk => chunk.foldl (groupItem size) st) ([], []) groupRest upstream

def scan (f : S → A → B × S) (init : S) (upstream : Stream A E) : Stream B E :=
  draining (fun st chunk => chunk.foldl (scanItem f) st) (init, []) Prod.snd upstream

def chain (first second : Stream A E) : Stream A E := .chaining first second

/-- `run_collect`. Before every poll it asks whether the environment is a cancelled
    `CancellationToken`: `interrupted` are the answers. -/
def runCollect (interrupted : ℕ → Bool) (s : Stream A E) : Except E (List A) :=
  ((pull A E).drain (fun st => !interrupted st.1) (fun (round, out) chunk =>
    .next (round + 1, out ++ chunk)) (0, []) s).map Prod.snd

/-! ## What the combinators deliver -/

/-- The stream does not fail and holds the elements `l`. -/
def Yields (s : Stream A E) (l : List A) : Prop := s.ErrorFree ∧ s.elems = l

variable {s : Stream A E} {l : List A}

theorem Yields.delivers (h : s.Yields l) : (pull A E).Delivers s l :=
  h.2 ▸ delivers_of_errorFree s h.1

theorem yields_pending {make : Unit → Except E (List A)} (h : make () = .ok l) :
    (Stream.pending (some make)).Yields l :=
  ⟨⟨l, h⟩, by rw [elems, h]⟩

/-- What a loop over the stream computes, by the loop rule. -/
theorem Yields.drain_eq {σ : Type} {cond : σ → Bool} {body : σ → List A → Loop σ} {init : σ}
    {finish : σ → List B} (result : σ → List A → List B) (h : s.Yields l)
    (hend : ∀ st, result st [] = finish st)
    (hcond : ∀ st l, cond st = false → result st l = finish st)
    (hnext : ∀ st chunk st' l, cond st = true → body st chunk = .next st' →
      result st (chunk ++ l) = result st' l)
    (hstop : ∀ st chunk st' l, cond st = true → body st chunk = .stop st' →
      result st (chunk ++ l) = finish st') :
    ((pull A E).drain cond body init s).map finish = .ok (result init l) := by
  obtain ⟨st, hdrain, hfin⟩ := drain_of_delivers hend hcond hnext hstop h.delivers init
  rw [hdrain, Except.map, hfin]

theorem Yields.draining {σ : Type} {body : σ → List A → σ} {init : σ} {finish : σ → List B}
    (result : σ → List A → List B) (h : s.Yields l) (hend : ∀ st, result st [] = finish st)
    (hnext : ∀ st chunk l, result st (chunk ++ l) = result (body st chunk) l) :
    (s.draining body init finish).Yields (result init l) := by
  obtain ⟨st, hdrain, hfin⟩ := drain_forever hend hnext h.delivers init
  refine yields_pending ?_
  rw [hdrain, Except.map, hfin]

theorem Yields.map (h : s.Yields l) (plan : Plan) (f : A → B) :
    (s.map plan f).Yields (l.map f) := by
  refine h.draining (fun (st : ℕ × List B) l => st.2 ++ l.map f) ?_ ?_
  · exact fun st => List.append_nil _
  · rintro ⟨round, out⟩ chunk l
    show out ++ (chunk ++ l).map f = out ++ install (plan round) (List.map f) chunk ++ l.map f
    rw [install_map, List.map_append, List.append_assoc]

theorem Yields.mapSerial (h : s.Yields l) (f : S → A → B × S) (init : S) :
    (s.mapSerial f init).Yields (mapState f init l).1 := by
  refine h.draining (fun (st : S × List B) l => st.2 ++ (mapState f st.1 l).1) ?_ ?_
  · exact fun st => List.append_nil _
  · intro st chunk l
    rw [mapState_append, List.append_assoc]

theorem Yields.filter (h : s.Yields l) (plan : Plan) (p : A → Bool) :
    (s.filter plan p).Yields (l.filter p) := by
  refine h.draining (fun (st : ℕ × List A) l => st.2 ++ l.filter p) ?_ ?_
  · exact fun st => List.append_nil _
  · rintro ⟨round, out⟩ chunk l
    show out ++ (chunk ++ l).filter p =
      out ++ install (plan round) (List.filter p) chunk ++ l.filter p
    rw [install_filter, List.filter_append, List.append_assoc]

theorem Yields.filterSerial (h : s.Yields l) (p : A → Bool) :
    (s.filterSerial p).Yields (l.filter p) := by
  refine h.draining (fun st l => st ++ l.filter p) ?_ ?_
  · exact fun st => List.append_nil _
  · intro st chunk l
    rw [List.filter_append, List.append_assoc]

/-! ### Loops that stop early -/

theorem takeWhileItems_next {p : A → Bool} {out out' items : List A}
    (h : takeWhileItems p out items = .next out') (l : List A) :
    out ++ (items ++ l).takeWhile p = out' ++ l.takeWhile p := by
  fun_induction takeWhileItems p out items with
  | case1 out => rw [Loop.next.inj h, List.nil_append]
  | case2 out item items hp => cases h
  | case3 out item items hp ih =>
      rw [← ih h, List.cons_append, List.takeWhile_cons_of_pos (by simpa using hp),
        List.append_assoc, List.singleton_append]

theorem takeWhileItems_stop {p : A → Bool} {out out' items : List A}
    (h : takeWhileItems p out items = .stop out') (l : List A) :
    out ++ (items ++ l).takeWhile p = out' := by
  fun_induction takeWhileItems p out items with
  | case1 out => cases h
  | case2 out item items hp =>
      rw [← Loop.stop.inj h, List.cons_append, List.takeWhile_cons_of_neg (by simpa using hp),
        List.append_nil]
  | case3 out item items hp ih =>
      rw [← ih h, List.cons_append, List.takeWhile_cons_of_pos (by simpa using hp),
        List.append_assoc, List.singleton_append]

theorem Yields.takeWhile (h : s.Yields l) (p : A → Bool) :
    (s.takeWhile p).Yields (l.takeWhile p) := by
  refine yields_pending (h.drain_eq (fun out l => out ++ l.takeWhile p) ?_ ?_ ?_ ?_)
  · exact fun out => List.append_nil out
  · intro out l hfalse
    cases hfalse
  · exact fun out chunk out' l _ hbody => takeWhileItems_next hbody l
  · exact fun out chunk out' l _ hbody => takeWhileItems_stop hbody l

theorem takeItems_append (remaining : ℕ) (out items l : List A) :
    (takeItems (remaining, out) items).2 ++ l.take (takeItems (remaining, out) items).1 =
      out ++ (items ++ l).take remaining := by
  simp only [takeItems]
  split
  · next hlt =>
      rw [List.length_take, List.take_append, List.append_assoc]
      have hmin : min remaining items.length = remaining := by omega
      have hzero : remaining - items.length = 0 := by omega
      rw [hmin, Nat.sub_self, hzero]
  · rw [List.take_append, List.append_assoc, List.take_of_length_le (l := items) (by omega)]

theorem Yields.take (h : s.Yields l) (n : ℕ) : (s.take n).Yields (l.take n) := by
  refine yields_pending (h.drain_eq (fun (st : ℕ × List A) l => st.2 ++ l.take st.1) ?_ ?_ ?_ ?_)
  · intro st
    rw [List.take_nil, List.append_nil]
  · intro st l hcond
    have hzero : st.1 = 0 := by simpa using hcond
    rw [hzero, List.take_zero, List.append_nil]
  · intro st chunk st' l _ hbody
    rw [← Loop.next.inj hbody]
    exact (takeItems_append st.1 st.2 chunk l).symm
  · intro st chunk st' l _ hbody
    cases hbody

/-! ### Loops over the elements of each chunk -/

/-- A loop that handles one element after the other folds over all of them. -/
theorem Yields.folding {σ : Type} {item : σ → A → σ} {init : σ} {finish : σ → List B}
    (h : s.Yields l) :
    (s.draining (fun st chunk => chunk.foldl item st) init finish).Yields
      (finish (l.foldl item init)) := by
  refine h.draining (fun st l => finish (l.foldl item st)) ?_ ?_
  · exact fun st => rfl
  · intro st chunk l
    rw [List.foldl_append]

theorem foldl_dropWhileItem_false (p : A → Bool) (out l : List A) :
    l.foldl (dropWhileItem p) (false, out) = (false, out ++ l) := by
  induction l generalizing out with
  | nil => rw [List.append_nil, List.foldl_nil]
  | cons a l ih => rw [List.foldl_cons, dropWhileItem, ih, List.append_assoc, List.singleton_append]

theorem foldl_dropWhileItem (p : A → Bool) (l : List A) :
    (l.foldl (dropWhileItem p) (true, [])).2 = l.dropWhile p := by
  induction l with
  | nil => rfl
  | cons a l ih =>
      rw [List.foldl_cons, dropWhileItem]
      split
      · next hp => rw [ih, List.dropWhile_cons_of_pos hp]
      · next hp => rw [foldl_dropWhileItem_false, List.dropWhile_cons_of_neg hp]; rfl

theorem Yields.dropWhile (h : s.Yields l) (p : A → Bool) :
    (s.dropWhile p).Yields (l.dropWhile p) :=
  foldl_dropWhileItem p l ▸ h.folding

theorem foldl_scanItem (f : S → A → B × S) (st : S) (out : List B) (l : List A) :
    (l.foldl (scanItem f) (st, out)).2 = out ++ (mapState f st l).1 := by
  induction l generalizing st out with
  | nil => exact (List.append_nil out).symm
  | cons a l ih => rw [List.foldl_cons, scanItem, ih, mapState, List.append_assoc]; rfl

theorem Yields.scan (h : s.Yields l) (f : S → A → B × S) (init : S) :
    (s.scan f init).Yields (mapState f init l).1 := by
  have hfold := foldl_scanItem f init [] l
  rw [List.nil_append] at hfold
  exact hfold ▸ h.folding

end Stream

/-! ### Groups -/

/-- The list in groups of `size`, the last of which may be shorter. There is none for `size = 0`. -/
def groups (size : ℕ) (l : List A) : List (List A) :=
  if _h : l = [] ∨ size = 0 then [] else l.take size :: groups size (l.drop size)
termination_by l.length
decreasing_by
  have hne : ¬ (l = [] ∨ size = 0) := ‹_›
  have hpos := List.length_pos_of_ne_nil (fun hnil => hne (.inl hnil))
  rw [List.length_drop]
  omega

theorem groups_nil (size : ℕ) : groups size ([] : List A) = [] := by
  rw [groups, dif_pos (.inl rfl)]

theorem groups_zero (l : List A) : groups 0 l = [] := by
  rw [groups, dif_pos (.inr rfl)]

/-- A list that fits into one group is that group. -/
theorem groups_of_length_le {size : ℕ} {l : List A} (hl : l ≠ []) (h : l.length ≤ size) :
    groups size l = [l] := by
  have hpos := List.length_pos_of_ne_nil hl
  rw [groups, dif_neg (by rintro (hnil | hzero); exacts [hl hnil, by omega]),
    List.take_of_length_le h, List.drop_of_length_le h, groups_nil]

theorem groups_append {size : ℕ} {cur : List A} (hpos : 0 < size) (hcur : cur.length = size)
    (l : List A) : groups size (cur ++ l) = cur :: groups size l := by
  have hne : cur ++ l ≠ [] := by
    intro hnil
    rw [(List.append_eq_nil_iff.1 hnil).1] at hcur
    simp only [List.length_nil] at hcur
    omega
  rw [groups, dif_neg (by rintro (hnil | hzero); exacts [hne hnil, by omega]),
    ← hcur, List.take_left, List.drop_left]

/-- `cur` is a group that is not full yet. -/
theorem foldl_groupItem {size : ℕ} (l : List A) (out : List (List A)) (cur : List A)
    (hcur : cur.length < size) :
    groupRest (l.foldl (groupItem size) (out, cur)) = out ++ groups size (cur ++ l) := by
  induction l generalizing out cur with
  | nil =>
      rw [List.foldl_nil, List.append_nil]
      cases cur with
      | nil => rw [groupRest, groups_nil, List.append_nil]
      | cons a cur =>
          rw [groupRest, groups_of_length_le (by simp) (Nat.le_of_lt hcur)]
          simp
  | cons a l ih =>
      have hlen : (cur ++ [a]).length = cur.length + 1 := by simp
      have hcons : cur ++ a :: l = (cur ++ [a]) ++ l := by simp
      rw [List.foldl_cons, groupItem, hcons]
      split
      · next hfull =>
          have hpos : 0 < size := by omega
          rw [ih _ _ (by simpa using hpos), groups_append hpos hfull, List.nil_append,
            List.append_assoc, List.singleton_append]
      · next hopen => exact ih out _ (by omega)

theorem Stream.Yields.grouped {s : Stream A E} {l : List A} (h : s.Yields l) (size : ℕ) :
    (s.grouped size).Yields (groups size l) := by
  unfold Stream.grouped
  split
  · next hzero =>
      rw [hzero, groups_zero]
      exact yields_pending rfl
  · next hne =>
      have hfold := foldl_groupItem l [] [] (Nat.pos_of_ne_zero hne)
      rw [List.nil_append, List.nil_append] at hfold
      exact hfold ▸ h.folding

/-! ## Pipelines -/

/-- How a channel ends: by the message that says so, whatever is sent after it, or because it is
    disconnected. -/
inductive Ending (A E : Type) where
  | endStream (after : List (ChannelMessage A E))
  | disconnected

def Ending.messages : Ending A E → List (ChannelMessage A E)
  | .endStream after => .endStream :: after
  | .disconnected => []

/-- Pipelines of combinators over finite sources that do not fail. A channel may deliver its
    elements in any chunks, empty ones included. -/
inductive Pipeline (E : Type) : Type → Type 1
  | oneShot {A : Type} (items : List A) : Pipeline E A
  | buffered {A : Type} (items : List A) : Pipeline E A
  | channel {A : Type} (chunks : List (List A)) (ending : Ending A E) : Pipeline E A
  | map {A B : Type} (plan : Plan) (f : A → B) (p : Pipeline E A) : Pipeline E B
  | mapSerial {A B S : Type} (f : S → A → B × S) (init : S) (p : Pipeline E A) : Pipeline E B
  | filter {A : Type} (plan : Plan) (pred : A → Bool) (p : Pipeline E A) : Pipeline E A
  | filterSerial {A : Type} (pred : A → Bool) (p : Pipeline E A) : Pipeline E A
  | takeWhile {A : Type} (pred : A → Bool) (p : Pipeline E A) : Pipeline E A
  | dropWhile {A : Type} (pred : A → Bool) (p : Pipeline E A) : Pipeline E A
  | take {A : Type} (n : ℕ) (p : Pipeline E A) : Pipeline E A
  | grouped {A : Type} (size : ℕ) (p : Pipeline E A) : Pipeline E (List A)
  | scan {A B S : Type} (f : S → A → B × S) (init : S) (p : Pipeline E A) : Pipeline E B
  | chain {A : Type} (p q : Pipeline E A) : Pipeline E A

namespace Pipeline

/-- The stream. -/
def build : {A : Type} → Pipeline E A → Stream A E
  | _, .oneShot items => .pending (some fun _ => .ok items)
  | _, .buffered items => .buffered items
  | _, .channel chunks ending => .channel (chunks.map .chunk ++ ending.messages) [] false
  | _, .map plan f p => p.build.map plan f
  | _, .mapSerial f init p => p.build.mapSerial f init
  | _, .filter plan pred p => p.build.filter plan pred
  | _, .filterSerial pred p => p.build.filterSerial pred
  | _, .takeWhile pred p => p.build.takeWhile pred
  | _, .dropWhile pred p => p.build.dropWhile pred
  | _, .take n p => p.build.take n
  | _, .grouped size p => p.build.grouped size
  | _, .scan f init p => p.build.scan f init
  | _, .chain p q => p.build.chain q.build

/-- The list: the list functions applied to the elements of the sources. -/
def denote : {A : Type} → Pipeline E A → List A
  | _, .oneShot items => items
  | _, .buffered items => items
  | _, .channel chunks _ => chunks.flatten
  | _, .map _ f p => p.denote.map f
  | _, .mapSerial f init p => (mapState f init p.denote).1
  | _, .filter _ pred p => p.denote.filter pred
  | _, .filterSerial pred p => p.denote.filter pred
  | _, .takeWhile pred p => p.denote.takeWhile pred
  | _, .dropWhile pred p => p.denote.dropWhile pred
  | _, .take n p => p.denote.take n
  | _, .grouped size p => groups size p.denote
  | _, .scan f init p => (mapState f init p.denote).1
  | _, .chain p q => p.denote ++ q.denote

end Pipeline

/-- The elements of a channel are those of its chunks, up to its end. -/
theorem yields_channel (chunks : List (List A)) (ending : Ending A E) :
    (Stream.channel (chunks.map .chunk ++ ending.messages) [] false).Yields chunks.flatten := by
  have hend : Stream.Unfailing ending.messages ∧ Stream.incomingElems ending.messages = [] := by
    cases ending with
    | endStream after => exact ⟨trivial, rfl⟩
    | disconnected => exact ⟨trivial, rfl⟩
  suffices hall : Stream.Unfailing (chunks.map .chunk ++ ending.messages) ∧
      Stream.incomingElems (chunks.map .chunk ++ ending.messages) = chunks.flatten from
    ⟨.inr hall.1, hall.2⟩
  induction chunks with
  | nil => exact hend
  | cons chunk chunks ih => exact ⟨ih.1, congrArg (chunk ++ ·) ih.2⟩

/-- A pipeline holds the elements of its list, by induction on the pipeline. -/
theorem yields_build (p : Pipeline E A) : p.build.Yields p.denote := by
  induction p with
  | oneShot items => exact Stream.yields_pending rfl
  | buffered items => exact ⟨trivial, rfl⟩
  | channel chunks ending => exact yields_channel chunks ending
  | map plan f p ih => exact ih.map plan f
  | mapSerial f init p ih => exact ih.mapSerial f init
  | filter plan pred p ih => exact ih.filter plan pred
  | filterSerial pred p ih => exact ih.filterSerial pred
  | takeWhile pred p ih => exact ih.takeWhile pred
  | dropWhile pred p ih => exact ih.dropWhile pred
  | take n p ih => exact ih.take n
  | grouped size p ih => exact ih.grouped size
  | scan f init p ih => exact ih.scan f init
  | chain p q ihp ihq => exact ⟨⟨ihp.1, ihq.1⟩, by rw [Pipeline.denote, ← ihp.2, ← ihq.2]; rfl⟩

/-! ## Collecting -/

/-- What `run_collect` returns as long as its environment asks for no interruption. -/
def Stream.Collects (s : Stream A E) (l : List A) : Prop :=
  ∀ interrupted : ℕ → Bool, (∀ round, interrupted round = false) →
    s.runCollect interrupted = .ok l

theorem Stream.Yields.collects {s : Stream A E} {l : List A} (h : s.Yields l) : s.Collects l := by
  intro interrupted hrun
  refine h.drain_eq (fun (st : ℕ × List A) l => st.2 ++ l) ?_ ?_ ?_ ?_
  · exact fun st => List.append_nil _
  · intro st l hcond
    simp [hrun st.1] at hcond
  · intro st chunk st' l _ hbody
    rw [← Loop.next.inj hbody, List.append_assoc]
  · intro st chunk st' l _ hbody
    cases hbody

/-- A stream collects one list. -/
theorem Stream.Collects.unique {s : Stream A E} {l l' : List A} (h : s.Collects l)
    (h' : s.Collects l') : l = l' :=
  Except.ok.inj ((h (fun _ => false) fun _ => rfl).symm.trans (h' (fun _ => false) fun _ => rfl))

/-- **Pipelines have list semantics.** As long as the environment asks for no interruption,
    `run_collect` of a pipeline returns what the list functions make of the elements of its sources,
    in whatever chunks these deliver them. -/
theorem runCollect_build (p : Pipeline E A) (interrupted : ℕ → Bool)
    (hrun : ∀ round, interrupted round = false) :
    p.build.runCollect interrupted = .ok p.denote :=
  (yields_build p).collects interrupted hrun

/-- A channel with an empty chunk, of which two elements are taken behind a buffered source and
    grouped. -/
theorem runCollect_build_channel :
    (Pipeline.chain (.buffered [1, 2])
      (.channel [[3], [], [4, 5]] (.endStream []) : Pipeline Unit ℕ)
        |>.take 4 |>.grouped 3).build.runCollect (fun _ => false) = .ok [[1, 2, 3], [4]] := by
  rw [runCollect_build _ _ fun _ => rfl]
  simp [Pipeline.denote, groups]

/-- `run_collect` stops when its environment is a cancelled token, and returns what it has so far.
    -/
theorem runCollect_interrupted :
    ¬ ∀ (p : Pipeline Unit ℕ) (interrupted : ℕ → Bool),
      p.build.runCollect interrupted = .ok p.denote := by
  intro hall
  have hcut := hall (.buffered [1]) fun _ => true
  rw [Stream.runCollect, Pull.drain] at hcut
  cases hcut

end IdEffect.Streaming
