import IdEffect.Streaming.Combinators
import IdEffect.Lib.Interleave

set_option autoImplicit false

/-! # `Stream::merge`

Both sides are read a chunk at a time, and give an element in turn. When a side has ended and it is
its turn, what is left of the other side's chunk is put out and the loop ends: the chunks that would
come after it are lost. So a merge has all elements exactly if the longer side is in its last chunk
by then (`merge_interleaves_iff`). -/

namespace IdEffect.Streaming

open Pull

variable {S A E : Type}

/-! ## The loop -/

/-- A side of the merge: its stream, what is left of its chunk, and whether it has ended. -/
structure Side (S A : Type) where
  src : S
  buf : List A
  isDone : Bool

namespace Side

/-- A side is polled when its buffer is empty and it has not ended. -/
def refill (p : Pull S A E) (side : Side S A) : Except E (Side S A) :=
  if side.buf.isEmpty && !side.isDone then
    match p.poll side.src with
    | (.ok (some chunk), src) => .ok { side with src := src, buf := side.buf ++ chunk }
    | (.ok none, src) => .ok { side with src := src, isDone := true }
    | (.error e, _) => .error e
  else .ok side

/-- A bound for the polls that are still to come. -/
def polls (p : Pull S A E) (side : Side S A) : ℕ := if side.isDone then 0 else p.size side.src + 1

/-- A round polls a side that has nothing, or leaves it alone. -/
theorem refill_cases {p : Pull S A E} {side side' : Side S A} (h : side.refill p = .ok side') :
    side'.polls p < side.polls p ∨ side' = side ∧ (side.buf = [] → side.isDone = true) := by
  rw [refill] at h
  split at h
  · next hpoll =>
      simp only [Bool.and_eq_true, List.isEmpty_iff, Bool.not_eq_true'] at hpoll
      split at h
      · next chunk src hsome =>
          cases h
          have := p.size_lt hsome
          exact .inl (by simp [polls, hpoll.2, this])
      · cases h
        exact .inl (by simp [polls, hpoll.2])
      · cases h
  · next hpoll =>
      cases h
      refine .inr ⟨rfl, fun hbuf => ?_⟩
      simpa [hbuf] using hpoll

/-- What decreases from round to round: the polls to come, and then the elements at hand. -/
def work (p : Pull S A E) (left right : Side S A) : ℕ × ℕ :=
  (left.polls p + right.polls p, left.buf.length + right.buf.length)

/-- If both sides were left alone, the elements at hand have to decrease. -/
theorem work_lt {p : Pull S A E} {left left' right right' : Side S A} {buf buf' : List A}
    (hleft : left.refill p = .ok left') (hright : right.refill p = .ok right')
    (hbuf : left' = left → right' = right → (left.buf = [] → left.isDone = true) →
      (right.buf = [] → right.isDone = true) →
      buf.length + buf'.length < left.buf.length + right.buf.length) :
    Prod.Lex (· < ·) (· < ·) (work p { left' with buf := buf } { right' with buf := buf' })
      (work p left right) := by
  show Prod.Lex _ _ (left'.polls p + right'.polls p, buf.length + buf'.length) (work p left right)
  rcases refill_cases hleft with hl | ⟨rfl, hl⟩ <;> rcases refill_cases hright with hr | ⟨rfl, hr⟩
  · exact .left _ _ (by omega)
  · exact .left _ _ (by omega)
  · exact .left _ _ (by omega)
  · exact .right _ (hbuf rfl rfl hl hr)

end Side

/-- The loop of `merge`. -/
def mergeLoop (p : Pull S A E) (left right : Side S A) (turnLeft : Bool) (out : List A) :
    Except E (List A) :=
  match _hleft : left.refill p with
  | .error e => .error e
  | .ok left =>
      match _hright : right.refill p with
      | .error e => .error e
      | .ok right =>
          if left.buf.isEmpty && right.buf.isEmpty && left.isDone && right.isDone then .ok out
          else if turnLeft then
            match _hbuf : left.buf with
            | a :: rest => mergeLoop p { left with buf := rest } right false (out ++ [a])
            | [] =>
                if left.isDone then .ok (out ++ right.buf) else mergeLoop p left right false out
          else
            match _hbuf : right.buf with
            | b :: rest => mergeLoop p left { right with buf := rest } true (out ++ [b])
            | [] =>
                if right.isDone then .ok (out ++ left.buf) else mergeLoop p left right true out
termination_by Side.work p left right
decreasing_by
  · refine Side.work_lt _hleft _hright ?_
    rintro rfl rfl - -
    simp [_hbuf]
  · refine Side.work_lt _hleft _hright ?_
    rintro rfl rfl hdone -
    simp_all
  · refine Side.work_lt _hleft _hright ?_
    rintro rfl rfl - -
    simp [_hbuf]
  · refine Side.work_lt _hleft _hright ?_
    rintro rfl rfl - hdone
    simp_all

/-! ## What the loop puts out -/

/-- The chunks a side still holds: what it has at hand, and what its stream will deliver. -/
inductive Side.Holds (p : Pull S A E) (side : Side S A) : List (List A) → Prop
  | ended (h : side.isDone = true) : Holds p side [side.buf]
  | running {chunks : List (List A)} (h : side.isDone = false)
      (hne : ∀ chunk ∈ chunks, chunk ≠ []) (hsrc : p.Chunked side.src chunks) :
      Holds p side (side.buf :: chunks)

/-- The elements of two sides in turn, one of them first, with what is lost taken away. -/
def mergedChunks (own other : List (List A)) : List A :=
  alternate (servedTo (other.flatten.length + 1) own) (servedTo own.flatten.length other)

theorem mergedChunks_cons (a : A) (buf : List A) (own other : List (List A)) :
    mergedChunks ((a :: buf) :: own) other = a :: mergedChunks other (buf :: own) := by
  rw [mergedChunks, servedTo_cons, alternate, mergedChunks]
  rfl

/-- When the side whose turn it is has ended, the other one puts out what it has at hand. -/
theorem mergedChunks_ended {buf : List A} {other : List (List A)} (h : buf = [] → other = []) :
    mergedChunks [[]] (buf :: other) = buf := by
  rw [mergedChunks, servedTo_nil, servedTo, alternate]
  cases buf with
  | nil => rw [h rfl]; rfl
  | cons b buf => simp [servedTo]

namespace Side

variable {p : Pull S A E} {side : Side S A} {chunks : List (List A)}

/-- Polling moves a chunk to the buffer. After it, a side that has nothing at hand has ended. -/
theorem Holds.refill (h : side.Holds p chunks) :
    ∃ side' chunks', side.refill p = .ok side' ∧ side'.Holds p chunks' ∧
      (∀ k, servedTo k chunks' = servedTo k chunks) ∧ chunks'.flatten = chunks.flatten ∧
      (side'.buf = [] → side'.isDone = true) := by
  cases h with
  | ended hdone =>
      refine ⟨side, [side.buf], ?_, .ended hdone, fun k => rfl, rfl, fun _ => hdone⟩
      simp [Side.refill, hdone]
  | @running chunks hrun hne hsrc =>
      by_cases hbuf : side.buf = []
      · rw [hbuf]
        cases hsrc with
        | @done _ src hpoll =>
            refine ⟨{ side with src := src, isDone := true }, [side.buf], ?_, .ended rfl, ?_, ?_,
              fun _ => rfl⟩
            · simp [Side.refill, hrun, hbuf, hpoll]
            · exact fun k => by rw [hbuf]
            · rw [hbuf]
        | @chunk _ src chunk chunks hpoll hrest =>
            refine ⟨{ side with src := src, buf := side.buf ++ chunk },
              (side.buf ++ chunk) :: chunks, ?_,
              .running hrun (fun c hc => hne c (by simp [hc])) hrest, ?_, ?_, ?_⟩
            · simp [Side.refill, hrun, hbuf, hpoll]
            · exact fun k => by rw [hbuf, servedTo_nil, List.nil_append]
            · simp [hbuf]
            · intro hnil
              exact absurd (List.append_eq_nil_iff.1 hnil).2 (hne chunk (by simp))
      · refine ⟨side, side.buf :: chunks, ?_, .running hrun hne hsrc, fun k => rfl, rfl,
          fun hnil => absurd hnil hbuf⟩
        simp [Side.refill, hbuf]

theorem Holds.eq_cons (h : side.Holds p chunks) :
    ∃ rest, chunks = side.buf :: rest ∧ (side.isDone = true → rest = []) := by
  cases h with
  | ended hdone => exact ⟨[], rfl, fun _ => rfl⟩
  | @running rest hrun hne hsrc =>
      refine ⟨rest, rfl, fun hdone => ?_⟩
      rw [hrun] at hdone
      cases hdone

/-- When the side whose turn it is has ended, the other one puts out what it has at hand. -/
theorem Holds.mergedChunks_ended {other : Side S A} {chunks' : List (List A)}
    (h : side.Holds p chunks) (h' : other.Holds p chunks') (hbuf : side.buf = [])
    (hdone : side.isDone = true) (hdone' : other.buf = [] → other.isDone = true) :
    mergedChunks chunks chunks' = other.buf := by
  obtain ⟨rest, rfl, hrest⟩ := h.eq_cons
  obtain ⟨rest', rfl, hrest'⟩ := h'.eq_cons
  rw [hbuf, hrest hdone]
  exact Streaming.mergedChunks_ended fun hnil => hrest' (hdone' hnil)

/-- An element is taken from the buffer. -/
theorem Holds.take {a : A} {buf : List A} (h : side.Holds p chunks) (hbuf : side.buf = a :: buf) :
    ∃ rest, chunks = (a :: buf) :: rest ∧ { side with buf := buf }.Holds p (buf :: rest) := by
  cases h with
  | ended hdone => exact ⟨[], by rw [hbuf], .ended hdone⟩
  | @running rest hrun hne hsrc => exact ⟨rest, by rw [hbuf], .running hrun hne hsrc⟩

end Side

/-- A round goes on with the sides that have been refilled. -/
theorem mergeLoop_refilled {p : Pull S A E} {left left' right right' : Side S A}
    (hleft : left.refill p = .ok left') (hright : right.refill p = .ok right')
    (turnLeft : Bool) (out : List A) :
    mergeLoop p left right turnLeft out =
      if left'.buf.isEmpty && right'.buf.isEmpty && left'.isDone && right'.isDone then .ok out
      else if turnLeft then
        match left'.buf with
        | a :: rest => mergeLoop p { left' with buf := rest } right' false (out ++ [a])
        | [] =>
            if left'.isDone then .ok (out ++ right'.buf) else mergeLoop p left' right' false out
      else
        match right'.buf with
        | b :: rest => mergeLoop p left' { right' with buf := rest } true (out ++ [b])
        | [] =>
            if right'.isDone then .ok (out ++ left'.buf)
            else mergeLoop p left' right' true out := by
  rw [mergeLoop]
  split
  · next heq => simp [hleft] at heq
  · next left'' heq =>
      obtain rfl : left' = left'' := by simpa [hleft] using heq
      split
      · next heq' => simp [hright] at heq'
      · next right'' heq' =>
          obtain rfl : right' = right'' := by simpa [hright] using heq'
          refine if_congr Iff.rfl rfl (if_congr Iff.rfl ?_ ?_)
          · split
            · next a rest hbuf => rw [hbuf]
            · next hbuf => rw [hbuf]
          · split
            · next b rest hbuf => rw [hbuf]
            · next hbuf => rw [hbuf]

/-- **The loop puts out the elements in turn**, by induction on the elements the sides hold. -/
theorem mergeLoop_eq {p : Pull S A E} {left right : Side S A} {cl cr : List (List A)}
    (hleft : left.Holds p cl) (hright : right.Holds p cr) (turnLeft : Bool) (out : List A) :
    mergeLoop p left right turnLeft out =
      .ok (out ++ if turnLeft then mergedChunks cl cr else mergedChunks cr cl) := by
  induction hlen : cl.flatten.length + cr.flatten.length using Nat.strongRecOn
    generalizing left right cl cr turnLeft out with
  | ind len ih =>
      obtain ⟨left', cl', hrefill, hheld, hserved, hflat, hdone⟩ := hleft.refill
      obtain ⟨right', cr', hrefill', hheld', hserved', hflat', hdone'⟩ := hright.refill
      have hown : mergedChunks cl cr = mergedChunks cl' cr' := by
        rw [mergedChunks, mergedChunks, hserved, hserved', hflat, hflat']
      have hother : mergedChunks cr cl = mergedChunks cr' cl' := by
        rw [mergedChunks, mergedChunks, hserved, hserved', hflat, hflat']
      rw [← hflat, ← hflat'] at hlen
      rw [hown, hother, mergeLoop_refilled hrefill hrefill']
      split
      · next hend =>
          simp only [Bool.and_eq_true, List.isEmpty_iff] at hend
          obtain ⟨⟨⟨hbuf, hbuf'⟩, hd⟩, hd'⟩ := hend
          rw [hheld.mergedChunks_ended hheld' hbuf hd hdone', hbuf',
            hheld'.mergedChunks_ended hheld hbuf' hd' hdone, hbuf, ite_self, List.append_nil]
      · cases turnLeft with
        | true =>
            rw [if_pos rfl, if_pos rfl]
            split
            · next a rest hbuf =>
                obtain ⟨rest', rfl, htaken⟩ := hheld.take hbuf
                rw [ih _ ?_ htaken hheld' false (out ++ [a]) rfl, mergedChunks_cons]
                · simp
                · simp at hlen ⊢
                  omega
            · next hbuf =>
                rw [if_pos (hdone hbuf), hheld.mergedChunks_ended hheld' hbuf (hdone hbuf) hdone']
        | false =>
            rw [if_neg Bool.false_ne_true, if_neg Bool.false_ne_true]
            split
            · next b rest hbuf =>
                obtain ⟨rest', rfl, htaken⟩ := hheld'.take hbuf
                rw [ih _ ?_ hheld htaken true (out ++ [b]) rfl, mergedChunks_cons]
                · simp
                · simp at hlen ⊢
                  omega
            · next hbuf =>
                rw [if_pos (hdone' hbuf), hheld'.mergedChunks_ended hheld hbuf (hdone' hbuf) hdone]

/-! ## Collecting a merge -/

namespace Stream

/-- `Stream::merge` -/
def merge (left right : Stream A E) : Stream A E :=
  .pending (some fun _ => mergeLoop (pull A E) ⟨left, [], false⟩ ⟨right, [], false⟩ true [])

theorem chunks_ne_nil {s : Stream A E} {chunks : List (List A)} (h : (pull A E).Chunked s chunks) :
    ∀ chunk ∈ chunks, chunk ≠ [] := by
  induction h with
  | done h => simp
  | @chunk s s' chunk chunks hpoll _ ih =>
      have hserves := serves_poll (n := chunkSize) (by decide) s
      rw [show s.poll chunkSize = _ from hpoll] at hserves
      rintro c (_ | ⟨_, hc⟩)
      · exact hserves.1
      · exact ih c hc

/-- A stream that does not fail has chunks, which make up its elements. -/
theorem chunked_of_errorFree (s : Stream A E) (h : s.ErrorFree) :
    ∃ chunks, (pull A E).Chunked s chunks ∧ chunks.flatten = s.elems :=
  (delivers_of_errorFree s h).chunked

theorem merge_eq {left right : Stream A E} {cl cr : List (List A)}
    (hleft : (pull A E).Chunked left cl) (hright : (pull A E).Chunked right cr) :
    mergeLoop (pull A E) ⟨left, [], false⟩ ⟨right, [], false⟩ true [] =
      .ok (mergedChunks cl cr) := by
  have hl : Side.Holds (pull A E) ⟨left, [], false⟩ ([] :: cl) :=
    .running rfl (chunks_ne_nil hleft) hleft
  have hr : Side.Holds (pull A E) ⟨right, [], false⟩ ([] :: cr) :=
    .running rfl (chunks_ne_nil hright) hright
  rw [mergeLoop_eq hl hr, mergedChunks, mergedChunks, servedTo_nil, servedTo_nil]
  rfl

theorem pollItems_of_ne_nil {items : List A} (hne : items ≠ []) (n : ℕ) :
    ∃ s', pollItems (E := E) n items = (.ok (some (items.take n)), s') ∧
      poll n s' = pollItems n (items.drop n) := by
  cases items with
  | nil => exact absurd rfl hne
  | cons a items =>
      rw [pollItems]
      split
      · next hdrop => exact ⟨.exhausted, rfl, by rw [hdrop]; rfl⟩
      · next b rest hdrop => exact ⟨.buffered (b :: rest), rfl, by rw [hdrop]; rfl⟩

/-- What is collected of elements at hand, until the environment asks for an interruption. -/
theorem collect_items (interrupted : ℕ → Bool) (items : List A) {s : Stream A E}
    (hpoll : s.poll chunkSize = pollItems chunkSize items) (round : ℕ) (out : List A) :
    ∃ last got, (pull A E).drain (fun st => !interrupted st.1)
        (fun (round, out) chunk => .next (round + 1, out ++ chunk)) (round, out) s =
          .ok (last, out ++ got) ∧ got <+: items ∧
      (got = items ↔
        ∀ k, k * chunkSize < items.length → interrupted (round + k) = false) := by
  induction hlen : items.length using Nat.strongRecOn generalizing items s round out with
  | ind len ih =>
      by_cases hnil : items = []
      · subst hnil
        refine ⟨round, [], ?_, List.nil_prefix, by simp [← hlen]⟩
        have hend : (pull A E).poll s = (.ok none, .exhausted) := hpoll
        rw [drain_of_none hend, List.append_nil]
      · have hpos := List.length_pos_of_ne_nil hnil
        cases hint : interrupted round with
        | true =>
            refine ⟨round, [], ?_, List.nil_prefix, iff_of_false (Ne.symm hnil) fun hall => ?_⟩
            · rw [drain_of_cond (by simp [hint]), List.append_nil]
            · have hzero := hall 0 (by omega)
              rw [Nat.add_zero, hint] at hzero
              cases hzero
        | false =>
            obtain ⟨s', heq, hrest⟩ := pollItems_of_ne_nil (E := E) hnil chunkSize
            have hcs : 0 < chunkSize := by decide
            have hdrop : (items.drop chunkSize).length = len - chunkSize := by
              rw [List.length_drop, hlen]
            obtain ⟨last, got, hgot, hfirst, hiff⟩ := ih (len - chunkSize) (by omega)
              (items.drop chunkSize) hrest (round + 1) (out ++ items.take chunkSize) hdrop
            refine ⟨last, items.take chunkSize ++ got, ?_, ?_, ?_⟩
            · rw [drain_of_next (by simp [hint]) (hpoll.trans heq) rfl, hgot, List.append_assoc]
            · conv_rhs => rw [← List.take_append_drop chunkSize items]
              exact (List.prefix_append_right_inj _).2 hfirst
            · have happend : items.take chunkSize ++ got = items ↔
                  got = items.drop chunkSize := by
                rw [← List.append_cancel_left_eq (items.take chunkSize) got,
                  List.take_append_drop]
              rw [happend, hiff]
              constructor
              · intro hall k hk
                cases k with
                | zero => exact hint
                | succ k =>
                    rw [Nat.succ_mul] at hk
                    rw [← hall k (by omega), Nat.add_assoc, Nat.add_comm 1 k]
              · intro hall k hk
                rw [← hall (k + 1) (by rw [Nat.succ_mul]; omega), Nat.add_assoc, Nat.add_comm 1 k]

end Stream

/-- Nothing is lost when the other side is in its last chunk by the time a side has ended. -/
def LastChunkReached (cl cr : List (List A)) : Prop :=
  cl.dropLast.flatten.length ≤ cr.flatten.length + 1 ∧
    cr.dropLast.flatten.length ≤ cl.flatten.length

instance (cl cr : List (List A)) : Decidable (LastChunkReached cl cr) :=
  inferInstanceAs (Decidable (_ ∧ _))

theorem length_mergedChunks (cl cr : List (List A)) :
    (mergedChunks cl cr).length = (servedTo (cr.flatten.length + 1) cl).length +
      (servedTo cl.flatten.length cr).length :=
  (interleaves_alternate _ _).length_eq

theorem interleaves_mergedChunks_iff {cl cr : List (List A)} (hl : ∀ chunk ∈ cl, chunk ≠ [])
    (hr : ∀ chunk ∈ cr, chunk ≠ []) :
    Interleaves cl.flatten cr.flatten (mergedChunks cl cr) ↔ LastChunkReached cl cr := by
  rw [LastChunkReached, ← servedTo_eq_flatten_iff hl, ← servedTo_eq_flatten_iff hr]
  constructor
  · intro h
    -- Neither side puts out more than it has, so both put out all.
    have hl := servedTo_isPrefix (cr.flatten.length + 1) cl
    have hr := servedTo_isPrefix cl.flatten.length cr
    have hlen := h.length_eq
    rw [length_mergedChunks] at hlen
    have hlenl := hl.length_le
    have hlenr := hr.length_le
    exact ⟨hl.eq_of_length (by omega), hr.eq_of_length (by omega)⟩
  · rintro ⟨hl, hr⟩
    rw [mergedChunks, hl, hr]
    exact interleaves_alternate _ _

/-- What is collected of a merge, until the environment asks for an interruption. -/
theorem runCollect_merge {left right : Stream A E} {cl cr : List (List A)}
    (hleft : (Stream.pull A E).Chunked left cl) (hright : (Stream.pull A E).Chunked right cr)
    (interrupted : ℕ → Bool) :
    ∃ got, (left.merge right).runCollect interrupted = .ok got ∧ got <+: mergedChunks cl cr ∧
      (got = mergedChunks cl cr ↔ ∀ round,
        round * Stream.chunkSize < (mergedChunks cl cr).length → interrupted round = false) := by
  have hpoll : (left.merge right).poll Stream.chunkSize =
      Stream.pollItems Stream.chunkSize (mergedChunks cl cr) := by
    rw [Stream.merge, Stream.poll, Stream.merge_eq hleft hright]
  obtain ⟨last, got, hgot, hfirst, hiff⟩ := Stream.collect_items interrupted _ hpoll 0 []
  simp only [Nat.zero_add] at hiff
  refine ⟨got, ?_, hfirst, hiff⟩
  rw [Stream.runCollect, hgot]
  rfl

/-- **What `merge` keeps.** A collected merge is an interleaving of the two sides exactly if, when
    one side has ended, the other one is in its last chunk, and the environment asks for no
    interruption before everything is collected. -/
theorem merge_interleaves_iff {left right : Stream A E} {cl cr : List (List A)}
    (hleft : (Stream.pull A E).Chunked left cl) (hright : (Stream.pull A E).Chunked right cr)
    (interrupted : ℕ → Bool) :
    (∃ out, (left.merge right).runCollect interrupted = .ok out ∧
      Interleaves cl.flatten cr.flatten out) ↔
    LastChunkReached cl cr ∧ ∀ round,
      round * Stream.chunkSize < cl.flatten.length + cr.flatten.length →
        interrupted round = false := by
  obtain ⟨got, hrun, hfirst, hiff⟩ := runCollect_merge hleft hright interrupted
  have hkept := interleaves_mergedChunks_iff (Stream.chunks_ne_nil hleft)
    (Stream.chunks_ne_nil hright)
  constructor
  · rintro ⟨out, hout, hinter⟩
    obtain rfl : got = out := Except.ok.inj (hrun.symm.trans hout)
    -- What was collected has the length of both sides, so it is all that was merged.
    have hlen := length_mergedChunks cl cr
    have hl := (servedTo_isPrefix (cr.flatten.length + 1) cl).length_le
    have hr := (servedTo_isPrefix cl.flatten.length cr).length_le
    have hall : got = mergedChunks cl cr :=
      hfirst.eq_of_length_le (by rw [hinter.length_eq]; omega)
    have hmerged := hall ▸ hinter
    refine ⟨hkept.1 hmerged, ?_⟩
    rw [← hmerged.length_eq]
    exact hiff.1 hall
  · rintro ⟨hreached, hcalm⟩
    have hmerged := hkept.2 hreached
    rw [← hmerged.length_eq] at hcalm
    exact ⟨got, hrun, (hiff.2 hcalm) ▸ hmerged⟩

/-- Two short streams. -/
theorem merge_interleaves_iff_short :
    ∃ out, ((Stream.buffered [1, 3] : Stream ℕ Unit).merge (.buffered [2])).runCollect
      (fun _ => false) = .ok out ∧ Interleaves [1, 3] [2] out := by
  have hleft : (Stream.pull ℕ Unit).Chunked (.buffered [1, 3]) [[1, 3]] := .chunk rfl (.done rfl)
  have hright : (Stream.pull ℕ Unit).Chunked (.buffered [2]) [[2]] := .chunk rfl (.done rfl)
  exact (merge_interleaves_iff hleft hright fun _ => false).2 ⟨by decide, fun _ _ => rfl⟩

/-- The first side is empty and the second one has 65 elements: the last of them is lost. -/
theorem merge_loses_second_chunk :
    ¬ ∀ (left right : Stream ℕ Unit) (cl cr : List (List ℕ)),
      (Stream.pull ℕ Unit).Chunked left cl → (Stream.pull ℕ Unit).Chunked right cr →
      ∃ out, (left.merge right).runCollect (fun _ => false) = .ok out ∧
        Interleaves cl.flatten cr.flatten out := by
  intro hall
  have hleft : (Stream.pull ℕ Unit).Chunked .exhausted [] := .done rfl
  have hright : (Stream.pull ℕ Unit).Chunked (.buffered (List.replicate 65 0))
      [List.replicate 64 0, [0]] := .chunk rfl (.chunk rfl (.done rfl))
  obtain ⟨out, hout, hinter⟩ := hall _ _ _ _ hleft hright
  obtain ⟨got, hrun, hfirst, -⟩ := runCollect_merge hleft hright fun _ => false
  obtain rfl : got = out := Except.ok.inj (hrun.symm.trans hout)
  have hle := hfirst.length_le
  rw [hinter.length_eq, length_mergedChunks] at hle
  revert hle
  decide

end IdEffect.Streaming
