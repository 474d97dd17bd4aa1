import Mathlib.Data.List.Nodup
import Mathlib.Logic.Function.Basic
import IdEffect.Streaming.Combinators

set_option autoImplicit false

/-! # `keyed_join`

The sides are polled in turn, a chunk at a time. An element looks its key up in the map of the other
side and then enters the map of its own side, so that of two elements with one key it is the later
one that finds the other: once, whichever side it is on and however the chunks are cut. What has
been put out therefore depends only on the elements read so far (`Joined`), and at the end on all of
them. -/

namespace IdEffect.Streaming

open Pull

variable {S T K A B V W R E : Type} [DecidableEq K]

/-! ## The loop -/

/-- `HashMap`, as far as it is used: `get` is application. -/
abbrev HashMap (K V : Type) : Type := K → Option V

def HashMap.new : HashMap K V := fun _ => none

def HashMap.insert (m : HashMap K V) (k : K) (v : V) : HashMap K V := Function.update m k (some v)

/-- The body of the two `for`s: look into the map of the other side, and enter the own one. -/
def joinItem (triple : K → V → W → R) (other : HashMap K W) :
    HashMap K V × List R → K × V → HashMap K V × List R
  | (own, out), (k, v) =>
      match other k with
      | some w => (own.insert k v, out ++ [triple k v w])
      | none => (own.insert k v, out)

def joinLeft (rightMap : HashMap K B) :
    HashMap K A × List (K × A × B) → K × A → HashMap K A × List (K × A × B) :=
  joinItem (fun k a b => (k, a, b)) rightMap

def joinRight (leftMap : HashMap K A) :
    HashMap K B × List (K × A × B) → K × B → HashMap K B × List (K × A × B) :=
  joinItem (fun k b a => (k, a, b)) leftMap

structure Joining (S T K A B : Type) where
  left : S
  right : T
  leftMap : HashMap K A
  rightMap : HashMap K B
  out : List (K × A × B)
  leftDone : Bool
  rightDone : Bool

namespace Joining

variable (p : Pull S (K × A) E) (q : Pull T (K × B) E)

def new (left : S) (right : T) : Joining S T K A B := ⟨left, right, .new, .new, [], false, false⟩

/-- `if !left_done { … }` -/
def pollLeft (st : Joining S T K A B) : Except E (Joining S T K A B) :=
  if st.leftDone then .ok st
  else
    match p.poll st.left with
    | (.ok (some chunk), left) =>
        let joined := chunk.foldl (joinLeft st.rightMap) (st.leftMap, st.out)
        .ok { st with left := left, leftMap := joined.1, out := joined.2 }
    | (.ok none, left) => .ok { st with left := left, leftDone := true }
    | (.error e, _) => .error e

/-- `if !right_done { … }` -/
def pollRight (st : Joining S T K A B) : Except E (Joining S T K A B) :=
  if st.rightDone then .ok st
  else
    match q.poll st.right with
    | (.ok (some chunk), right) =>
        let joined := chunk.foldl (joinRight st.leftMap) (st.rightMap, st.out)
        .ok { st with right := right, rightMap := joined.1, out := joined.2 }
    | (.ok none, right) => .ok { st with right := right, rightDone := true }
    | (.error e, _) => .error e

/-- A bound for the polls of a side that are still to come. -/
def leftPolls (st : Joining S T K A B) : ℕ := if st.leftDone then 0 else p.size st.left + 1

def rightPolls (st : Joining S T K A B) : ℕ := if st.rightDone then 0 else q.size st.right + 1

variable {p q} {st st' : Joining S T K A B}

theorem pollLeft_polls (h : st.pollLeft p = .ok st') :
    st'.rightDone = st.rightDone ∧ st'.rightPolls q = st.rightPolls q ∧
      (st.leftDone = true ∧ st' = st ∨ st'.leftPolls p < st.leftPolls p) := by
  rw [pollLeft] at h
  split at h
  · next hdone =>
      cases h
      exact ⟨rfl, rfl, .inl ⟨hdone, rfl⟩⟩
  · next hrun =>
      split at h
      · next chunk left hpoll =>
          cases h
          have hlt := p.size_lt hpoll
          exact ⟨rfl, rfl, .inr (by simp [leftPolls, hrun, hlt])⟩
      · cases h
        exact ⟨rfl, rfl, .inr (by simp [leftPolls, hrun])⟩
      · cases h

theorem pollRight_polls (h : st.pollRight q = .ok st') :
    st'.leftPolls p = st.leftPolls p ∧
      (st.rightDone = true ∧ st' = st ∨ st'.rightPolls q < st.rightPolls q) := by
  rw [pollRight] at h
  split at h
  · next hdone =>
      cases h
      exact ⟨rfl, .inl ⟨hdone, rfl⟩⟩
  · next hrun =>
      split at h
      · next chunk right hpoll =>
          cases h
          have hlt := q.size_lt hpoll
          exact ⟨rfl, .inr (by simp [rightPolls, hrun, hlt])⟩
      · cases h
        exact ⟨rfl, .inr (by simp [rightPolls, hrun])⟩
      · cases h

/-- A round polls a side that has not ended. -/
theorem round_polls_lt {st'' : Joining S T K A B} (hrun : ¬ (st.leftDone && st.rightDone) = true)
    (hleft : st.pollLeft p = .ok st') (hright : st'.pollRight q = .ok st'') :
    st''.leftPolls p + st''.rightPolls q < st.leftPolls p + st.rightPolls q := by
  obtain ⟨hdone, hsame, hl⟩ := pollLeft_polls (q := q) hleft
  obtain ⟨hsame', hr⟩ := pollRight_polls (p := p) hright
  rcases hl with ⟨hldone, rfl⟩ | hl
  · rcases hr with ⟨hrdone, rfl⟩ | hr
    · simp [hldone, hrdone] at hrun
    · omega
  · rcases hr with ⟨-, rfl⟩ | hr
    · omega
    · omega

end Joining

/-- The loop of `keyed_join`. -/
def joinLoop (p : Pull S (K × A) E) (q : Pull T (K × B) E) (st : Joining S T K A B) :
    Except E (List (K × A × B)) :=
  if _hrun : (st.leftDone && st.rightDone) = true then .ok st.out
  else
    match _hleft : st.pollLeft p with
    | .error e => .error e
    | .ok st' =>
        match _hright : st'.pollRight q with
        | .error e => .error e
        | .ok st'' => joinLoop p q st''
termination_by st.leftPolls p + st.rightPolls q
decreasing_by exact Joining.round_polls_lt _hrun _hleft _hright

/-- `keyed_join` -/
def keyedJoin (left : Stream (K × A) E) (right : Stream (K × B) E) : Stream (K × A × B) E :=
  .pending (some fun _ => joinLoop (Stream.pull (K × A) E) (Stream.pull (K × B) E)
    (.new left right))

/-! ## What has been put out -/

/-- The map has a value of the list for every key of the list, and no others. -/
structure HashMap.Covers (m : HashMap K V) (l : List (K × V)) : Prop where
  mem : ∀ k v, m k = some v → (k, v) ∈ l
  isSome : ∀ k ∈ l.map Prod.fst, (m k).isSome = true

omit [DecidableEq K] in
theorem HashMap.covers_new : (HashMap.new : HashMap K V).Covers [] where
  mem := by
    intro k v h
    cases h
  isSome := by
    intro k h
    cases h

theorem HashMap.Covers.insert {m : HashMap K V} {l : List (K × V)} (h : m.Covers l) (k : K)
    (v : V) : (m.insert k v).Covers (l ++ [(k, v)]) where
  mem := by
    intro k' v' hget
    rw [HashMap.insert, Function.update_apply] at hget
    split at hget
    · next heq =>
        rw [heq, ← Option.some.inj hget]
        exact List.mem_append_right _ (List.mem_singleton_self _)
    · exact List.mem_append_left _ (h.mem k' v' hget)
  isSome := by
    intro k' hk'
    rw [HashMap.insert, Function.update_apply]
    split
    · rfl
    · next hne =>
        rw [List.map_append, List.mem_append, List.map_singleton, List.mem_singleton] at hk'
        exact h.isSome k' (hk'.resolve_right hne)

/-- The triples `out` join elements of `l` and `r`, for every common key, and for no key twice if
    none occurs twice on a side. -/
structure Joined (l : List (K × A)) (r : List (K × B)) (out : List (K × A × B)) : Prop where
  sound : ∀ k a b, (k, a, b) ∈ out → (k, a) ∈ l ∧ (k, b) ∈ r
  complete : ∀ k ∈ l.map Prod.fst, k ∈ r.map Prod.fst → k ∈ out.map Prod.fst
  nodup : (l.map Prod.fst).Nodup → (r.map Prod.fst).Nodup → (out.map Prod.fst).Nodup

namespace Joined

variable {l : List (K × A)} {r : List (K × B)} {out : List (K × A × B)}

omit [DecidableEq K] in
theorem nil : Joined ([] : List (K × A)) ([] : List (K × B)) [] where
  sound := by simp
  complete := by simp
  nodup := fun _ _ => List.nodup_nil

omit [DecidableEq K] in
/-- The sides may be exchanged. -/
theorem symm (h : Joined l r out) : Joined r l (out.map fun x => (x.1, x.2.2, x.2.1)) where
  sound := by
    intro k b a hmem
    obtain ⟨⟨k', a', b'⟩, hmem', heq⟩ := List.mem_map.1 hmem
    cases heq
    exact (h.sound _ _ _ hmem').symm
  complete := by
    intro k hr hl
    rw [List.map_map]
    exact h.complete k hl hr
  nodup := by
    intro hr hl
    rw [List.map_map]
    exact h.nodup hl hr

omit [DecidableEq K] in
/-- A new element of the first side finds its match, if there is one. -/
theorem item {rightMap : HashMap K B} (h : Joined l r out) (hmap : rightMap.Covers r) (k : K)
    (a : A) :
    Joined (l ++ [(k, a)]) r (out ++ (rightMap k).toList.map fun b => (k, a, b)) where
  sound := by
    intro k' a' b' hmem
    rcases List.mem_append.1 hmem with hmem | hmem
    · obtain ⟨hl, hr⟩ := h.sound k' a' b' hmem
      exact ⟨List.mem_append_left _ hl, hr⟩
    · obtain ⟨b, hb, heq⟩ := List.mem_map.1 hmem
      cases heq
      exact ⟨List.mem_append_right _ (List.mem_singleton_self _),
        hmap.mem _ _ (Option.mem_toList.1 hb)⟩
  complete := by
    intro k' hl hr
    rw [List.map_append, List.mem_append]
    rw [List.map_append, List.mem_append, List.map_singleton, List.mem_singleton] at hl
    rcases hl with hl | rfl
    · exact .inl (h.complete k' hl hr)
    · obtain ⟨b, hb⟩ := Option.isSome_iff_exists.1 (hmap.isSome k' hr)
      exact .inr (by simp [hb])
  nodup := by
    intro hl hr
    rw [List.map_append, List.map_singleton, List.nodup_append] at hl
    rw [List.map_append, List.nodup_append]
    refine ⟨h.nodup hl.1 hr, ?_, ?_⟩
    · cases rightMap k with
      | none => exact List.nodup_nil
      | some b => exact List.nodup_singleton _
    · -- The key is new on its side, so no triple has it yet.
      intro k₁ hk₁ k₂ hk₂ heq
      obtain ⟨⟨k', a', b'⟩, hmem, rfl⟩ := List.mem_map.1 hk₁
      have hk : k₂ = k := by
        obtain ⟨x, hx, rfl⟩ := List.mem_map.1 hk₂
        obtain ⟨b, -, rfl⟩ := List.mem_map.1 hx
        rfl
      have hold : k' ∈ l.map Prod.fst := List.mem_map.2 ⟨_, (h.sound k' a' b' hmem).1, rfl⟩
      exact hl.2.2 k' hold k (List.mem_singleton_self k) (heq.trans hk)

omit [DecidableEq K] in
/-- **The inner join of unique keys**: every pair of elements with one key, once. -/
theorem mem_iff (h : Joined l r out) (hl : (l.map Prod.fst).Nodup) (hr : (r.map Prod.fst).Nodup) :
    out.Nodup ∧ ∀ k a b, (k, a, b) ∈ out ↔ (k, a) ∈ l ∧ (k, b) ∈ r := by
  refine ⟨(h.nodup hl hr).of_map, fun k a b => ⟨h.sound k a b, ?_⟩⟩
  rintro ⟨ha, hb⟩
  obtain ⟨⟨k', a', b'⟩, hmem, rfl⟩ := List.mem_map.1
    (h.complete k (List.mem_map.2 ⟨_, ha, rfl⟩) (List.mem_map.2 ⟨_, hb, rfl⟩))
  obtain ⟨ha', hb'⟩ := h.sound k' a' b' hmem
  have haeq : (k', a) = (k', a') := List.inj_on_of_nodup_map hl ha ha' rfl
  have hbeq : (k', b) = (k', b') := List.inj_on_of_nodup_map hr hb hb' rfl
  rw [(Prod.mk.inj haeq).2, (Prod.mk.inj hbeq).2]
  exact hmem

end Joined

/-! ## The loop joins -/

theorem joinItem_eq (triple : K → V → W → R) (other : HashMap K W) (own : HashMap K V)
    (out : List R) (k : K) (v : V) :
    joinItem triple other (own, out) (k, v) =
      (own.insert k v, out ++ (other k).toList.map (triple k v)) := by
  rw [joinItem]
  cases other k with
  | none => simp
  | some w => rfl

section chunk

variable {l : List (K × A)} {r : List (K × B)} {out : List (K × A × B)} {leftMap : HashMap K A}
  {rightMap : HashMap K B}

theorem joined_left (hright : rightMap.Covers r) (chunk : List (K × A)) (h : Joined l r out)
    (hleft : leftMap.Covers l) :
    Joined (l ++ chunk) r (chunk.foldl (joinLeft rightMap) (leftMap, out)).2 ∧
      (chunk.foldl (joinLeft rightMap) (leftMap, out)).1.Covers (l ++ chunk) := by
  induction chunk generalizing l out leftMap with
  | nil =>
      rw [List.append_nil]
      exact ⟨h, hleft⟩
  | cons x chunk ih =>
      obtain ⟨k, a⟩ := x
      have hrest := ih (h.item hright k a) (hleft.insert k a)
      rw [List.append_assoc, List.singleton_append] at hrest
      rw [List.foldl_cons, joinLeft, joinItem_eq]
      exact hrest

theorem joined_right (hleft : leftMap.Covers l) (chunk : List (K × B)) (h : Joined l r out)
    (hright : rightMap.Covers r) :
    Joined l (r ++ chunk) (chunk.foldl (joinRight leftMap) (rightMap, out)).2 ∧
      (chunk.foldl (joinRight leftMap) (rightMap, out)).1.Covers (r ++ chunk) := by
  induction chunk generalizing r out rightMap with
  | nil =>
      rw [List.append_nil]
      exact ⟨h, hright⟩
  | cons x chunk ih =>
      obtain ⟨k, b⟩ := x
      have hitem : Joined l (r ++ [(k, b)]) (out ++ (leftMap k).toList.map fun a => (k, a, b)) := by
        have hswap := (h.symm.item hleft k b).symm
        rw [List.map_append, List.map_map, List.map_map] at hswap
        exact (List.map_id'' (fun _ => rfl) out) ▸ hswap
      have hrest := ih hitem (hright.insert k b)
      rw [List.append_assoc, List.singleton_append] at hrest
      rw [List.foldl_cons, joinRight, joinItem_eq]
      exact hrest

end chunk

namespace Joining

variable {p : Pull S (K × A) E} {q : Pull T (K × B) E} {st : Joining S T K A B}
  {l l' : List (K × A)} {r r' : List (K × B)}

/-- The elements read so far are `l` and `r`. -/
structure Read (st : Joining S T K A B) (l : List (K × A)) (r : List (K × B)) : Prop where
  joined : Joined l r st.out
  left : st.leftMap.Covers l
  right : st.rightMap.Covers r

/-- The elements a side will still deliver. -/
def Rest (p : Pull S V E) (src : S) (isDone : Bool) (l : List V) : Prop :=
  if isDone then l = [] else p.Delivers src l

theorem Read.pollLeft (h : st.Read l r) (hrest : Rest p st.left st.leftDone l') :
    ∃ st' chunk rest, st.pollLeft p = .ok st' ∧ l' = chunk ++ rest ∧ st'.Read (l ++ chunk) r ∧
      Rest p st'.left st'.leftDone rest ∧ st'.right = st.right ∧ st'.rightDone = st.rightDone := by
  cases hdone : st.leftDone with
  | true =>
      rw [hdone] at hrest
      refine ⟨st, [], l', by rw [Joining.pollLeft, if_pos hdone], rfl, ?_, hdone ▸ hrest, rfl, rfl⟩
      rw [List.append_nil]
      exact h
  | false =>
      rw [hdone] at hrest
      have hne : ¬ st.leftDone = true := by simp [hdone]
      cases hrest with
      | @done _ src hpoll =>
          refine ⟨{ st with left := src, leftDone := true }, [], [], ?_, rfl, ?_, rfl, rfl, rfl⟩
          · rw [Joining.pollLeft, if_neg hne, hpoll]
          · rw [List.append_nil]
            exact ⟨h.joined, h.left, h.right⟩
      | @chunk _ src chunk rest hpoll hrest =>
          obtain ⟨hjoined, hleft⟩ := joined_left h.right chunk h.joined h.left
          refine ⟨{ st with
              left := src
              leftMap := (chunk.foldl (joinLeft st.rightMap) (st.leftMap, st.out)).1
              out := (chunk.foldl (joinLeft st.rightMap) (st.leftMap, st.out)).2 },
            chunk, rest, by rw [Joining.pollLeft, if_neg hne, hpoll], rfl,
            ⟨hjoined, hleft, h.right⟩, ?_, rfl, rfl⟩
          show Rest p src st.leftDone rest
          rw [hdone]
          exact hrest

theorem Read.pollRight (h : st.Read l r) (hrest : Rest q st.right st.rightDone r') :
    ∃ st' chunk rest, st.pollRight q = .ok st' ∧ r' = chunk ++ rest ∧ st'.Read l (r ++ chunk) ∧
      Rest q st'.right st'.rightDone rest ∧ st'.left = st.left ∧ st'.leftDone = st.leftDone := by
  cases hdone : st.rightDone with
  | true =>
      rw [hdone] at hrest
      refine ⟨st, [], r', by rw [Joining.pollRight, if_pos hdone], rfl, ?_, hdone ▸ hrest, rfl, rfl⟩
      rw [List.append_nil]
      exact h
  | false =>
      rw [hdone] at hrest
      have hne : ¬ st.rightDone = true := by simp [hdone]
      cases hrest with
      | @done _ src hpoll =>
          refine ⟨{ st with right := src, rightDone := true }, [], [], ?_, rfl, ?_, rfl, rfl, rfl⟩
          · rw [Joining.pollRight, if_neg hne, hpoll]
          · rw [List.append_nil]
            exact ⟨h.joined, h.left, h.right⟩
      | @chunk _ src chunk rest hpoll hrest =>
          obtain ⟨hjoined, hright⟩ := joined_right h.left chunk h.joined h.right
          refine ⟨{ st with
              right := src
              rightMap := (chunk.foldl (joinRight st.leftMap) (st.rightMap, st.out)).1
              out := (chunk.foldl (joinRight st.leftMap) (st.rightMap, st.out)).2 },
            chunk, rest, by rw [Joining.pollRight, if_neg hne, hpoll], rfl,
            ⟨hjoined, h.left, hright⟩, ?_, rfl, rfl⟩
          show Rest q src st.rightDone rest
          rw [hdone]
          exact hrest

end Joining

/-- The loop joins what has been read with what is still to come, by induction on the polls. -/
theorem joinLoop_joined {p : Pull S (K × A) E} {q : Pull T (K × B) E} {st : Joining S T K A B}
    {l l' : List (K × A)} {r r' : List (K × B)} (h : st.Read l r)
    (hleft : Joining.Rest p st.left st.leftDone l')
    (hright : Joining.Rest q st.right st.rightDone r') :
    ∃ out, joinLoop p q st = .ok out ∧ Joined (l ++ l') (r ++ r') out := by
  induction hpolls : st.leftPolls p + st.rightPolls q using Nat.strongRecOn
    generalizing st l l' r r' with
  | ind polls ih =>
      rw [joinLoop]
      split
      · next hend =>
          rw [Bool.and_eq_true] at hend
          rw [hend.1] at hleft
          rw [hend.2] at hright
          obtain rfl : l' = [] := hleft
          obtain rfl : r' = [] := hright
          exact ⟨st.out, rfl, by simpa only [List.append_nil] using h.joined⟩
      · next hrun =>
          obtain ⟨st', chunk, rest, hpoll, rfl, hread, hrest, hsrc, hdone⟩ := h.pollLeft hleft
          rw [← hsrc, ← hdone] at hright
          obtain ⟨st'', chunk', rest', hpoll', rfl, hread', hrest', hsrc', hdone'⟩ :=
            hread.pollRight hright
          rw [← hsrc', ← hdone'] at hrest
          have hlt := Joining.round_polls_lt hrun hpoll hpoll'
          obtain ⟨out, hout, hjoined⟩ := ih _ (hpolls ▸ hlt) hread' hrest hrest' rfl
          rw [List.append_assoc, List.append_assoc] at hjoined
          refine ⟨out, ?_, hjoined⟩
          split
          · next e heq =>
              rw [hpoll] at heq
              cases heq
          · next st₁ heq =>
              obtain rfl : st' = st₁ := by simpa [hpoll] using heq
              split
              · next e heq' =>
                  rw [hpoll'] at heq'
                  cases heq'
              · next st₂ heq' =>
                  obtain rfl : st'' = st₂ := by simpa [hpoll'] using heq'
                  exact hout

/-- **`keyed_join` is the inner join.** Whatever the chunks of two streams that do not fail: every
    triple put out joins an element of each side with its key, a key of both sides is put out, and
    if no side has a key twice, every pair of elements with one key is put out exactly once. -/
theorem keyedJoin_joins {left : Stream (K × A) E} {right : Stream (K × B) E} {l : List (K × A)}
    {r : List (K × B)} (hleft : left.Yields l) (hright : right.Yields r) :
    ∃ out, (keyedJoin left right).Yields out ∧ (keyedJoin left right).Collects out ∧
      (∀ k a b, (k, a, b) ∈ out → (k, a) ∈ l ∧ (k, b) ∈ r) ∧
      (∀ k a b, (k, a) ∈ l → (k, b) ∈ r → ∃ a' b', (k, a', b') ∈ out) ∧
      ((l.map Prod.fst).Nodup → (r.map Prod.fst).Nodup →
        out.Nodup ∧ ∀ k a b, (k, a, b) ∈ out ↔ (k, a) ∈ l ∧ (k, b) ∈ r) := by
  have hread : (Joining.new left right : Joining _ _ K A B).Read [] [] :=
    ⟨.nil, HashMap.covers_new, HashMap.covers_new⟩
  obtain ⟨out, hout, hjoined⟩ := joinLoop_joined hread hleft.delivers hright.delivers
  rw [List.nil_append, List.nil_append] at hjoined
  have hyields : (keyedJoin left right).Yields out := Stream.yields_pending hout
  refine ⟨out, hyields, hyields.collects, hjoined.sound, fun k a b ha hb => ?_, hjoined.mem_iff⟩
  obtain ⟨⟨k', a', b'⟩, hmem, rfl⟩ := List.mem_map.1
    (hjoined.complete k (List.mem_map.2 ⟨_, ha, rfl⟩) (List.mem_map.2 ⟨_, hb, rfl⟩))
  exact ⟨a', b', hmem⟩

/-- A channel with an empty chunk on one side. -/
theorem keyedJoin_joins_channel :
    ∃ out, (keyedJoin (.channel ([[(1, 'a')], [], [(2, 'b')]].map .chunk) [] false)
      (.buffered [(2, true), (1, false)]) : Stream (ℕ × Char × Bool) Unit).Collects out ∧
      out.Nodup ∧ ∀ k a b, (k, a, b) ∈ out ↔
        (k, a) ∈ [(1, 'a'), (2, 'b')] ∧ (k, b) ∈ [(2, true), (1, false)] := by
  have hleft := yields_channel (E := Unit) [[(1, 'a')], [], [(2, 'b')]] .disconnected
  have hright : (Stream.buffered [(2, true), (1, false)] : Stream (ℕ × Bool) Unit).Yields
      [(2, true), (1, false)] := ⟨trivial, rfl⟩
  obtain ⟨out, -, hcollects, -, -, hexact⟩ := keyedJoin_joins hleft hright
  exact ⟨out, hcollects, hexact (by decide) (by decide)⟩

end IdEffect.Streaming
