import Mathlib.Data.List.Basic
import Mathlib.Data.List.Range

set_option autoImplicit false

/-! # Broadcast channels

A broadcast channel keeps the last `ring` of the values sent through it, and a cursor for each of
its receivers. A receiver whose next value has been overwritten lags: it loses what it missed. `len`
counts the values still in the ring that some receiver alive when they were sent has not seen. The
fact a sender can build on is `le_len`: no receiver that has not lagged is further behind than
`len`. -/

namespace Broadcast

variable {A : Type}

/-- A receiver: where it came in, what it reads next, and where it was dropped. -/
structure Cursor where
  start : ℕ
  pos : ℕ
  stop : Option ℕ
deriving DecidableEq

/-- The receiver was alive when value number `i` was sent, and has not seen it. -/
def Cursor.misses (c : Cursor) (i : ℕ) : Bool :=
  decide (c.start ≤ i) && decide (c.pos ≤ i) &&
    match c.stop with
    | none => true
    | some n => decide (i < n)

structure Channel (A : Type) where
  ring : ℕ
  sent : List A
  cursors : List Cursor
deriving DecidableEq

inductive Received (A : Type) where
  | value (v : A)
  | lagged (missed : ℕ)
  | empty
deriving DecidableEq

namespace Channel

def new (ring : ℕ) : Channel A := ⟨ring, [], []⟩

def inRing (ch : Channel A) (i : ℕ) : Bool := decide (ch.sent.length ≤ i + ch.ring)

def len (ch : Channel A) : ℕ :=
  (List.range ch.sent.length).countP fun i => ch.inRing i && ch.cursors.any (·.misses i)

/-- Sending fails if nobody listens. -/
def send (ch : Channel A) (v : A) : Option (Channel A) :=
  if ch.cursors.any (·.stop.isNone) then some { ch with sent := ch.sent ++ [v] } else none

def subscribe (ch : Channel A) : Channel A :=
  { ch with cursors := ch.cursors ++ [⟨ch.sent.length, ch.sent.length, none⟩] }

def setCursor (ch : Channel A) (r : ℕ) (c : Cursor) : Channel A :=
  { ch with cursors := ch.cursors.set r c }

/-- Receiver `r`, at cursor `c`, reads. -/
def recv (ch : Channel A) (r : ℕ) (c : Cursor) : Received A × Channel A :=
  if c.pos + ch.ring < ch.sent.length then
    (.lagged (ch.sent.length - ch.ring - c.pos),
      ch.setCursor r { c with pos := ch.sent.length - ch.ring })
  else
    match ch.sent[c.pos]? with
    | some v => (.value v, ch.setCursor r { c with pos := c.pos + 1 })
    | none => (.empty, ch)

/-- Receiver `r`, at cursor `c`, goes away; it still has to count down what it has not seen. -/
def drop (ch : Channel A) (r : ℕ) (c : Cursor) : Channel A :=
  ch.setCursor r { c with stop := some ch.sent.length }

variable {ch ch' : Channel A} {r : ℕ} {c : Cursor} {v : A}

theorem send_eq_some (h : ch.send v = some ch') : ch' = { ch with sent := ch.sent ++ [v] } := by
  unfold send at h
  split at h
  · exact (Option.some.inj h).symm
  · cases h

theorem mem_subscribe (h : ch.subscribe.cursors[r]? = some c) :
    ch.cursors[r]? = some c ∨
      r = ch.cursors.length ∧ c = ⟨ch.sent.length, ch.sent.length, none⟩ := by
  rw [subscribe, List.getElem?_append] at h
  split at h
  · exact Or.inl h
  · next hr =>
      have hidx : r - ch.cursors.length = 0 := by
        by_contra hne
        simp [List.getElem?_eq_none (l := [(_ : Cursor)]) (i := r - ch.cursors.length)
          (by simp; omega)] at h
      rw [hidx, List.getElem?_cons_zero, Option.some.injEq] at h
      exact Or.inr ⟨by omega, h.symm⟩

theorem mem_setCursor {d : Cursor} {q : ℕ} (h : (ch.setCursor r c).cursors[q]? = some d) :
    (q = r ∧ d = c) ∨ (q ≠ r ∧ ch.cursors[q]? = some d) := by
  rw [setCursor, List.getElem?_set] at h
  split at h
  · next hq =>
      split at h
      · exact Or.inl ⟨hq.symm, (Option.some.inj h).symm⟩
      · cases h
  · next hq => exact Or.inr ⟨fun he => hq he.symm, h⟩

/-- What a receiver can get. -/
theorem recv_cases (ch : Channel A) (r : ℕ) (c : Cursor) :
    (c.pos + ch.ring < ch.sent.length ∧
        ch.recv r c = (.lagged (ch.sent.length - ch.ring - c.pos),
          ch.setCursor r { c with pos := ch.sent.length - ch.ring })) ∨
      (∃ v, ch.sent[c.pos]? = some v ∧
        ch.recv r c = (.value v, ch.setCursor r { c with pos := c.pos + 1 })) ∨
      (ch.sent.length ≤ c.pos ∧ ch.recv r c = (.empty, ch)) := by
  unfold recv
  by_cases hlag : c.pos + ch.ring < ch.sent.length
  · rw [if_pos hlag]
    exact Or.inl ⟨hlag, rfl⟩
  · rw [if_neg hlag]
    cases hv : ch.sent[c.pos]? with
    | some v => exact Or.inr (Or.inl ⟨v, rfl, rfl⟩)
    | none => exact Or.inr (Or.inr ⟨List.getElem?_eq_none_iff.1 hv, rfl⟩)

theorem countP_range_le (m n : ℕ) : (List.range n).countP (fun i => decide (m ≤ i)) = n - m := by
  induction n with
  | zero => simp
  | succ n ih =>
      rw [List.range_succ, List.countP_append, ih, List.countP_singleton]
      by_cases h : m ≤ n
      · simp [h]
        omega
      · simp [h]
        omega

/-- **How far behind a receiver is.** A live receiver whose next value is still in the ring is
    behind by at most `len` values. -/
theorem le_len (hc : ch.cursors[r]? = some c) (hlive : c.stop = none) (hstart : c.start ≤ c.pos)
    (hring : ch.sent.length ≤ c.pos + ch.ring) : ch.sent.length - c.pos ≤ ch.len := by
  rw [← countP_range_le]
  refine List.countP_mono_left fun i _ hi => ?_
  have hle : c.pos ≤ i := of_decide_eq_true hi
  have hmem : c ∈ ch.cursors := List.mem_of_getElem? hc
  have hmiss : c.misses i = true := by
    simp only [Cursor.misses, hlive, Bool.and_true, Bool.and_eq_true, decide_eq_true_eq]
    omega
  have hin : ch.inRing i = true := decide_eq_true (by omega)
  rw [hin, Bool.true_and, List.any_eq_true]
  exact ⟨c, hmem, hmiss⟩

end Channel

end Broadcast
