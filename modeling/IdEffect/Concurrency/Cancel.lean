import Mathlib.Logic.Function.Basic
import Mathlib.Logic.Relation
import Mathlib.Order.Nat
import IdEffect.Lib.Stacks
import IdEffect.Lib.Transition

set_option autoImplicit false

/-! # Cancelling a tree of tokens

A token knows its children by weak references. `cancel` swaps the flag, notifies, reads the list of
children under its lock, upgrades the references one by one, and cancels the children it has got;
`child_token` pushes the new child onto the list of the parent and then looks at the parent's flag.
A call is a list of frames. What the frames know of the tree is an invariant (`Shaped`). -/

namespace IdEffect.Concurrency

open Transition Stacks Relation

structure CancellationInner where
  cancelled : Bool
  children : List ℕ
  deriving DecidableEq, Repr

/-- A frame of a call. Those of `cancel` also say where the cancelling began (`t`); the references
    in `weak` are still to be upgraded, the handles in `strong` and `children` to be cancelled. -/
inductive Frame where
  | swap (t u : ℕ)
  | notify (t u : ℕ)
  | read (t u : ℕ)
  | upgrade (t u : ℕ) (weak strong : List ℕ)
  | loop (t u : ℕ) (children : List ℕ)
  | create (p : ℕ)
  | push (p c : ℕ)
  | check (p c : ℕ)
  | give (c : ℕ)
  deriving DecidableEq, Repr

/-- The handles a frame has, or borrows. -/
def Frame.holds : Frame → List ℕ
  | .swap _ u | .notify _ u | .read _ u => [u]
  | .upgrade _ u _ strong => u :: strong
  | .loop _ u children => u :: children
  | .create p => [p]
  | .push p c | .check p c => [p, c]
  | .give c => [c]

/-- The frame belongs to a call of `cancel` on `u` that will return `true`. -/
def Frame.wins (u : ℕ) : Frame → Bool
  | .notify _ v | .read _ v | .upgrade _ v _ _ | .loop _ v _ => u == v
  | .swap _ _ | .create _ | .push _ _ | .check _ _ | .give _ => false

/-- The tokens, by their numbers, with the handles outside of any call; who is whose child, where
    the cancelling of a token began, and the calls of `cancel` that have returned `true` are
    recorded on the side. -/
structure Tokens where
  next : ℕ
  inner : ℕ → CancellationInner
  handles : ℕ → ℕ
  parent : ℕ → Option ℕ
  cause : ℕ → Option ℕ
  calls : List (List Frame)
  won : List ℕ

/-- A new token, another handle or one less, a call of `cancel` or `child_token`, or a step of one.
-/
inductive Label where
  | new
  | clone (u : ℕ)
  | drop (u : ℕ)
  | cancel (u : ℕ)
  | child (p : ℕ)
  | step (i : ℕ)
  deriving DecidableEq, Repr

namespace Tokens

def init : Tokens := ⟨0, fun _ => ⟨false, []⟩, fun _ => 0, fun _ => none, fun _ => none, [], []⟩

variable (s : Tokens)

def isCancelled (u : ℕ) : Bool := (s.inner u).cancelled

def frames : List Frame := s.calls.flatten

/-- The token has a handle somewhere, so that a weak reference to it can be upgraded. -/
def Live (u : ℕ) : Prop := 0 < s.handles u ∨ ∃ f ∈ s.frames, u ∈ f.holds

instance (u : ℕ) : Decidable (s.Live u) := inferInstanceAs (Decidable (_ ∨ _))

/-- `CancellationToken::new`, with one handle. -/
def fresh : Tokens :=
  { s with next := s.next + 1, inner := Function.update s.inner s.next ⟨false, []⟩ }

def setHandles (u n : ℕ) : Tokens := { s with handles := Function.update s.handles u n }

/-- The swap of the flag finds it down. -/
def setCancelled (t u : ℕ) : Tokens :=
  { s with
    inner := Function.update s.inner u { s.inner u with cancelled := true }
    cause := Function.update s.cause u (some t) }

def pushChild (p c : ℕ) : Tokens :=
  { s with
    inner := Function.update s.inner p { s.inner p with children := (s.inner p).children ++ [c] } }

def setParent (c p : ℕ) : Tokens := { s with parent := Function.update s.parent c (some p) }

/-- What the first frame of a call does, and the frames it leaves in its place. -/
def run : Frame → List Frame × Tokens
  -- `cancel`
  | .swap t u => if s.isCancelled u then ([], s) else ([.notify t u], s.setCancelled t u)
  | .notify t u => ([.read t u], s)
  | .read t u => ([.upgrade t u (s.inner u).children []], s)
  | .upgrade t u [] strong => ([.loop t u strong], s)
  | .upgrade t u (c :: weak) strong =>
      ([.upgrade t u weak (if s.Live c then strong ++ [c] else strong)], s)
  | .loop t u (c :: children) => ([.swap t c, .loop t u children], s)
  | .loop _ u [] => ([], { s with won := s.won ++ [u] })
  -- `child_token`
  | .create p => ([.push p s.next], s.fresh.setParent s.next p)
  | .push p c => ([.check p c], s.pushChild p c)
  | .check p c => if s.isCancelled p then ([.swap c c, .give c], s) else ([.give c], s)
  | .give c => ([], s.setHandles c (s.handles c + 1))

/-- The first frame of call `i` becomes `new`. -/
def advance (i : ℕ) (new rest : List Frame) : Tokens :=
  { s with calls := replace s.calls i new rest }

/-- A call begins with the frame `f`. -/
def begin (f : Frame) : Tokens := { s with calls := s.calls ++ [[f]] }

def step : Label → Option Tokens
  | .new => some (s.fresh.setHandles s.next 1)
  | .clone u => if 0 < s.handles u then some (s.setHandles u (s.handles u + 1)) else none
  | .drop u => if 0 < s.handles u then some (s.setHandles u (s.handles u - 1)) else none
  | .cancel u => if 0 < s.handles u then some (s.begin (.swap u u)) else none
  | .child p => if 0 < s.handles p then some (s.begin (.create p)) else none
  | .step i =>
      match s.calls[i]? with
      | some (f :: rest) => some ((s.run f).2.advance i (s.run f).1 rest)
      | some [] | none => none

/-- All calls have returned. -/
def Quiet : Prop := s.frames = []

def ChildOf (p c : ℕ) : Prop := s.parent c = some p

/-- The tokens that come from `t` through calls of `child_token`. -/
def Descends : ℕ → ℕ → Prop := TransGen s.ChildOf

variable {s} {s' : Tokens} {i : ℕ} {f : Frame} {rest : List Frame}

/-! ## What the calls know of the tree -/

/-- A frame goes downwards from where the cancelling began, and its references are to children. -/
def FrameOk (s : Tokens) : Frame → Prop
  | .swap t u | .notify t u | .read t u => u < s.next ∧ ReflTransGen s.ChildOf t u
  | .upgrade t u weak strong =>
      (u < s.next ∧ ReflTransGen s.ChildOf t u)
        ∧ (∀ c ∈ weak, s.ChildOf u c) ∧ ∀ c ∈ strong, s.ChildOf u c
  | .loop t u children =>
      (u < s.next ∧ ReflTransGen s.ChildOf t u) ∧ ∀ c ∈ children, s.ChildOf u c
  | .create p => p < s.next
  | .push p c | .check p c => s.ChildOf p c
  | .give c => c < s.next

/-- Tokens have smaller numbers than their children; a child is on the list of its parent, or is
    about to be pushed; and a token that is cancelled has been by exactly one call, which has
    returned `true` or will. -/
structure Shaped (s : Tokens) : Prop where
  lt : ∀ p c, s.ChildOf p c → p < c ∧ c < s.next
  frames : ∀ f ∈ s.frames, s.FrameOk f
  children : ∀ p, ∀ c ∈ (s.inner p).children, s.ChildOf p c
  pushed : ∀ p c, s.ChildOf p c → c ∈ (s.inner p).children ∨ .push p c ∈ s.frames
  cause : ∀ t u, s.cause u = some t → ReflTransGen s.ChildOf t u
  held : ∀ u, 0 < s.handles u → u < s.next
  unborn : ∀ u, s.next ≤ u → s.isCancelled u = false
  counted : ∀ u, s.won.count u + s.frames.countP (Frame.wins u) = (s.isCancelled u).toNat

/-- The tree only grows. -/
structure Grows (s s' : Tokens) : Prop where
  next : s.next ≤ s'.next
  child : ∀ p c, s.ChildOf p c → s'.ChildOf p c

theorem Grows.below (h : Grows s s') {t u : ℕ} (htu : ReflTransGen s.ChildOf t u) :
    ReflTransGen s'.ChildOf t u := ReflTransGen.mono h.child t u htu

theorem FrameOk.mono (h : s.FrameOk f) (hgrows : Grows s s') : s'.FrameOk f := by
  have hnode : ∀ {t u}, u < s.next ∧ ReflTransGen s.ChildOf t u →
      u < s'.next ∧ ReflTransGen s'.ChildOf t u :=
    fun hu => ⟨Nat.lt_of_lt_of_le hu.1 hgrows.next, hgrows.below hu.2⟩
  cases f with
  | swap t u | notify t u | read t u => exact hnode h
  | upgrade t u weak strong =>
      exact ⟨hnode h.1, fun c hc => hgrows.child u c (h.2.1 c hc),
        fun c hc => hgrows.child u c (h.2.2 c hc)⟩
  | loop t u children => exact ⟨hnode h.1, fun c hc => hgrows.child u c (h.2 c hc)⟩
  | create p => exact Nat.lt_of_lt_of_le h hgrows.next
  | push p c | check p c => exact hgrows.child p c h
  | give c => exact Nat.lt_of_lt_of_le h hgrows.next

section Advance

variable {m : Tokens} {new : List Frame}

@[simp] theorem advance_inner : (m.advance i new rest).inner = m.inner := rfl

@[simp] theorem isCancelled_advance {u : ℕ} :
    (m.advance i new rest).isCancelled u = m.isCancelled u := rfl

theorem mem_frames_advance {g : Frame} (hcalls : m.calls = s.calls)
    (hcall : s.calls[i]? = some (f :: rest)) (hg : g ∈ (m.advance i new rest).frames) :
    g ∈ new ∨ g ∈ s.frames := by
  rw [frames, advance, hcalls] at hg
  exact mem_replace hcall hg

theorem frames_advance_of_mem {g : Frame} (hcalls : m.calls = s.calls)
    (hcall : s.calls[i]? = some (f :: rest)) (hg : g ∈ s.frames) :
    g = f ∨ g ∈ (m.advance i new rest).frames := by
  rw [frames, advance, hcalls]
  exact mem_replace_of_mem hcall hg

theorem frames_advance_of_mem_new {g : Frame} (hcalls : m.calls = s.calls)
    (hcall : s.calls[i]? = some (f :: rest)) (hg : g ∈ new) :
    g ∈ (m.advance i new rest).frames := by
  rw [frames, advance, hcalls]
  exact mem_replace_of_mem_new hcall hg

theorem countP_advance (hcalls : m.calls = s.calls) (hcall : s.calls[i]? = some (f :: rest))
    (new : List Frame) (u : ℕ) :
    (m.advance i new rest).frames.countP (Frame.wins u) + (f.wins u).toNat
      = s.frames.countP (Frame.wins u) + new.countP (Frame.wins u) := by
  rw [frames, advance, hcalls]
  exact countP_replace _ hcall new

theorem frameOk_advance (h : s.Shaped) (hcalls : m.calls = s.calls)
    (hcall : s.calls[i]? = some (f :: rest)) (hgrows : Grows s m)
    (hnew : ∀ g ∈ new, m.FrameOk g) : ∀ g ∈ (m.advance i new rest).frames,
      (m.advance i new rest).FrameOk g := by
  intro g hg
  rcases mem_frames_advance hcalls hcall hg with hg | hg
  · exact (hnew g hg).mono ⟨Nat.le_refl _, fun _ _ h => h⟩
  · exact (h.frames g hg).mono ⟨hgrows.next, hgrows.child⟩

theorem top_mem (hcall : s.calls[i]? = some (f :: rest)) : f ∈ s.frames :=
  List.mem_flatten.2 ⟨_, List.mem_of_getElem? hcall, List.mem_cons_self ..⟩

/-- A step that leaves the tokens as they are, by a frame that is not about to push a child. -/
theorem Shaped.same (h : s.Shaped) (hcall : s.calls[i]? = some (f :: rest))
    (hpush : ∀ p c, f ≠ .push p c) (hnew : ∀ g ∈ new, s.FrameOk g)
    (hwins : ∀ u, new.countP (Frame.wins u) = (f.wins u).toNat) :
    (s.advance i new rest).Shaped where
  lt := h.lt
  frames := frameOk_advance h rfl hcall ⟨Nat.le_refl _, fun _ _ h => h⟩ hnew
  children := h.children
  pushed := fun p c hc => (h.pushed p c hc).imp_right fun hmem =>
    (frames_advance_of_mem rfl hcall hmem).resolve_left fun heq => hpush p c heq.symm
  cause := h.cause
  held := h.held
  unborn := h.unborn
  counted := by
    intro u
    have hcount := countP_advance rfl hcall new u
    rw [hwins] at hcount
    rw [Nat.add_right_cancel hcount]
    exact h.counted u

end Advance

/-! ## One step of a call -/

theorem childOf_setParent {p c q e : ℕ} :
    (s.setParent c p).ChildOf q e ↔ if e = c then q = p else s.ChildOf q e := by
  simp only [ChildOf, setParent, Function.update_apply]
  split
  · rw [Option.some.injEq, eq_comm]
  · exact Iff.rfl

theorem isCancelled_setCancelled {t u v : ℕ} :
    (s.setCancelled t u).isCancelled v = if v = u then true else s.isCancelled v := by
  simp only [isCancelled, setCancelled, Function.update_apply]
  split
  · rfl
  · rfl

theorem children_setCancelled {t u v : ℕ} :
    ((s.setCancelled t u).inner v).children = (s.inner v).children := by
  simp only [setCancelled, Function.update_apply]
  split
  · next heq => rw [heq]
  · rfl

theorem isCancelled_pushChild {p c v : ℕ} :
    (s.pushChild p c).isCancelled v = s.isCancelled v := by
  simp only [isCancelled, pushChild, Function.update_apply]
  split
  · next heq => rw [heq]
  · rfl

theorem children_pushChild {p c q : ℕ} : ((s.pushChild p c).inner q).children
    = if q = p then (s.inner q).children ++ [c] else (s.inner q).children := by
  simp only [pushChild, Function.update_apply]
  split
  · next heq => rw [heq]
  · rfl

theorem inner_fresh {u : ℕ} :
    s.fresh.inner u = if u = s.next then ⟨false, []⟩ else s.inner u := by
  simp only [fresh, Function.update_apply]

theorem Shaped.isCancelled_fresh (h : s.Shaped) (u : ℕ) :
    s.fresh.isCancelled u = s.isCancelled u := by
  rw [isCancelled, inner_fresh]
  split
  · next heq => exact (h.unborn u heq.ge).symm
  · rfl

theorem Shaped.run_swap (h : s.Shaped) {t u : ℕ}
    (hcall : s.calls[i]? = some (.swap t u :: rest)) (hc : s.isCancelled u = false) :
    ((s.setCancelled t u).advance i [.notify t u] rest).Shaped := by
  have hok : s.FrameOk (.swap t u) := h.frames _ (top_mem hcall)
  refine ⟨h.lt, frameOk_advance h rfl hcall ⟨Nat.le_refl _, fun _ _ h => h⟩ ?_, ?_, ?_, ?_, h.held,
    ?_, ?_⟩
  · intro g hg
    obtain rfl := List.mem_singleton.1 hg
    exact hok
  · intro p c hc
    rw [advance_inner, children_setCancelled] at hc
    exact h.children p c hc
  · intro p c hc
    rw [advance_inner, children_setCancelled]
    exact (h.pushed p c hc).imp_right fun hmem =>
      (frames_advance_of_mem rfl hcall hmem).resolve_left fun heq => by cases heq
  · intro t' v hv
    replace hv : Function.update s.cause u (some t) v = some t' := hv
    rw [Function.update_apply] at hv
    split at hv
    · next heq =>
        obtain rfl := Option.some.inj hv
        exact heq ▸ hok.2
    · exact h.cause t' v hv
  · intro v hv
    have hne : v ≠ u := fun heq => absurd hok.1 (Nat.not_lt.2 (heq ▸ hv))
    rw [isCancelled_advance, isCancelled_setCancelled, if_neg hne]
    exact h.unborn v hv
  · intro v
    have hcount := countP_advance (s := s) (m := s.setCancelled t u) rfl hcall [.notify t u] v
    have hold := h.counted v
    have hwon : ((s.setCancelled t u).advance i [.notify t u] rest).won = s.won := rfl
    rw [isCancelled_advance, isCancelled_setCancelled, hwon]
    by_cases heq : v = u
    · subst heq
      rw [hc] at hold
      simp only [Frame.wins, List.countP_cons, List.countP_nil, BEq.rfl, if_pos, Bool.toNat_false,
        Bool.toNat_true] at hcount hold ⊢
      omega
    · simp only [Frame.wins, List.countP_cons, List.countP_nil, beq_false_of_ne heq,
        Bool.toNat_false, if_neg heq, Bool.false_eq_true, if_false] at hcount ⊢
      omega

theorem Shaped.run_return (h : s.Shaped) {t u : ℕ}
    (hcall : s.calls[i]? = some (.loop t u [] :: rest)) :
    (({ s with won := s.won ++ [u] } : Tokens).advance i [] rest).Shaped := by
  refine ⟨h.lt, frameOk_advance h rfl hcall ⟨Nat.le_refl _, fun _ _ h => h⟩ ?_, h.children, ?_,
    h.cause, h.held, h.unborn, ?_⟩
  · exact fun g hg => absurd hg List.not_mem_nil
  · exact fun p c hc => (h.pushed p c hc).imp_right fun hmem =>
      (frames_advance_of_mem rfl hcall hmem).resolve_left fun heq => by cases heq
  · intro v
    have hcount := countP_advance (s := s) (m := { s with won := s.won ++ [u] }) rfl hcall [] v
    have hold := h.counted v
    have hwon : (({ s with won := s.won ++ [u] } : Tokens).advance i [] rest).won
        = s.won ++ [u] := rfl
    have hsame : ({ s with won := s.won ++ [u] } : Tokens).isCancelled v = s.isCancelled v := rfl
    rw [isCancelled_advance, hwon, hsame, ← hold, List.count_append, List.count_singleton]
    by_cases heq : v = u
    · subst heq
      simp only [Frame.wins, List.countP_nil, BEq.rfl, if_pos, Bool.toNat_true] at hcount ⊢
      omega
    · simp only [Frame.wins, List.countP_nil, beq_false_of_ne heq, beq_false_of_ne (Ne.symm heq),
        Bool.toNat_false, Bool.false_eq_true, if_false] at hcount ⊢
      omega

theorem Shaped.run_create (h : s.Shaped) {p : ℕ}
    (hcall : s.calls[i]? = some (.create p :: rest)) :
    ((s.fresh.setParent s.next p).advance i [.push p s.next] rest).Shaped := by
  have hp : p < s.next := h.frames _ (top_mem hcall)
  have hchild : ∀ q e, (s.fresh.setParent s.next p).ChildOf q e
      ↔ if e = s.next then q = p else s.ChildOf q e := fun q e => childOf_setParent
  have hold : ∀ q e, s.ChildOf q e → e ≠ s.next :=
    fun q e hqe => Nat.ne_of_lt (h.lt q e hqe).2
  have hgrows : Grows s (s.fresh.setParent s.next p) := by
    refine ⟨Nat.le_succ _, fun q e hqe => ?_⟩
    rw [hchild, if_neg (hold q e hqe)]
    exact hqe
  refine ⟨?_, frameOk_advance h rfl hcall hgrows ?_, ?_, ?_, ?_, ?_, ?_, ?_⟩
  · intro q e hqe
    replace hqe := (hchild q e).1 hqe
    show q < e ∧ e < s.next + 1
    split at hqe
    · next heq => omega
    · have := h.lt q e hqe
      omega
  · intro g hg
    obtain rfl := List.mem_singleton.1 hg
    exact (hchild p s.next).2 (by rw [if_pos rfl])
  · intro q e he
    replace he : e ∈ (s.fresh.inner q).children := he
    rw [inner_fresh] at he
    split at he
    · cases he
    · exact hgrows.child q e (h.children q e he)
  · intro q e hqe
    replace hqe := (hchild q e).1 hqe
    split at hqe
    · next heq =>
        subst heq hqe
        exact .inr (frames_advance_of_mem_new rfl hcall (List.mem_singleton_self _))
    · have hq : q ≠ s.next := by
        have := h.lt q e hqe
        omega
      refine (h.pushed q e hqe).imp (fun hmem => ?_) fun hmem => ?_
      · show e ∈ (s.fresh.inner q).children
        rw [inner_fresh, if_neg hq]
        exact hmem
      · exact (frames_advance_of_mem rfl hcall hmem).resolve_left fun heq => by cases heq
  · exact fun t u hu => hgrows.below (h.cause t u hu)
  · exact fun u hu => Nat.lt_succ_of_lt (h.held u hu)
  · intro u hu
    replace hu : s.next + 1 ≤ u := hu
    exact (h.isCancelled_fresh u).trans (h.unborn u (by omega))
  · intro u
    have hcount := countP_advance (s := s) (m := s.fresh.setParent s.next p) rfl hcall
      [.push p s.next] u
    show s.won.count u + _ = (s.fresh.isCancelled u).toNat
    rw [h.isCancelled_fresh, ← h.counted u]
    simp [Frame.wins] at hcount
    omega

theorem Shaped.run_push (h : s.Shaped) {p c : ℕ}
    (hcall : s.calls[i]? = some (.push p c :: rest)) :
    ((s.pushChild p c).advance i [.check p c] rest).Shaped := by
  have hpc : s.ChildOf p c := h.frames _ (top_mem hcall)
  refine ⟨h.lt, frameOk_advance h rfl hcall ⟨Nat.le_refl _, fun _ _ h => h⟩ ?_, ?_, ?_, h.cause,
    h.held, ?_, ?_⟩
  · intro g hg
    obtain rfl := List.mem_singleton.1 hg
    exact hpc
  · intro q e he
    rw [advance_inner, children_pushChild] at he
    split at he
    · next heq =>
        subst heq
        rcases List.mem_append.1 he with he | he
        · exact h.children q e he
        · obtain rfl := List.mem_singleton.1 he
          exact hpc
    · exact h.children q e he
  · intro q e hqe
    rw [advance_inner, children_pushChild]
    rcases h.pushed q e hqe with hmem | hmem
    · left
      split
      · exact List.mem_append_left _ hmem
      · exact hmem
    · rcases frames_advance_of_mem rfl hcall hmem with heq | hmem
      · obtain ⟨rfl, rfl⟩ := Frame.push.inj heq
        exact .inl (by rw [if_pos rfl]; exact List.mem_append_right _ (List.mem_singleton_self _))
      · exact .inr hmem
  · intro u hu
    rw [isCancelled_advance, isCancelled_pushChild]
    exact h.unborn u hu
  · intro u
    have hcount := countP_advance (s := s) (m := s.pushChild p c) rfl hcall [.check p c] u
    rw [isCancelled_advance, isCancelled_pushChild, ← h.counted u]
    show s.won.count u + _ = _
    simp [Frame.wins] at hcount
    omega

theorem Shaped.run_give (h : s.Shaped) {c : ℕ} (hcall : s.calls[i]? = some (.give c :: rest)) :
    ((s.setHandles c (s.handles c + 1)).advance i [] rest).Shaped := by
  have hc : c < s.next := h.frames _ (top_mem hcall)
  refine ⟨h.lt, frameOk_advance h rfl hcall ⟨Nat.le_refl _, fun _ _ h => h⟩ ?_, h.children, ?_,
    h.cause, ?_, h.unborn, ?_⟩
  · exact fun g hg => absurd hg List.not_mem_nil
  · exact fun p c hc => (h.pushed p c hc).imp_right fun hmem =>
      (frames_advance_of_mem rfl hcall hmem).resolve_left fun heq => by cases heq
  · intro u hu
    replace hu : 0 < Function.update s.handles c (s.handles c + 1) u := hu
    rw [Function.update_apply] at hu
    split at hu
    · next heq => exact heq ▸ hc
    · exact h.held u hu
  · intro u
    have hcount := countP_advance (s := s) (m := s.setHandles c (s.handles c + 1)) rfl hcall [] u
    have hold := h.counted u
    show s.won.count u + _ = (s.isCancelled u).toNat
    simp [Frame.wins] at hcount
    omega

theorem countP_wins (v : ℕ) (g : Frame) : [g].countP (Frame.wins v) = (g.wins v).toNat := by
  cases h : g.wins v with
  | false => simp [h]
  | true => simp [h]

theorem Shaped.run (h : s.Shaped) (hcall : s.calls[i]? = some (f :: rest)) :
    ((s.run f).2.advance i (s.run f).1 rest).Shaped := by
  have hok : s.FrameOk f := h.frames f (top_mem hcall)
  cases f with
  | swap t u =>
      rw [Tokens.run]
      split
      · exact h.same hcall (fun _ _ heq => by cases heq) (fun g hg => absurd hg List.not_mem_nil)
          fun _ => rfl
      · next hc => exact h.run_swap hcall (Bool.eq_false_iff.2 hc)
  | notify t u =>
      refine h.same hcall (fun _ _ heq => by cases heq) (fun g hg => ?_) fun v => ?_
      · obtain rfl := List.mem_singleton.1 hg
        exact hok
      · exact countP_wins v (.read t u)
  | read t u =>
      refine h.same hcall (fun _ _ heq => by cases heq) (fun g hg => ?_) fun v => ?_
      · obtain rfl := List.mem_singleton.1 hg
        exact ⟨hok, h.children u, fun c hc => absurd hc List.not_mem_nil⟩
      · exact countP_wins v (.upgrade t u (s.inner u).children [])
  | upgrade t u weak strong =>
      obtain ⟨hu, hweak, hstrong⟩ := hok
      cases weak with
      | nil =>
          refine h.same hcall (fun _ _ heq => by cases heq) (fun g hg => ?_) fun v => ?_
          · obtain rfl := List.mem_singleton.1 hg
            exact ⟨hu, hstrong⟩
          · exact countP_wins v (.loop t u strong)
      | cons c weak =>
          refine h.same hcall (fun _ _ heq => by cases heq) (fun g hg => ?_) fun v => ?_
          · obtain rfl := List.mem_singleton.1 hg
            refine ⟨hu, fun e he => hweak e (List.mem_cons_of_mem _ he), fun e he => ?_⟩
            split at he
            · rcases List.mem_append.1 he with he | he
              · exact hstrong e he
              · obtain rfl := List.mem_singleton.1 he
                exact hweak _ (List.mem_cons_self ..)
            · exact hstrong e he
          · exact countP_wins v (.upgrade t u weak (if s.Live c then strong ++ [c] else strong))
  | loop t u children =>
      obtain ⟨hu, hchildren⟩ := hok
      cases children with
      | nil => exact h.run_return hcall
      | cons c children =>
          have hc := hchildren c (List.mem_cons_self ..)
          refine h.same hcall (fun _ _ heq => by cases heq) (fun g hg => ?_) fun v => ?_
          · rcases List.mem_cons.1 hg with rfl | hg
            · exact ⟨(h.lt u c hc).2, hu.2.tail hc⟩
            · obtain rfl := List.mem_singleton.1 hg
              exact ⟨hu, fun e he => hchildren e (List.mem_cons_of_mem _ he)⟩
          · exact countP_wins v (.loop t u children)
  | create p => exact h.run_create hcall
  | push p c => exact h.run_push hcall
  | check p c =>
      have hlt := (h.lt p c hok).2
      rw [Tokens.run]
      split
      · refine h.same hcall (fun _ _ heq => by cases heq) (fun g hg => ?_) fun v => ?_
        · rcases List.mem_cons.1 hg with rfl | hg
          · exact ⟨hlt, .refl⟩
          · obtain rfl := List.mem_singleton.1 hg
            exact hlt
        · rfl
      · refine h.same hcall (fun _ _ heq => by cases heq) (fun g hg => ?_) fun v => ?_
        · obtain rfl := List.mem_singleton.1 hg
          exact hlt
        · rfl
  | give c => exact h.run_give hcall

theorem Shaped.setHandles (h : s.Shaped) {u n : ℕ} (hu : u < s.next) :
    (s.setHandles u n).Shaped := by
  refine ⟨h.lt, h.frames, h.children, h.pushed, h.cause, fun v hv => ?_, h.unborn, h.counted⟩
  replace hv : 0 < Function.update s.handles u n v := hv
  rw [Function.update_apply] at hv
  split at hv
  · next heq => exact heq ▸ hu
  · exact h.held v hv

theorem Shaped.fresh (h : s.Shaped) : s.fresh.Shaped := by
  refine ⟨fun p c hc => ?_, fun f hf => ?_, fun p c hc => ?_, fun p c hc => ?_, h.cause,
    fun u hu => Nat.lt_succ_of_lt (h.held u hu), fun u hu => ?_, fun u => ?_⟩
  · exact ⟨(h.lt p c hc).1, Nat.lt_succ_of_lt (h.lt p c hc).2⟩
  · exact (h.frames f hf).mono ⟨Nat.le_succ _, fun _ _ h => h⟩
  · rw [inner_fresh] at hc
    split at hc
    · cases hc
    · exact h.children p c hc
  · have hp : p ≠ s.next := by
      have := h.lt p c hc
      omega
    rw [inner_fresh, if_neg hp]
    exact h.pushed p c hc
  · exact (h.isCancelled_fresh u).trans (h.unborn u (Nat.le_of_succ_le hu))
  · exact (h.counted u).trans (congrArg Bool.toNat (h.isCancelled_fresh u).symm)

theorem frames_begin : (s.begin f).frames = s.frames ++ [f] := by
  simp [frames, begin]

theorem Shaped.begin (h : s.Shaped) (hok : s.FrameOk f) (hwins : ∀ u, f.wins u = false) :
    (s.begin f).Shaped := by
  refine ⟨h.lt, fun g hg => ?_, h.children, fun p c hc => ?_, h.cause, h.held, h.unborn,
    fun u => ?_⟩
  · rw [frames_begin] at hg
    have hg : s.FrameOk g := by
      rcases List.mem_append.1 hg with hg | hg
      · exact h.frames g hg
      · exact List.mem_singleton.1 hg ▸ hok
    exact hg.mono ⟨Nat.le_refl _, fun _ _ h => h⟩
  · rw [frames_begin]
    exact (h.pushed p c hc).imp_right (List.mem_append_left _)
  · rw [frames_begin, List.countP_append, countP_wins, hwins]
    exact h.counted u

theorem Shaped.step {l : Label} (h : s.Shaped) (hstep : s.step l = some s') : s'.Shaped := by
  cases l with
  | new =>
      obtain rfl := Option.some.inj hstep
      exact h.fresh.setHandles (Nat.lt_succ_self _)
  | clone u | drop u =>
      rw [Tokens.step, Option.ite_none_right_eq_some] at hstep
      obtain ⟨hu, hstep⟩ := hstep
      obtain rfl := Option.some.inj hstep
      exact h.setHandles (h.held u hu)
  | cancel u =>
      rw [Tokens.step, Option.ite_none_right_eq_some] at hstep
      obtain ⟨hu, hstep⟩ := hstep
      obtain rfl := Option.some.inj hstep
      exact h.begin ⟨h.held u hu, .refl⟩ fun _ => rfl
  | child p =>
      rw [Tokens.step, Option.ite_none_right_eq_some] at hstep
      obtain ⟨hp, hstep⟩ := hstep
      obtain rfl := Option.some.inj hstep
      exact h.begin (h.held p hp) fun _ => rfl
  | step i =>
      rw [Tokens.step] at hstep
      split at hstep
      · next f rest hcall =>
          obtain rfl := Option.some.inj hstep
          exact h.run hcall
      · cases hstep
      · cases hstep

theorem shaped_init : init.Shaped where
  lt := fun p c hc => by cases hc
  frames := fun f hf => absurd hf List.not_mem_nil
  children := fun p c hc => absurd hc List.not_mem_nil
  pushed := fun p c hc => by cases hc
  cause := fun t u hu => by cases hu
  held := fun u hu => absurd hu (Nat.lt_irrefl 0)
  unborn := fun _ _ => rfl
  counted := fun _ => rfl

theorem Shaped.lt_of_descends (h : s.Shaped) {t u : ℕ} (htu : s.Descends t u) : t < u := by
  induction htu with
  | single hc => exact (h.lt _ _ hc).1
  | tail _ hc ih => exact Nat.lt_trans ih (h.lt _ _ hc).1

end Tokens

end IdEffect.Concurrency
