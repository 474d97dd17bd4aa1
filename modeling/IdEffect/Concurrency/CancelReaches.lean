import IdEffect.Concurrency.Cancel

set_option autoImplicit false

/-! # Whom a cancel reaches

A token all of whose handles are dropped is gone, and so is its list: the tokens below it can no
longer be reached from above. As long as no cancel comes across such a token with somebody below it
(`FindsAll`), each child of a cancelled token is served by some call (`Served`), and every token
that is still held is reached (`cancel_reaches`). -/

namespace IdEffect.Concurrency

open Transition Relation

/-- The reference a frame looks at next. -/
def Frame.upgrades : Frame → Option ℕ
  | .upgrade _ _ (c :: _) _ => some c
  | .upgrade _ _ [] _ | .swap _ _ | .notify _ _ | .read _ _ | .loop _ _ _ | .create _ | .push _ _
  | .check _ _ | .give _ => none

namespace Tokens

section

variable (s : Tokens)

/-- `d` is `c` or below it, with nobody cancelled on the way. -/
def Below (c d : ℕ) : Prop :=
  s.isCancelled c = false ∧ ReflTransGen (fun p e => s.ChildOf p e ∧ s.isCancelled e = false) c d

/-- A reference is found gone only if nobody is held below it. -/
def FindsAll : Label → Prop
  | .step i => ∀ stack ∈ s.calls[i]?, ∀ f ∈ stack.head?, ∀ c ∈ f.upgrades, ¬ s.Live c →
      ∀ d, s.Below c d → ¬ s.Live d
  | .new | .clone _ | .drop _ | .cancel _ | .child _ => True

end

variable {s s' : Tokens} {i : ℕ} {f : Frame} {rest : List Frame}

/-- The frame will see to it that `c`, a child of the cancelled token `u`, is cancelled. -/
def Serves (s : Tokens) (u c : ℕ) : Frame → Prop
  | .notify _ v | .read _ v => v = u ∧ c ∈ (s.inner u).children
  | .upgrade _ v weak strong => v = u ∧ (c ∈ weak ∨ c ∈ strong)
  | .loop _ v children => v = u ∧ c ∈ children
  | .swap _ v => v = c
  | .push p e | .check p e => p = u ∧ e = c
  | .create _ | .give _ => False

/-- If somebody is held below an uncancelled child of a cancelled token, some call serves the
    child. -/
def Served (s : Tokens) : Prop :=
  ∀ u c d, s.isCancelled u = true → s.ChildOf u c → s.Below c d → s.Live d →
    ∃ f ∈ s.frames, s.Serves u c f

theorem live_of_handles {u v n : ℕ} (hu : s.Live u) (hv : 0 < (s.setHandles u n).handles v) :
    s.Live v := by
  replace hv : 0 < Function.update s.handles u n v := hv
  rw [Function.update_apply] at hv
  split at hv
  · next heq => exact heq ▸ hu
  · exact .inl hv

theorem live_of_holds {u : ℕ} (hf : f ∈ s.frames) (hu : u ∈ f.holds) : s.Live u :=
  .inr ⟨f, hf, hu⟩

section Advance

variable {m : Tokens} {new : List Frame}

theorem live_advance {u : ℕ} (hcalls : m.calls = s.calls)
    (hcall : s.calls[i]? = some (f :: rest)) (hhandles : 0 < m.handles u → s.Live u)
    (hnew : ∀ g ∈ new, u ∈ g.holds → s.Live u) (hu : (m.advance i new rest).Live u) :
    s.Live u := by
  rcases hu with hu | ⟨g, hg, hu⟩
  · exact hhandles hu
  · rcases mem_frames_advance hcalls hcall hg with hg | hg
    · exact hnew g hg hu
    · exact live_of_holds hg hu

/-- A step that leaves the tokens as they are, and passes on whom it serves. -/
theorem Served.same (h : s.Served) (hcall : s.calls[i]? = some (f :: rest))
    (hnew : ∀ g ∈ new, ∀ u ∈ g.holds, s.Live u)
    (hserves : ∀ u c d, s.isCancelled u = true → s.Below c d → s.Live d → s.Serves u c f →
      ∃ g ∈ new, s.Serves u c g) : (s.advance i new rest).Served := by
  intro u c d hu hc hcd hd
  have hd : s.Live d := live_advance rfl hcall Or.inl (fun g hg => hnew g hg d) hd
  obtain ⟨g, hg, hserve⟩ := h u c d hu hc hcd hd
  rcases frames_advance_of_mem rfl hcall hg with rfl | hg
  · obtain ⟨g, hg, hserve⟩ := hserves u c d hu hcd hd hserve
    exact ⟨g, frames_advance_of_mem_new rfl hcall hg, hserve⟩
  · exact ⟨g, hg, hserve⟩

end Advance

theorem Serves.mono {u c : ℕ} (h : s.Serves u c f)
    (hchildren : ∀ e ∈ (s.inner u).children, e ∈ (s'.inner u).children) : s'.Serves u c f := by
  cases f with
  | notify t v | read t v => exact ⟨h.1, hchildren c h.2⟩
  | upgrade t v weak strong | loop t v children | swap t v | push p e | check p e => exact h
  | create p | give e => exact h

theorem Served.run_swap (h : s.Served) (hs : s.Shaped) {t u : ℕ}
    (hcall : s.calls[i]? = some (.swap t u :: rest)) :
    ((s.setCancelled t u).advance i [.notify t u] rest).Served := by
  have hcancelled : ∀ v, (s.setCancelled t u).isCancelled v = false → s.isCancelled v = false := by
    intro v hv
    rw [isCancelled_setCancelled] at hv
    split at hv
    · cases hv
    · exact hv
  have hbelow : ∀ {c d}, (s.setCancelled t u).Below c d → s.Below c d := fun hcd =>
    ⟨hcancelled _ hcd.1, ReflTransGen.mono (fun p e he => ⟨he.1, hcancelled e he.2⟩) _ _ hcd.2⟩
  intro v c d hv hc hcd hd
  have hd : s.Live d := by
    refine live_advance (s := s) rfl hcall Or.inl (fun g hg hmem => ?_) hd
    obtain rfl := List.mem_singleton.1 hg
    exact live_of_holds (top_mem hcall) hmem
  have hother : ∀ g ∈ s.frames, g ≠ .swap t u →
      g ∈ ((s.setCancelled t u).advance i [.notify t u] rest).frames :=
    fun g hg hne => (frames_advance_of_mem rfl hcall hg).resolve_left hne
  rw [isCancelled_advance, isCancelled_setCancelled] at hv
  by_cases heq : v = u
  · -- the children of `u` are on its list, or are about to be
    subst heq
    rcases hs.pushed v c hc with hmem | hmem
    · refine ⟨.notify t v, frames_advance_of_mem_new rfl hcall (List.mem_singleton_self _), rfl, ?_⟩
      rw [advance_inner, children_setCancelled]
      exact hmem
    · exact ⟨.push v c, hother _ hmem (fun heq => by cases heq), rfl, rfl⟩
  · rw [if_neg heq] at hv
    obtain ⟨g, hg, hserve⟩ := h v c d hv hc (hbelow hcd) hd
    refine ⟨g, hother g hg ?_, hserve.mono fun e he => ?_⟩
    · -- the swap served `u`, which is cancelled now
      rintro rfl
      obtain rfl : u = c := hserve
      have hcu := hcd.1
      rw [isCancelled_advance, isCancelled_setCancelled, if_pos rfl] at hcu
      cases hcu
    · rw [advance_inner, children_setCancelled]
      exact he

theorem Served.run_create (h : s.Served) (hs : s.Shaped) {p : ℕ}
    (hcall : s.calls[i]? = some (.create p :: rest)) :
    ((s.fresh.setParent s.next p).advance i [.push p s.next] rest).Served := by
  have hp : p < s.next := hs.frames _ (top_mem hcall)
  have hchild : ∀ q e, (s.fresh.setParent s.next p).ChildOf q e
      ↔ if e = s.next then q = p else s.ChildOf q e := fun q e => childOf_setParent
  have hcancelled : ∀ u, (s.fresh.setParent s.next p).isCancelled u = s.isCancelled u :=
    hs.isCancelled_fresh
  -- a path that ends at an old token is an old path, and one to the new token has come from `p`
  have hpath : ∀ {c d}, c ≠ s.next →
      ReflTransGen (fun q e => (s.fresh.setParent s.next p).ChildOf q e
        ∧ (s.fresh.setParent s.next p).isCancelled e = false) c d →
      ReflTransGen (fun q e => s.ChildOf q e ∧ s.isCancelled e = false) c
        (if d = s.next then p else d) := by
    intro c d hc hcd
    induction hcd with
    | refl => rw [if_neg hc]
    | @tail d e _ hde ih =>
        obtain ⟨hde, he⟩ := hde
        replace hde := (hchild d e).1 hde
        split at hde
        · next heq =>
            rw [if_pos heq]
            rwa [hde, if_neg (Nat.ne_of_lt hp)] at ih
        · next hne =>
            have hd : d ≠ s.next := by
              have := hs.lt d e hde
              omega
            rw [if_neg hd] at ih
            rw [if_neg hne]
            exact ih.tail ⟨hde, hcancelled e ▸ he⟩
  have hlive : ∀ u, u ≠ s.next →
      ((s.fresh.setParent s.next p).advance i [.push p s.next] rest).Live u → s.Live u := by
    intro u hu hlive
    refine live_advance (s := s) rfl hcall Or.inl (fun g hg hmem => ?_) hlive
    obtain rfl := List.mem_singleton.1 hg
    rcases List.mem_cons.1 hmem with rfl | hmem
    · exact live_of_holds (top_mem hcall) (List.mem_singleton_self _)
    · exact absurd (List.mem_singleton.1 hmem) hu
  intro u c d hu hc hcd hd
  rw [isCancelled_advance, hcancelled] at hu
  replace hc := (hchild u c).1 hc
  split at hc
  · next heq =>
      subst heq hc
      exact ⟨.push u s.next, frames_advance_of_mem_new rfl hcall (List.mem_singleton_self _),
        rfl, rfl⟩
  · next hne =>
      have hcd' : s.Below c (if d = s.next then p else d) :=
        ⟨hcancelled c ▸ hcd.1, hpath hne hcd.2⟩
      have hd' : s.Live (if d = s.next then p else d) := by
        split
        · exact live_of_holds (top_mem hcall) (List.mem_singleton_self _)
        · next hdn => exact hlive d hdn hd
      obtain ⟨g, hg, hserve⟩ := h u c _ hu hc hcd' hd'
      refine ⟨g, (frames_advance_of_mem rfl hcall hg).resolve_left ?_, hserve.mono fun e he => ?_⟩
      · rintro rfl
        exact hserve
      · have hun : u ≠ s.next := by
          have := hs.lt u c hc
          omega
        show e ∈ (s.fresh.inner u).children
        rw [inner_fresh, if_neg hun]
        exact he

theorem Served.run_push (h : s.Served) {p c : ℕ}
    (hcall : s.calls[i]? = some (.push p c :: rest)) :
    ((s.pushChild p c).advance i [.check p c] rest).Served := by
  have hcancelled : ∀ v, (s.pushChild p c).isCancelled v = s.isCancelled v :=
    fun v => isCancelled_pushChild
  intro u e d hu hc hcd hd
  have hd : s.Live d := by
    refine live_advance (s := s) rfl hcall Or.inl (fun g hg hmem => ?_) hd
    obtain rfl := List.mem_singleton.1 hg
    exact live_of_holds (top_mem hcall) hmem
  rw [isCancelled_advance, hcancelled] at hu
  have hcd : s.Below e d := by
    refine ⟨hcancelled e ▸ hcd.1, ReflTransGen.mono (fun q a ha => ?_) _ _ hcd.2⟩
    exact ⟨ha.1, hcancelled a ▸ ha.2⟩
  obtain ⟨g, hg, hserve⟩ := h u e d hu hc hcd hd
  rcases frames_advance_of_mem (m := s.pushChild p c) (s := s) rfl hcall hg with rfl | hg
  · exact ⟨.check p c, frames_advance_of_mem_new rfl hcall (List.mem_singleton_self _), hserve⟩
  · refine ⟨g, hg, hserve.mono fun a ha => ?_⟩
    rw [advance_inner, children_pushChild]
    split
    · exact List.mem_append_left _ ha
    · exact ha

theorem Served.run_give (h : s.Served) {c : ℕ} (hcall : s.calls[i]? = some (.give c :: rest)) :
    ((s.setHandles c (s.handles c + 1)).advance i [] rest).Served := by
  intro u e d hu hc hcd hd
  have hd : s.Live d := by
    refine live_advance (m := s.setHandles c (s.handles c + 1)) rfl hcall (live_of_handles ?_)
      (fun g hg => absurd hg List.not_mem_nil) hd
    exact live_of_holds (top_mem hcall) (List.mem_singleton_self _)
  obtain ⟨g, hg, hserve⟩ := h u e d hu hc hcd hd
  refine ⟨g, (frames_advance_of_mem rfl hcall hg).resolve_left ?_, hserve⟩
  rintro rfl
  exact hserve

theorem Served.run_upgrade (h : s.Served) {t u c : ℕ} {weak strong : List ℕ}
    (hcall : s.calls[i]? = some (.upgrade t u (c :: weak) strong :: rest))
    (hfinds : s.FindsAll (.step i)) :
    (s.advance i [.upgrade t u weak (if s.Live c then strong ++ [c] else strong)] rest).Served := by
  have hheld : ∀ v ∈ u :: strong, s.Live v := fun v hv => live_of_holds (top_mem hcall) hv
  refine h.same hcall (fun g hg v hv => ?_) fun v e d hu hed hd hserve => ?_
  · obtain rfl := List.mem_singleton.1 hg
    rcases List.mem_cons.1 hv with rfl | hv
    · exact hheld v (List.mem_cons_self ..)
    · split at hv
      · next hc =>
          rcases List.mem_append.1 hv with hv | hv
          · exact hheld v (List.mem_cons_of_mem _ hv)
          · exact List.mem_singleton.1 hv ▸ hc
      · exact hheld v (List.mem_cons_of_mem _ hv)
  · refine ⟨_, List.mem_singleton_self _, hserve.1, ?_⟩
    rcases hserve.2 with he | he
    · rcases List.mem_cons.1 he with rfl | he
      · -- were it gone, nobody would be held below it
        have hc : s.Live e := by
          by_contra hgone
          exact hfinds _ hcall _ rfl e rfl hgone d hed hd
        rw [if_pos hc]
        exact .inr (List.mem_append_right _ (List.mem_singleton_self _))
      · exact .inl he
    · refine .inr ?_
      split
      · exact List.mem_append_left _ he
      · exact he

theorem Served.run_loop (h : s.Served) {t u c : ℕ} {children : List ℕ}
    (hcall : s.calls[i]? = some (.loop t u (c :: children) :: rest)) :
    (s.advance i [.swap t c, .loop t u children] rest).Served := by
  have hheld : ∀ v ∈ u :: c :: children, s.Live v := fun v hv => live_of_holds (top_mem hcall) hv
  refine h.same hcall (fun g hg v hv => ?_) fun v e d _ _ _ hserve => ?_
  · rcases List.mem_cons.1 hg with rfl | hg
    · obtain rfl := List.mem_singleton.1 hv
      exact hheld v (List.mem_cons_of_mem _ (List.mem_cons_self ..))
    · obtain rfl := List.mem_singleton.1 hg
      rcases List.mem_cons.1 hv with rfl | hv
      · exact hheld v (List.mem_cons_self ..)
      · exact hheld v (List.mem_cons_of_mem _ (List.mem_cons_of_mem _ hv))
  · obtain ⟨rfl, he⟩ := hserve
    rcases List.mem_cons.1 he with rfl | he
    · exact ⟨.swap t e, List.mem_cons_self .., rfl⟩
    · exact ⟨_, List.mem_cons_of_mem _ (List.mem_singleton_self _), rfl, he⟩

/-- The cancelling of `u` has won and is done. -/
theorem Served.run_won (h : s.Served) {t u : ℕ}
    (hcall : s.calls[i]? = some (.loop t u [] :: rest)) :
    ({ s with won := s.won ++ [u] }.advance i [] rest).Served := by
  intro v c d hv hc hcd hd
  have hd : s.Live d :=
    live_advance (s := s) rfl hcall Or.inl (fun g hg => absurd hg List.not_mem_nil) hd
  obtain ⟨g, hg, hserve⟩ := h v c d hv hc hcd hd
  refine ⟨g, (frames_advance_of_mem rfl hcall hg).resolve_left ?_, hserve⟩
  rintro rfl
  exact absurd hserve.2 List.not_mem_nil

theorem Served.run_check (h : s.Served) {p c : ℕ}
    (hcall : s.calls[i]? = some (.check p c :: rest)) :
    (s.advance i (if s.isCancelled p then [.swap c c, .give c] else [.give c]) rest).Served := by
  have hc : s.Live c :=
    live_of_holds (top_mem hcall) (List.mem_cons_of_mem _ (List.mem_singleton_self _))
  split
  · refine h.same hcall (fun g hg v hv => ?_) fun v e d _ _ _ hserve => ?_
    · rcases List.mem_cons.1 hg with rfl | hg
      · exact List.mem_singleton.1 hv ▸ hc
      · obtain rfl := List.mem_singleton.1 hg
        exact List.mem_singleton.1 hv ▸ hc
    · exact ⟨.swap c c, List.mem_cons_self .., hserve.2⟩
  · next hp =>
      refine h.same hcall (fun g hg v hv => ?_) fun v e d hv _ _ hserve => ?_
      · obtain rfl := List.mem_singleton.1 hg
        exact List.mem_singleton.1 hv ▸ hc
      · obtain ⟨rfl, -⟩ := hserve
        exact absurd hv hp

theorem Served.run (h : s.Served) (hs : s.Shaped) (hcall : s.calls[i]? = some (f :: rest))
    (hfinds : s.FindsAll (.step i)) : ((s.run f).2.advance i (s.run f).1 rest).Served := by
  have hheld : ∀ u ∈ f.holds, s.Live u := fun u hu => live_of_holds (top_mem hcall) hu
  cases f with
  | swap t u =>
      rw [Tokens.run]
      split
      · next hc =>
          refine h.same hcall (fun g hg => absurd hg List.not_mem_nil)
            fun v c d _ hcd _ hserve => ?_
          obtain rfl : u = c := hserve
          exact absurd hc (by rw [hcd.1]; exact Bool.false_ne_true)
      · exact h.run_swap hs hcall
  | notify t u =>
      rw [Tokens.run]
      refine h.same hcall (fun g hg => ?_) fun v c d _ _ _ hserve =>
        ⟨_, List.mem_singleton_self _, hserve⟩
      obtain rfl := List.mem_singleton.1 hg
      exact hheld
  | read t u =>
      rw [Tokens.run]
      refine h.same hcall (fun g hg => ?_) fun v c d _ _ _ hserve => ?_
      · obtain rfl := List.mem_singleton.1 hg
        exact hheld
      · obtain ⟨rfl, hc⟩ := hserve
        exact ⟨_, List.mem_singleton_self _, rfl, .inl hc⟩
  | upgrade t u weak strong =>
      cases weak with
      | nil =>
          rw [Tokens.run]
          refine h.same hcall (fun g hg => ?_) fun v c d _ _ _ hserve => ?_
          · obtain rfl := List.mem_singleton.1 hg
            exact hheld
          · exact ⟨_, List.mem_singleton_self _, hserve.1, hserve.2.resolve_left List.not_mem_nil⟩
      | cons c weak =>
          rw [Tokens.run]
          exact h.run_upgrade hcall hfinds
  | loop t u children =>
      cases children with
      | nil =>
          rw [Tokens.run]
          exact h.run_won hcall
      | cons c children =>
          rw [Tokens.run]
          exact h.run_loop hcall
  | create p => exact h.run_create hs hcall
  | push p c => exact h.run_push hcall
  | check p c =>
      have hchecked := h.run_check hcall
      rw [Tokens.run]
      split at hchecked
      · next hp =>
          rw [if_pos hp]
          exact hchecked
      · next hp =>
          rw [if_neg hp]
          exact hchecked
  | give c => exact h.run_give hcall

theorem Served.setHandles (h : s.Served) {u n : ℕ} (hu : s.Live u) :
    (s.setHandles u n).Served := by
  intro v c d hv hc hcd hd
  refine h v c d hv hc hcd ?_
  rcases hd with hd | hd
  · exact live_of_handles hu hd
  · exact .inr hd

theorem Served.begin (h : s.Served) (hf : ∀ u ∈ f.holds, s.Live u) : (s.begin f).Served := by
  intro u c d hu hc hcd hd
  have hd : s.Live d := by
    rcases hd with hd | ⟨g, hg, hd⟩
    · exact .inl hd
    · rw [frames_begin] at hg
      rcases List.mem_append.1 hg with hg | hg
      · exact live_of_holds hg hd
      · exact hf d (List.mem_singleton.1 hg ▸ hd)
  obtain ⟨g, hg, hserve⟩ := h u c d hu hc hcd hd
  exact ⟨g, frames_begin ▸ List.mem_append_left _ hg, hserve⟩

/-- The new token is nobody's child. -/
theorem Served.new (h : s.Served) (hs : s.Shaped) : (s.fresh.setHandles s.next 1).Served := by
  intro u c d hu hc hcd hd
  have hcancelled : ∀ v, (s.fresh.setHandles s.next 1).isCancelled v = s.isCancelled v :=
    hs.isCancelled_fresh
  have hlt : d < s.next := by
    rcases hcd.2.cases_tail with heq | ⟨e, -, hed⟩
    · exact heq ▸ (hs.lt u c hc).2
    · exact (hs.lt e d hed.1).2
  have hd : s.Live d := by
    rcases hd with hd | hd
    · replace hd : 0 < Function.update s.handles s.next 1 d := hd
      rw [Function.update_of_ne (Nat.ne_of_lt hlt)] at hd
      exact .inl hd
    · exact .inr hd
  have hcd : s.Below c d :=
    ⟨hcancelled c ▸ hcd.1,
      ReflTransGen.mono (fun q a ha => ⟨ha.1, hcancelled a ▸ ha.2⟩) _ _ hcd.2⟩
  obtain ⟨g, hg, hserve⟩ := h u c d (hcancelled u ▸ hu) hc hcd hd
  refine ⟨g, hg, hserve.mono fun e he => ?_⟩
  have hun : u ≠ s.next := by
    have := hs.lt u c hc
    omega
  show e ∈ (s.fresh.inner u).children
  rw [inner_fresh, if_neg hun]
  exact he

theorem Served.step {l : Label} (h : s.Served) (hs : s.Shaped) (hfinds : s.FindsAll l)
    (hstep : s.step l = some s') : s'.Served := by
  cases l with
  | new =>
      obtain rfl := Option.some.inj hstep
      exact h.new hs
  | clone u | drop u =>
      rw [Tokens.step, Option.ite_none_right_eq_some] at hstep
      obtain ⟨hu, hstep⟩ := hstep
      obtain rfl := Option.some.inj hstep
      exact h.setHandles (.inl hu)
  | cancel u | child u =>
      rw [Tokens.step, Option.ite_none_right_eq_some] at hstep
      obtain ⟨hu, hstep⟩ := hstep
      obtain rfl := Option.some.inj hstep
      exact h.begin fun v hv => .inl (List.mem_singleton.1 hv ▸ hu)
  | step i =>
      rw [Tokens.step] at hstep
      split at hstep
      · next f rest hcall =>
          obtain rfl := Option.some.inj hstep
          exact h.run hs hcall hfinds
      · cases hstep
      · cases hstep

/-! ## Whole runs -/

theorem served_init : init.Served := fun u c d hu => by cases hu

/-- On the way from a cancelled token to one that is not there is a last one that is. -/
theorem exists_below {t d : ℕ} (h : s.Descends t d) (ht : s.isCancelled t = true)
    (hd : s.isCancelled d = false) :
    ∃ u c, s.isCancelled u = true ∧ s.ChildOf u c ∧ s.Below c d := by
  induction h with
  | @single d htd => exact ⟨t, d, ht, htd, hd, .refl⟩
  | @tail b d _ hbd ih =>
      cases hb : s.isCancelled b with
      | true => exact ⟨b, d, hb, hbd, hd, .refl⟩
      | false =>
          obtain ⟨u, c, hu, huc, hcb⟩ := ih hb
          exact ⟨u, c, hu, huc, hcb.1, hcb.2.tail ⟨hbd, hd⟩⟩

/-- When all calls have returned, a cancelled token has nobody below it who is held and is not
    cancelled. -/
theorem Served.reached (h : s.Served) (hquiet : s.Quiet) {t u : ℕ} (ht : s.isCancelled t = true)
    (htu : s.Descends t u) (hu : s.Live u) : s.isCancelled u = true := by
  by_contra hnot
  obtain ⟨v, c, hv, hvc, hcu⟩ := exists_below htu ht (Bool.eq_false_iff.2 hnot)
  obtain ⟨f, hf, -⟩ := h v c u hv hvc hcu hu
  rw [hquiet] at hf
  cases hf

/-- **When everybody is reached.** When all calls have returned, one call of `cancel` has returned
    `true` for each token that is cancelled, and none has cancelled an ancestor; and if no reference
    was found gone with somebody below it, each cancelled token has cancelled all that are still
    held below it. -/
theorem cancel_reaches {ls : List Label} (hrun : Transition.run step init ls = some s')
    (hquiet : s'.Quiet) :
    (Along step FindsAll init ls →
        ∀ t ∈ s'.won, ∀ u, s'.Descends t u → 0 < s'.handles u → s'.isCancelled u = true)
      ∧ (∀ t a, s'.Descends a t → s'.cause a ≠ some t)
      ∧ ∀ u, s'.won.count u = if s'.isCancelled u = true then 1 else 0 := by
  have hshaped : s'.Shaped :=
    run_invariant (fun s l s' h hstep => h.step hstep) shaped_init hrun
  have hcount : ∀ u, s'.won.count u = if s'.isCancelled u = true then 1 else 0 := by
    intro u
    have hcounted := hshaped.counted u
    rw [hquiet, List.countP_nil, Nat.add_zero] at hcounted
    rw [hcounted]
    cases s'.isCancelled u with
    | false => rfl
    | true => rfl
  refine ⟨fun halong t ht u htu hu => ?_, fun t a hat hcause => ?_, hcount⟩
  · have hserved := run_invariant_along (I := fun s => s.Shaped ∧ s.Served)
      (fun s l s' h hfinds hstep => ⟨h.1.step hstep, h.2.step h.1 hfinds hstep⟩)
      ⟨shaped_init, served_init⟩ halong hrun
    have htc : s'.isCancelled t = true := by
      by_contra hnot
      have hpos := List.count_pos_iff.2 ht
      rw [hcount t, if_neg hnot] at hpos
      exact absurd hpos (Nat.lt_irrefl 0)
    exact hserved.2.reached hquiet htc htu (.inl hu)
  · have hloop : s'.Descends a a := hat.trans_left (hshaped.cause t a hcause)
    exact absurd (hshaped.lt_of_descends hloop) (Nat.lt_irrefl a)

/-- No reference is found gone at all. -/
def FindsLive (s : Tokens) : Label → Prop
  | .step i => ∀ stack ∈ s.calls[i]?, ∀ f ∈ stack.head?, ∀ c ∈ f.upgrades, s.Live c
  | .new | .clone _ | .drop _ | .cancel _ | .child _ => True

instance (s : Tokens) (l : Label) : Decidable (s.FindsLive l) :=
  match l with
  | .step i => inferInstanceAs
      (Decidable (∀ stack ∈ s.calls[i]?, ∀ f ∈ stack.head?, ∀ c ∈ f.upgrades, s.Live c))
  | .new | .clone _ | .drop _ | .cancel _ | .child _ => .isTrue trivial

theorem FindsLive.findsAll {l : Label} (h : s.FindsLive l) : s.FindsAll l := by
  cases l with
  | step i =>
      intro stack hstack f hf c hc hgone
      exact absurd (h stack hstack f hf c hc) hgone
  | new | clone u | drop u | cancel u | child p => trivial

/-- A child of a child, of which all are held. -/
theorem cancel_reaches_two : ∃ s',
    Transition.run step init
      ([.new, .child 0] ++ List.replicate 4 (.step 0) ++ [.child 1] ++ List.replicate 4 (.step 1)
        ++ [.cancel 0] ++ List.replicate 19 (.step 2)) = some s'
      ∧ (∀ u, s'.Descends 0 u → 0 < s'.handles u → s'.isCancelled u = true)
      ∧ s'.isCancelled 2 = true ∧ s'.won.count 2 = 1 := by
  have hlast : (Transition.run step init
      ([Label.new, .child 0] ++ List.replicate 4 (Label.step 0) ++ [Label.child 1] ++
        List.replicate 4 (Label.step 1) ++ [Label.cancel 0] ++
        List.replicate 19 (Label.step 2))).map
      (fun s => (s.frames, s.won, s.isCancelled 2)) = some ([], [2, 1, 0], true) := by decide
  obtain ⟨s', hrun, hobs⟩ := exists_run _ hlast
  simp only [Prod.mk.injEq] at hobs
  obtain ⟨hquiet, hwon, hcancelled⟩ := hobs
  have hreach := cancel_reaches hrun hquiet
  refine ⟨s', hrun, hreach.1 (Along.imp (fun _ _ => FindsLive.findsAll) (by decide)) 0 ?_,
    hcancelled, ?_⟩
  · rw [hwon]
    decide
  · rw [hreach.2.2 2, if_pos hcancelled]

/-- The token in the middle is dropped, and so is what it knows. -/
theorem cancel_misses : ∃ s',
    Transition.run step init
      ([.new, .child 0] ++ List.replicate 4 (.step 0) ++ [.child 1] ++ List.replicate 4 (.step 1)
        ++ [.drop 1, .cancel 0] ++ List.replicate 6 (.step 2)) = some s'
      ∧ s'.Quiet ∧ 0 ∈ s'.won ∧ s'.Descends 0 2 ∧ 0 < s'.handles 2 ∧ s'.isCancelled 2 = false := by
  have hlast : (Transition.run step init
      ([Label.new, .child 0] ++ List.replicate 4 (Label.step 0) ++ [Label.child 1] ++
        List.replicate 4 (Label.step 1) ++ [Label.drop 1, .cancel 0] ++
        List.replicate 6 (Label.step 2))).map
      (fun s => ((s.frames, s.won), (s.parent 1, s.parent 2), s.handles 2, s.isCancelled 2))
        = some (([], [0]), (some 0, some 1), 1, false) := by decide
  obtain ⟨s', hrun, hobs⟩ := exists_run _ hlast
  simp only [Prod.mk.injEq] at hobs
  obtain ⟨⟨hquiet, hwon⟩, ⟨h1, h2⟩, hhandles, hcancelled⟩ := hobs
  have hchild : s'.ChildOf 0 1 := h1
  refine ⟨s', hrun, hquiet, ?_, (TransGen.single hchild).tail h2, ?_, hcancelled⟩
  · rw [hwon]
    decide
  · rw [hhandles]
    decide

end Tokens

end IdEffect.Concurrency
