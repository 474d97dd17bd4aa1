import IdEffect.Sql.PgClient

set_option autoImplicit false

/-! # Connections that come back inside a transaction

Any number of calls run at the same time, each a program of `Sql.PgClient`. A call may be dropped at
any point, and with it the handle that `with_transaction` has begun for its body; the handles that
`begin` has returned may be dropped too. A connection is put back into the pool by whoever drops it.
The programs themselves are `Tidy`: on the paths where every command does what its reply says, a
connection they put back is outside a transaction. What leaves one inside is a handle or a call that
is dropped while it owns an open transaction, a COMMIT or ROLLBACK that is refused, and a BEGIN
whose reply is lost (`Safe`). -/

namespace IdEffect.Sql

open Transition
open Prog (Choice)

variable {A : Type}

/-! ## The system -/

/-- What the users of a client can call. -/
inductive Call (A : Type) where
  | connect
  | query (sql : String) (params : List SqlParam)
  | execute (sql : String) (params : List SqlParam)
  | begin_
  | commit (h : ℕ)
  | rollback (h : ℕ)
  | withTransaction (f : Body A)

/-- The program of a call; its answer is of no more interest. -/
def Call.prog : Call A → Prog Unit
  | .connect => PgSqlClient.connect.bind fun _ => .ret ()
  | .query sql params => (PgSqlClient.query sql params).bind fun _ => .ret ()
  | .execute sql params => (PgSqlClient.execute sql params).bind fun _ => .ret ()
  | .begin_ => PgSqlClient.begin_.bind fun _ => .ret ()
  | .commit h => (PgSqlTransaction.commit h).bind fun _ => .ret ()
  | .rollback h => (PgSqlTransaction.rollback h).bind fun _ => .ret ()
  | .withTransaction f => (Sql.withTransaction f).bind fun _ => .ret ()

/-- `with_transaction` has the handle that it begins in a variable of its own. The one that `begin`
    returns is its caller's. -/
def Call.keepsHandle : Call A → Bool
  | .withTransaction _ => true
  | .connect | .query .. | .execute .. | .begin_ | .commit _ | .rollback _ => false

/-- A running call, with what is left of its program. -/
structure Task where
  keepsHandle : Bool
  prog : Prog Unit

/-- `owner h` is the call that has the handle `h` in its variable. -/
structure Sys where
  world : World
  tasks : ℕ → Option Task
  owner : ℕ → Option ℕ

inductive Label (A : Type) where
  | start (t : ℕ) (call : Call A)
  | step (t : ℕ) (x : Choice)
  | abandon (t : ℕ)
  | dropHandle (h : ℕ)

namespace Sys

def init : Sys := ⟨.init, fun _ => none, fun _ => none⟩

/-- The owners once the call `t` has taken a step. -/
def ownerAfter (s : Sys) (t : ℕ) (task : Task) : ℕ → Option ℕ :=
  match task.keepsHandle, task.prog with
  | true, .newHandle _ _ => Function.update s.owner s.world.nextHandle (some t)
  | _, _ => s.owner

/-- The handle of a running call is dropped with the call only. -/
def step (s : Sys) : Label A → Option Sys
  | .start t call =>
      match s.tasks t with
      | none =>
          some { s with tasks := Function.update s.tasks t (some ⟨call.keepsHandle, call.prog⟩) }
      | some _ => none
  | .step t x =>
      match s.tasks t with
      | none => none
      | some task =>
          (Prog.step t (task.prog, s.world) x).map fun r =>
            ⟨r.2, Function.update s.tasks t (some { task with prog := r.1 }), s.ownerAfter t task⟩
  | .abandon t =>
      some { s with
        world := s.world.abandon s.owner t
        tasks := Function.update s.tasks t none }
  | .dropHandle h =>
      match s.owner h with
      | none => some { s with world := s.world.dropHandle h }
      | some _ => none

end Sys

/-! ## Tidy programs -/

/-- The connection a program holds, and whether a transaction is open on it. -/
inductive Local where
  | none
  | clean (c : ℕ)
  | open_ (c : ℕ)

def Local.conn : Local → Option ℕ
  | .none => Option.none
  | .clean c => some c
  | .open_ c => some c

/-- The program uses the connection it holds, one at a time, and puts it back clean. -/
inductive Tidy : Local → Prog A → Prop
  | ret (a : A) : Tidy .none (.ret a)
  | acquire {k : Except SqlError ℕ → Prog A} (he : ∀ e, Tidy .none (k (.error e)))
      (hc : ∀ c, Tidy (.clean c) (k (.ok c))) : Tidy .none (.acquire k)
  | takeConn {h : ℕ} {k : Except SqlError ℕ → Prog A} (he : ∀ e, Tidy .none (k (.error e)))
      (hc : ∀ c, Tidy (.open_ c) (k (.ok c))) : Tidy .none (.takeConn h k)
  | run {c : ℕ} {s : Statement} {k : Except SqlError Reply → Prog A}
      (hr : ∀ r, Tidy (.clean c) (k r)) : Tidy (.clean c) (.exec c (.run s) k)
  | begin_ {c : ℕ} {k : Except SqlError Reply → Prog A} (he : ∀ e, Tidy (.clean c) (k (.error e)))
      (hr : ∀ v, Tidy (.open_ c) (k (.ok v))) : Tidy (.clean c) (.exec c .begin_ k)
  | finish {c : ℕ} {cmd : Command} {k : Except SqlError Reply → Prog A}
      (hcmd : cmd = .commit ∨ cmd = .rollback) (hr : ∀ r, Tidy (.clean c) (k r)) :
      Tidy (.open_ c) (.exec c cmd k)
  | release {c : ℕ} {k : Prog A} (hk : Tidy .none k) : Tidy (.clean c) (.release c k)
  | newHandle {c : ℕ} {k : ℕ → Prog A} (hk : ∀ h, Tidy .none (k h)) :
      Tidy (.open_ c) (.newHandle c k)

theorem Tidy.bind {B : Type} {l : Local} {p : Prog A} {f : A → Prog B} (hp : Tidy l p)
    (hf : ∀ a, Tidy .none (f a)) : Tidy l (p.bind f) := by
  induction hp with
  | ret a => exact hf a
  | acquire _ _ ihe ihc => exact .acquire ihe ihc
  | takeConn _ _ ihe ihc => exact .takeConn ihe ihc
  | run _ ih => exact .run ih
  | begin_ _ _ ihe ihr => exact .begin_ ihe ihr
  | finish hcmd _ ih => exact .finish hcmd ih
  | release _ ih => exact .release ih
  | newHandle _ ih => exact .newHandle ih

theorem tidy_onPool (s : Statement) (get : Reply → A) : Tidy .none (PgSqlClient.onPool s get) :=
  .acquire (fun _ => .ret _) fun _ => .run fun _ => .release (.ret _)

theorem tidy_begin : Tidy .none PgSqlClient.begin_ :=
  .acquire (fun _ => .ret _) fun _ =>
    .begin_ (fun _ => .release (.ret _)) fun _ => .newHandle fun _ => .ret _

theorem tidy_finish {cmd : Command} (hcmd : cmd = .commit ∨ cmd = .rollback) (h : ℕ) :
    Tidy .none (PgSqlTransaction.finish cmd h) :=
  .takeConn (fun _ => .ret _) fun _ => .finish hcmd fun _ => .release (.ret _)

theorem tidy_body (f : Body A) (h : ℕ) : Tidy .none (f.effect h) := by
  induction f with
  | done r => exact .ret r
  | query sql params k ih => exact (tidy_onPool _ _).bind ih
  | execute sql params k ih => exact (tidy_onPool _ _).bind ih
  | commit k ih => exact (tidy_finish (.inl rfl) h).bind ih
  | rollback k ih => exact (tidy_finish (.inr rfl) h).bind ih

theorem tidy_withTransaction (f : Body A) : Tidy .none (withTransaction f) := by
  refine tidy_begin.bind fun r => ?_
  cases r with
  | error e => exact .ret _
  | ok h =>
      refine (tidy_body f h).bind fun rb => ?_
      cases rb with
      | error e => exact (tidy_finish (.inr rfl) h).bind fun _ => .ret _
      | ok v =>
          refine (tidy_finish (.inl rfl) h).bind fun r => ?_
          cases r <;> exact .ret _

/-- **Every call is tidy.** -/
theorem tidy_prog (call : Call A) : Tidy .none call.prog := by
  cases call with
  | connect => exact (tidy_onPool _ _).bind fun _ => .ret _
  | query sql params => exact (tidy_onPool _ _).bind fun _ => .ret _
  | execute sql params => exact (tidy_onPool _ _).bind fun _ => .ret _
  | begin_ => exact tidy_begin.bind fun _ => .ret _
  | commit h => exact (tidy_finish (.inl rfl) h).bind fun _ => .ret _
  | rollback h => exact (tidy_finish (.inr rfl) h).bind fun _ => .ret _
  | withTransaction f => exact (tidy_withTransaction f).bind fun _ => .ret _

/-! ## Who owns a connection -/

/-- What the call `t` holds is what its program thinks it holds. -/
structure Fits (w : World) (t : ℕ) (l : Local) : Prop where
  held : ∀ c, w.place c = .held t ↔ l.conn = some c
  clean : ∀ c, l = .clean c → w.sessions c = .idle

/-- The connections in the pool are outside transactions, and those in handles are there. -/
structure Tended (w : World) : Prop where
  clean : w.Clean
  handles : ∀ h c, (w.handles h).conn = some c → w.place c = .inHandle h

/-- The call `t` leaves alone what others hold. -/
def OthersKeep (t : ℕ) (w w' : World) : Prop :=
  ∀ u, u ≠ t → (∀ c, w'.place c = .held u ↔ w.place c = .held u)
    ∧ ∀ c, w.place c = .held u → w'.sessions c = w.sessions c

variable {w w' : World} {t u c h : ℕ} {l : Local}

theorem othersKeep_of_eq (hplace : w'.place = w.place) (hsession : w'.sessions = w.sessions) :
    OthersKeep t w w' := by
  refine fun u _ => ⟨fun c => ?_, fun c _ => ?_⟩
  · rw [hplace]
  · rw [hsession]

theorem Fits.of_othersKeep (hl : Fits w u l) (hk : OthersKeep t w w') (hne : u ≠ t) :
    Fits w' u l := by
  obtain ⟨hplace, hsession⟩ := hk u hne
  refine ⟨fun c => (hplace c).trans (hl.held c), fun c hc => ?_⟩
  have hheld : w.place c = .held u := (hl.held c).mpr (by rw [hc]; rfl)
  rw [hsession c hheld]
  exact hl.clean c hc

/-- Moving one connection, held by no other call before and after, and changing its session. -/
theorem othersKeep_update (hsession : ∀ c', c' ≠ c → w'.sessions c' = w.sessions c')
    {p : Place} (hplace : w'.place = Function.update w.place c p)
    (hbefore : ∀ u, u ≠ t → w.place c ≠ .held u) (hafter : ∀ u, u ≠ t → p ≠ .held u) :
    OthersKeep t w w' := by
  intro u hu
  refine ⟨fun c' => ?_, fun c' hc' => hsession c' ?_⟩
  · rw [hplace]
    by_cases hc : c' = c
    · rw [hc, Function.update_self]
      exact ⟨fun h => absurd h (hafter u hu), fun h => absurd h (hbefore u hu)⟩
    · rw [Function.update_of_ne hc]
  · rintro rfl
    exact hbefore u hu hc'

theorem Fits.place_ne (hl : Fits w t l) (hc : l.conn = some c) (hu : u ≠ t) :
    w.place c ≠ .held u := by
  rw [(hl.held c).mpr hc]
  exact fun h => hu (Place.held.inj h).symm

/-! ## Moving a connection -/

theorem Tended.move {p : Place} (hw : Tended w) (hplace : w'.place = Function.update w.place c p)
    (hsession : ∀ d, d ≠ c → w'.sessions d = w.sessions d)
    (hpooled : p = .pooled → w'.sessions c = .idle)
    (hhandles : ∀ h d, (w'.handles h).conn = some d →
      (d ≠ c ∧ (w.handles h).conn = some d) ∨ (d = c ∧ p = .inHandle h)) : Tended w' := by
  refine ⟨fun d hd => ?_, fun h d hd => ?_⟩
  · rw [hplace] at hd
    by_cases hne : d = c
    · rw [hne, Function.update_self] at hd
      rw [hne]
      exact hpooled hd
    · rw [Function.update_of_ne hne] at hd
      rw [hsession d hne]
      exact hw.clean d hd
  · rw [hplace]
    rcases hhandles h d hd with ⟨hne, hd⟩ | ⟨rfl, hp⟩
    · rw [Function.update_of_ne hne]
      exact hw.handles h d hd
    · rw [Function.update_self, hp]

/-- The call gets a connection. -/
theorem Fits.gain {l' : Local} (hl : Fits w t .none)
    (hplace : w'.place = Function.update w.place c (.held t)) (hc : l'.conn = some c)
    (hclean : l' = .clean c → w'.sessions c = .idle) : Fits w' t l' := by
  refine ⟨fun d => ?_, fun d hd => ?_⟩
  · rw [hplace, hc]
    by_cases hne : d = c
    · rw [hne, Function.update_self]
      exact ⟨fun _ => rfl, fun _ => rfl⟩
    · rw [Function.update_of_ne hne, hl.held d]
      exact ⟨nofun, fun h => absurd (Option.some.inj h).symm hne⟩
  · rw [hd] at hc
    obtain rfl := Option.some.inj hc
    exact hclean hd

/-- The call gives its connection away. -/
theorem Fits.lose {p : Place} (hl : Fits w t l) (hc : l.conn = some c)
    (hplace : w'.place = Function.update w.place c p) (hp : p ≠ .held t) : Fits w' t .none := by
  refine ⟨fun d => ?_, nofun⟩
  rw [hplace]
  by_cases hne : d = c
  · rw [hne, Function.update_self]
    exact ⟨fun h => absurd h hp, nofun⟩
  · rw [Function.update_of_ne hne, hl.held d, hc]
    exact ⟨fun h => absurd (Option.some.inj h).symm hne, nofun⟩

/-! ## One operation at a time -/

theorem Tended.hold (hw : Tended w) (hl : Fits w t .none) (hc : w.available c) :
    Tended (w.hold t c) ∧ Fits (w.hold t c) t (.clean c) ∧ OthersKeep t w (w.hold t c) := by
  have hav : w.place c = .pooled ∨ w.place c = .closed := by
    rwa [World.available, decide_eq_true_eq] at hc
  refine ⟨?_, ?_, ?_⟩
  · refine hw.move (World.hold_place w t c) (fun _ => World.hold_sessions_of_ne)
      (fun h => by cases h) ?_
    -- a connection that is available is in no handle
    intro h d hd
    refine .inl ⟨?_, hd⟩
    rintro rfl
    rw [hw.handles h d hd] at hav
    rcases hav with hav | hav <;> cases hav
  · exact hl.gain (World.hold_place w t c) rfl fun _ => hw.clean.hold_session hc
  · refine othersKeep_update (fun _ => World.hold_sessions_of_ne) (World.hold_place w t c) ?_ ?_
    · intro u _ h
      rw [h] at hav
      rcases hav with hav | hav <;> cases hav
    · exact fun u hu h => hu (Place.held.inj h).symm

/-- A command on the connection held, which is clean afterwards if the program counts on it. -/
theorem Tended.exec {cmd : Command} {φ : Fate} (hw : Tended w) (hl : Fits w t l)
    (hc : l.conn = some c) (l' : Local) (hc' : l'.conn = some c)
    (hclean : l' = .clean c → (w.exec c cmd φ).sessions c = .idle) :
    Tended (w.exec c cmd φ) ∧ Fits (w.exec c cmd φ) t l' ∧ OthersKeep t w (w.exec c cmd φ) := by
  have hheld := (hl.held c).mpr hc
  -- no connection moves, and only the session of the one held changes
  refine ⟨⟨fun d hd => ?_, fun h d hd => ?_⟩, ⟨fun d => ?_, fun d hd => ?_⟩, fun u hu => ⟨?_, ?_⟩⟩
  · rw [World.exec_place] at hd
    have hne : d ≠ c := by
      rintro rfl
      rw [hheld] at hd
      cases hd
    rw [World.exec_sessions_of_ne hne]
    exact hw.clean d hd
  · rw [World.exec_handles] at hd
    rw [World.exec_place]
    exact hw.handles h d hd
  · rw [World.exec_place, hl.held d, hc, hc']
  · rw [hd] at hc'
    obtain rfl := Option.some.inj hc'
    exact hclean hd
  · intro d
    rw [World.exec_place]
  · intro d hd
    refine World.exec_sessions_of_ne ?_ cmd φ
    rintro rfl
    exact hl.place_ne hc hu hd

/-- What a call holds is in no handle. -/
theorem Tended.ne_of_handle (hw : Tended w) (hl : Fits w t l) (hc : l.conn = some c) {d : ℕ}
    (hd : (w.handles h).conn = some d) : d ≠ c := by
  rintro rfl
  have hplace := hw.handles h d hd
  rw [(hl.held d).mpr hc] at hplace
  cases hplace

theorem Tended.release (hw : Tended w) (hl : Fits w t (.clean c)) :
    Tended (w.release c) ∧ Fits (w.release c) t .none ∧ OthersKeep t w (w.release c) := by
  refine ⟨?_, hl.lose rfl (World.release_place w c) nofun, ?_⟩
  · exact hw.move (World.release_place w c) (fun _ _ => rfl) (fun _ => hl.clean c rfl)
      fun h d hd => .inl ⟨hw.ne_of_handle hl rfl hd, hd⟩
  · exact othersKeep_update (fun _ _ => rfl) (World.release_place w c)
      (fun u hu => hl.place_ne rfl hu) nofun

theorem Tended.newHandle (hw : Tended w) (hl : Fits w t (.open_ c)) :
    Tended (w.newHandle c) ∧ Fits (w.newHandle c) t .none ∧ OthersKeep t w (w.newHandle c) := by
  refine ⟨?_, hl.lose rfl (World.newHandle_place w c) nofun, ?_⟩
  · refine hw.move (World.newHandle_place w c) (fun _ _ => rfl) nofun fun h d hd => ?_
    rw [World.newHandle_handles] at hd
    by_cases hh : h = w.nextHandle
    · rw [hh, Function.update_self] at hd
      exact .inr ⟨(Option.some.inj hd).symm, by rw [hh]⟩
    · rw [Function.update_of_ne hh] at hd
      exact .inl ⟨hw.ne_of_handle hl rfl hd, hd⟩
  · exact othersKeep_update (fun _ _ => rfl) (World.newHandle_place w c)
      (fun u hu => hl.place_ne rfl hu) nofun

/-- Emptying a handle of its connection `c`. -/
theorem Tended.emptied {f : Bool} (hw : Tended w) (hc : (w.handles h).conn = some c) {h' d : ℕ}
    (hd : (Function.update w.handles h ⟨none, f⟩ h').conn = some d) :
    d ≠ c ∧ (w.handles h').conn = some d := by
  by_cases hh : h' = h
  · rw [hh, Function.update_self] at hd
    cases hd
  · rw [Function.update_of_ne hh] at hd
    refine ⟨?_, hd⟩
    rintro rfl
    have hplace := hw.handles h' d hd
    rw [hw.handles h d hc] at hplace
    exact hh (Place.inHandle.inj hplace).symm

/-- A handle that is finished gives its connection to the call, or an error. -/
theorem Tended.takeConn (hw : Tended w) (hl : Fits w t .none) (h : ℕ) :
    Tended (w.takeConn t h).2 ∧ OthersKeep t w (w.takeConn t h).2
      ∧ ((∃ e, (w.takeConn t h).1 = .error e ∧ Fits (w.takeConn t h).2 t .none)
        ∨ ∃ c, (w.takeConn t h).1 = .ok c ∧ Fits (w.takeConn t h).2 t (.open_ c)) := by
  cases hf : (w.handles h).finished with
  | true =>
      rw [World.takeConn_finished hf]
      exact ⟨hw, othersKeep_of_eq rfl rfl, .inl ⟨_, rfl, hl⟩⟩
  | false =>
      cases hc : (w.handles h).conn with
      | none =>
          rw [World.takeConn_none hf hc]
          -- the connection is gone already, and only the handle is marked
          refine ⟨⟨hw.clean, fun h' d hd => ?_⟩, othersKeep_of_eq rfl rfl,
            .inl ⟨_, rfl, ⟨hl.held, hl.clean⟩⟩⟩
          by_cases hh : h' = h
          · simp only [hh, Function.update_self, reduceCtorEq] at hd
          · simp only [Function.update_of_ne hh] at hd
            exact hw.handles h' d hd
      | some c =>
          rw [World.takeConn_some hf hc]
          refine ⟨?_, ?_, .inr ⟨c, rfl, ?_⟩⟩
          · exact hw.move rfl (fun _ _ => rfl) nofun fun h' d hd => .inl (hw.emptied hc hd)
          · refine othersKeep_update (fun _ _ => rfl) rfl (fun u _ h' => ?_)
              fun u hu h' => hu (Place.held.inj h').symm
            rw [hw.handles h c hc] at h'
            cases h'
          · exact hl.gain rfl rfl nofun

/-! ## Steps that leave no transaction behind -/

/-- The server does what it replies: no BEGIN takes effect with its reply lost, and no COMMIT or
    ROLLBACK is refused with the transaction still open. -/
def Answered : Command → Fate → Prop
  | .begin_, .lost _ => False
  | .commit, .refused _ => False
  | .rollback, .refused _ => False
  | _, _ => True

theorem answered_ok (cmd : Command) (reply : Reply) : Answered cmd (.ok reply) := by
  cases cmd <;> trivial

/-- Commands are answered, and neither a call nor a handle is dropped while a connection it owns is
    inside a transaction. -/
def Safe (s : Sys) : Label A → Prop
  | .start _ _ => True
  | .step t x => ∀ task c cmd k φ, s.tasks t = some task → task.prog = .exec c cmd k →
      x = .fate φ → Answered cmd φ
  | .abandon t => ∀ c, s.world.ownedBy s.owner t c → s.world.sessions c = .idle
  | .dropHandle h => ∀ c, (s.world.handles h).conn = some c → s.world.sessions c = .idle

theorem safe_step {s : Sys} {t : ℕ} {x : Choice} (hx : ∀ cmd φ, x = .fate φ → Answered cmd φ) :
    Safe s (.step t x : Label A) :=
  fun _ _ cmd _ φ _ _ hfate => hx cmd φ hfate

/-- After COMMIT or ROLLBACK, the session is outside a transaction unless the command was
    refused. -/
theorem exec_finish_idle {cmd : Command} {φ : Fate} (hcmd : cmd = .commit ∨ cmd = .rollback)
    (ha : Answered cmd φ) : (w.exec c cmd φ).sessions c = .idle := by
  cases φ with
  | refused e => rcases hcmd with rfl | rfl <;> exact ha.elim
  | aborted e => exact Function.update_self ..
  | _ =>
      rw [World.exec, World.perform_sessions, Function.update_self]
      rcases hcmd with rfl | rfl <;> cases w.sessions c <;> rfl

/-- A BEGIN that fails leaves the session outside a transaction unless its reply was lost. -/
theorem exec_begin_idle {φ : Fate} {e : SqlError} (h : w.sessions c = .idle)
    (ha : Answered .begin_ φ) (he : φ.reply = .error e) :
    (w.exec c .begin_ φ).sessions c = .idle := by
  cases φ with
  | ok reply => cases he
  | refused e => exact h
  | lost e => exact ha.elim
  | aborted e => exact Function.update_self ..

/-- **One step of a tidy program** keeps the pool tended, and the program stays tidy. -/
theorem Tended.step {p p' : Prog A} {x : Choice} (hw : Tended w) (hp : Tidy l p) (hl : Fits w t l)
    (ha : ∀ c cmd k φ, p = .exec c cmd k → x = .fate φ → Answered cmd φ)
    (hstep : Prog.step t (p, w) x = some (p', w')) :
    Tended w' ∧ OthersKeep t w w' ∧ ∃ l', Tidy l' p' ∧ Fits w' t l' := by
  cases hp with
  | ret a => cases x <;> cases hstep
  | @acquire k he hc =>
      cases x with
      | acquired c =>
          obtain ⟨hav, heq⟩ := Prog.step_acquired hstep
          obtain ⟨rfl, rfl⟩ := Prod.mk.inj heq
          obtain ⟨htended, hfits, hkeep⟩ := hw.hold hl hav
          exact ⟨htended, hkeep, .clean c, hc c, hfits⟩
      | refused e =>
          obtain ⟨rfl, rfl⟩ := Prod.mk.inj (Option.some.inj hstep)
          exact ⟨hw, othersKeep_of_eq rfl rfl, .none, he e, hl⟩
      | _ => cases hstep
  | @takeConn h k he hc =>
      cases x with
      | go =>
          obtain ⟨rfl, rfl⟩ := Prod.mk.inj (Option.some.inj hstep)
          obtain ⟨htended, hkeep, ⟨e, heq, hfits⟩ | ⟨c, heq, hfits⟩⟩ := hw.takeConn hl h
          · exact ⟨htended, hkeep, .none, heq ▸ he e, hfits⟩
          · exact ⟨htended, hkeep, .open_ c, heq ▸ hc c, hfits⟩
      | _ => cases hstep
  | @run c s k hr =>
      cases x with
      | fate φ =>
          obtain ⟨rfl, rfl⟩ := Prod.mk.inj (Option.some.inj hstep)
          obtain ⟨htended, hfits, hkeep⟩ := hw.exec hl rfl (.clean c) rfl
            fun _ => World.exec_run_idle (hl.clean c rfl) s φ
          exact ⟨htended, hkeep, .clean c, hr _, hfits⟩
      | _ => cases hstep
  | @begin_ c k he hr =>
      cases x with
      | fate φ =>
          obtain ⟨rfl, rfl⟩ := Prod.mk.inj (Option.some.inj hstep)
          -- a BEGIN that is refused has opened nothing, one that succeeds goes into a handle
          have hanswered := ha c .begin_ k φ rfl rfl
          cases hreply : φ.reply with
          | error e =>
              obtain ⟨htended, hfits, hkeep⟩ := hw.exec hl rfl (.clean c) rfl
                fun _ => exec_begin_idle (hl.clean c rfl) hanswered hreply
              exact ⟨htended, hkeep, .clean c, he e, hfits⟩
          | ok v =>
              obtain ⟨htended, hfits, hkeep⟩ := hw.exec hl rfl (.open_ c) rfl nofun
              exact ⟨htended, hkeep, .open_ c, hr v, hfits⟩
      | _ => cases hstep
  | @finish c cmd k hcmd hr =>
      cases x with
      | fate φ =>
          obtain ⟨rfl, rfl⟩ := Prod.mk.inj (Option.some.inj hstep)
          obtain ⟨htended, hfits, hkeep⟩ := hw.exec hl rfl (.clean c) rfl
            fun _ => exec_finish_idle hcmd (ha c cmd k φ rfl rfl)
          exact ⟨htended, hkeep, .clean c, hr _, hfits⟩
      | _ => cases hstep
  | @release c k hk =>
      cases x with
      | go =>
          obtain ⟨rfl, rfl⟩ := Prod.mk.inj (Option.some.inj hstep)
          obtain ⟨htended, hfits, hkeep⟩ := hw.release hl
          exact ⟨htended, hkeep, .none, hk, hfits⟩
      | _ => cases hstep
  | @newHandle c k hk =>
      cases x with
      | go =>
          obtain ⟨rfl, rfl⟩ := Prod.mk.inj (Option.some.inj hstep)
          obtain ⟨htended, hfits, hkeep⟩ := hw.newHandle hl
          exact ⟨htended, hkeep, .none, hk _, hfits⟩
      | _ => cases hstep

/-! ## Whole runs -/

/-- A call that does not run holds nothing. -/
def TidyTask (l : Local) : Option Task → Prop
  | none => l = .none
  | some task => Tidy l task.prog

/-- The pool is tended and every call is where its program says. -/
structure Orderly (s : Sys) : Prop where
  tended : Tended s.world
  tasks : ∀ t, ∃ l, TidyTask l (s.tasks t) ∧ Fits s.world t l

theorem orderly_init : Orderly Sys.init where
  tended := ⟨nofun, nofun⟩
  tasks _ := ⟨.none, rfl, fun _ => ⟨nofun, nofun⟩, nofun⟩

/-- One call moves, the others stay where they are. -/
theorem Orderly.update {s : Sys} {w' : World} {q : Option Task} {owner : ℕ → Option ℕ}
    (hs : Orderly s) (hw : Tended w') (hk : OthersKeep t s.world w')
    (hq : ∃ l, TidyTask l q ∧ Fits w' t l) :
    Orderly ⟨w', Function.update s.tasks t q, owner⟩ := by
  refine ⟨hw, fun u => ?_⟩
  by_cases hu : u = t
  · subst hu
    simpa only [Function.update_self] using hq
  · obtain ⟨l, htidy, hfits⟩ := hs.tasks u
    refine ⟨l, ?_, hfits.of_othersKeep hk hu⟩
    simpa only [Function.update_of_ne hu] using htidy

/-- A call that is dropped outside transactions. -/
theorem Tended.abandon {owner : ℕ → Option ℕ} (hw : Tended w)
    (ha : ∀ c, w.ownedBy owner t c → w.sessions c = .idle) :
    Tended (w.abandon owner t) ∧ Fits (w.abandon owner t) t .none
      ∧ OthersKeep t w (w.abandon owner t) := by
  have hplace : ∀ c, (w.abandon owner t).place c
      = if w.ownedBy owner t c then .pooled else w.place c := fun _ => rfl
  refine ⟨⟨fun c hc => ?_, fun h c hc => ?_⟩, ⟨fun c => ⟨fun hc => ?_, nofun⟩, nofun⟩,
    fun u hu => ⟨fun c => ?_, fun _ _ => rfl⟩⟩
  · rw [hplace] at hc
    split_ifs at hc with howned
    · exact ha c howned
    · exact hw.clean c hc
  -- a handle that still has its connection is owned by nobody, or by another call
  · rw [World.abandon_handles] at hc
    split_ifs at hc with howner
    have hin := hw.handles h c hc
    rw [hplace, if_neg, hin]
    rw [World.ownedBy, hin, beq_iff_eq]
    exact howner
  · rw [hplace] at hc
    split_ifs at hc with howned
    refine absurd ?_ howned
    rw [World.ownedBy, hc]
    exact beq_self_eq_true t
  · rw [hplace]
    split_ifs with howned
    · refine iff_of_false nofun fun hheld => ?_
      rw [World.ownedBy, hheld, beq_iff_eq] at howned
      exact hu howned
    · exact Iff.rfl

/-- A handle that is dropped outside a transaction; no call is concerned. -/
theorem Tended.dropHandle (hw : Tended w)
    (ha : ∀ c, (w.handles h).conn = some c → w.sessions c = .idle) :
    Tended (w.dropHandle h) ∧ ∀ t l, Fits w t l → Fits (w.dropHandle h) t l := by
  rw [World.dropHandle]
  cases hc : (w.handles h).conn with
  | none => exact ⟨hw, fun _ _ hl => hl⟩
  | some c =>
      refine ⟨?_, fun t l hl => ⟨fun d => ?_, hl.clean⟩⟩
      · exact hw.move rfl (fun _ _ => rfl) (fun _ => ha c hc)
          fun h' d hd => .inl (hw.emptied hc hd)
      · rw [← hl.held d]
        by_cases hd : d = c
        · subst hd
          rw [hw.handles h d hc]
          simp only [Function.update_self, reduceCtorEq]
        · simp only [Function.update_of_ne hd]

/-- **Step lemma.** -/
theorem Orderly.step {s s' : Sys} {a : Label A} (hs : Orderly s) (hsafe : Safe s a)
    (hstep : s.step a = some s') : Orderly s' := by
  cases a with
  | start t call =>
      rw [Sys.step] at hstep
      split at hstep
      · next hnone =>
          obtain rfl := Option.some.inj hstep
          obtain ⟨l, hl, hfits⟩ := hs.tasks t
          rw [hnone] at hl
          obtain rfl : l = .none := hl
          exact hs.update hs.tended (othersKeep_of_eq rfl rfl)
            ⟨.none, tidy_prog call, hfits⟩
      · cases hstep
  | step t x =>
      rw [Sys.step] at hstep
      split at hstep
      · cases hstep
      · next task htask =>
          obtain ⟨r, hr, rfl⟩ := Option.map_eq_some_iff.mp hstep
          obtain ⟨l, hl, hfits⟩ := hs.tasks t
          rw [htask] at hl
          obtain ⟨htended, hkeep, l', htidy, hfits'⟩ := hs.tended.step hl hfits
            (fun c cmd k φ heq => hsafe task c cmd k φ htask heq) hr
          exact hs.update htended hkeep ⟨l', htidy, hfits'⟩
  | abandon t =>
      obtain rfl := Option.some.inj hstep
      obtain ⟨htended, hfits, hkeep⟩ := hs.tended.abandon hsafe
      exact hs.update htended hkeep ⟨.none, rfl, hfits⟩
  | dropHandle h =>
      rw [Sys.step] at hstep
      split at hstep
      · obtain rfl := Option.some.inj hstep
        obtain ⟨htended, hfits⟩ := hs.tended.dropHandle hsafe
        refine ⟨htended, fun t => ?_⟩
        obtain ⟨l, hl, hl'⟩ := hs.tasks t
        exact ⟨l, hl, hfits t l hl'⟩
      · cases hstep

/-- **Run lemma.** -/
theorem orderly_of_run {ls : List (Label A)} {s : Sys} (hsafe : Along Sys.step Safe Sys.init ls)
    (hrun : run Sys.step Sys.init ls = some s) : Orderly s :=
  run_invariant_along (fun _ _ _ hs hg hstep => hs.step hg hstep) orderly_init hsafe hrun

/-- **In a run whose steps are all safe no connection is in the pool inside a transaction**, and so
    none that a later call acquires is. -/
theorem pool_clean_of_safe (ls : List (Label A)) (s : Sys)
    (hsafe : Along Sys.step Safe Sys.init ls) (hrun : run Sys.step Sys.init ls = some s) :
    (∀ c, s.world.place c = .pooled → s.world.sessions c = .idle)
      ∧ ∀ t task k x p w, s.tasks t = some task → task.prog = .acquire k →
        Prog.step t (.acquire k, s.world) (.acquired x) = some (p, w) → w.sessions x = .idle := by
  have hclean := (orderly_of_run hsafe hrun).tended.clean
  refine ⟨hclean, fun t task k x p w _ _ hstep => ?_⟩
  obtain ⟨hav, heq⟩ := Prog.step_acquired hstep
  obtain ⟨-, rfl⟩ := Prod.mk.inj heq
  exact hclean.hold_session hav

/-- A transaction is begun. -/
def beginRun : List (Label Unit) :=
  [.start 0 .begin_, .step 0 (.acquired 0), .step 0 (.fate (.ok ⟨[], 0⟩)), .step 0 .go]

/-- It is committed. -/
def commitRun : List (Label Unit) :=
  [.start 1 (.commit 0), .step 1 .go, .step 1 (.fate (.ok ⟨[], 0⟩)), .step 1 .go]

theorem pool_clean_of_safe_commit :
    ∃ s, run Sys.step Sys.init (beginRun ++ commitRun) = some s
      ∧ ∀ c, s.world.place c = .pooled → s.world.sessions c = .idle := by
  refine ⟨_, rfl, (pool_clean_of_safe (beginRun ++ commitRun) _ ?_ rfl).1⟩
  have hok : ∀ cmd φ, Choice.fate (.ok ⟨[], 0⟩) = .fate φ → Answered cmd φ := by
    rintro cmd _ ⟨⟩
    exact answered_ok cmd _
  exact along_cons rfl trivial (along_cons rfl (safe_step nofun) (along_cons rfl (safe_step hok)
    (along_cons rfl (safe_step nofun) (along_cons rfl trivial (along_cons rfl (safe_step nofun)
      (along_cons rfl (safe_step hok) (along_cons rfl (safe_step nofun) trivial)))))))

/-- A handle is dropped without commit or rollback. -/
theorem pool_dirty_after_drop :
    ∃ s, run Sys.step Sys.init (beginRun ++ [.dropHandle 0]) = some s
      ∧ s.world.place 0 = .pooled ∧ s.world.sessions 0 = .open_ [] :=
  ⟨_, rfl, rfl, rfl⟩

/-- A call that is dropped, or a handle, inside a transaction puts it into the pool. -/
theorem not_clean_of_unsafe_drop {s s' : Sys} {a : Label A}
    (ha : (∃ t, a = .abandon t) ∨ ∃ h, a = .dropHandle h) (hdirty : ¬ Safe s a)
    (hstep : s.step a = some s') : ¬ s'.world.Clean := by
  intro hclean
  apply hdirty
  rcases ha with ⟨t, rfl⟩ | ⟨h, rfl⟩
  · obtain rfl := Option.some.inj hstep
    exact fun c hc => hclean c (if_pos hc)
  · rw [Sys.step] at hstep
    split at hstep
    · obtain rfl := Option.some.inj hstep
      intro c hc
      rw [World.dropHandle_some hc] at hclean
      exact hclean c (Function.update_self ..)
    · cases hstep

/-- So does `with_transaction` while its body waits for a connection. -/
example :
    ∃ s, run Sys.step Sys.init
        [.start 0 (.withTransaction (.query "SELECT" [] fun _ => .done (.ok ()))),
          .step 0 (.acquired 0), .step 0 (.fate (.ok ⟨[], 0⟩)), .step 0 .go, .abandon 0] = some s
      ∧ s.world.place 0 = .pooled ∧ s.world.sessions 0 = .open_ [] :=
  ⟨_, rfl, rfl, rfl⟩

end IdEffect.Sql
