import IdEffect.Sql.PgClient

set_option autoImplicit false

/-! # When `with_transaction` is all-or-nothing

BEGIN, COMMIT and ROLLBACK are sent on the connection kept in the handle; the statements of the body
go to the pool and run on other ones, where each is committed at once. So the transaction that is
opened and closed around the body is always empty (`Holding`), if it does not start with the
statements of an earlier one: finishing it commits nothing and undoes nothing, and an error that is
returned after a statement took effect leaves it committed. A statement is not committed at once
only where another connection of the pool was left inside a transaction; then it is success that
says too much. -/

namespace IdEffect.Sql

open Transition
open Prog (Choice)

variable {A B : Type} {t : ℕ} {w w' : World} {cs : List Choice}

/-! ## Runs, operation by operation -/

section Operations

attribute [local simp] Runs run_cons Prog.step

variable {a b : A}

theorem runs_ret : Runs t w (.ret a) cs b w' ↔ cs = [] ∧ a = b ∧ w = w' := by
  cases cs with
  | nil => simp
  | cons x cs => cases x <;> simp

theorem runs_acquire {k : Except SqlError ℕ → Prog A} :
    Runs t w (.acquire k) cs b w' ↔
      (∃ c rest, cs = .acquired c :: rest ∧ w.available c
        ∧ Runs t (w.hold t c) (k (.ok c)) rest b w')
      ∨ ∃ e rest, cs = .refused e :: rest ∧ Runs t w (k (.error e)) rest b w' := by
  cases cs with
  | nil => simp
  | cons x cs =>
      cases x with
      | acquired c => by_cases hc : w.available c <;> simp [hc]
      | _ => simp

theorem runs_exec {c : ℕ} {cmd : Command} {k : Except SqlError Reply → Prog A} :
    Runs t w (.exec c cmd k) cs b w' ↔
      ∃ φ rest, cs = .fate φ :: rest ∧ Runs t (w.exec c cmd φ) (k φ.reply) rest b w' := by
  cases cs with
  | nil => simp
  | cons x cs => cases x <;> simp

theorem runs_release {c : ℕ} {k : Prog A} :
    Runs t w (.release c k) cs b w'
      ↔ ∃ rest, cs = .go :: rest ∧ Runs t (w.release c) k rest b w' := by
  cases cs with
  | nil => simp
  | cons x cs => cases x <;> simp

theorem runs_newHandle {c : ℕ} {k : ℕ → Prog A} :
    Runs t w (.newHandle c k) cs b w' ↔
      ∃ rest, cs = .go :: rest ∧ Runs t (w.newHandle c) (k w.nextHandle) rest b w' := by
  cases cs with
  | nil => simp
  | cons x cs => cases x <;> simp

theorem runs_takeConn {h : ℕ} {k : Except SqlError ℕ → Prog A} :
    Runs t w (.takeConn h k) cs b w' ↔
      ∃ rest, cs = .go :: rest ∧ Runs t (w.takeConn t h).2 (k (w.takeConn t h).1) rest b w' := by
  cases cs with
  | nil => simp
  | cons x cs => cases x <;> simp

end Operations

/-- A program that has not ended steps the same under a continuation. -/
theorem step_bind (p : Prog A) (f : A → Prog B) (x : Choice) (hp : ∀ a, p ≠ .ret a) :
    Prog.step t (p.bind f, w) x = (Prog.step t (p, w) x).map fun s => (s.1.bind f, s.2) := by
  cases p with
  | ret a => exact absurd rfl (hp a)
  | acquire k =>
      cases x with
      | acquired c => by_cases hc : w.available c <;> simp [Prog.bind, Prog.step, hc]
      | _ => rfl
  | _ => cases x <;> rfl

theorem bind_eq_ret {p : Prog A} {f : A → Prog B} {b : B} (h : p.bind f = .ret b) :
    ∃ a, p = .ret a := by
  cases p with
  | ret a => exact ⟨a, rfl⟩
  | _ => cases h

/-- **A run of a sequence is a run of its first part followed by one of the rest.** -/
theorem runs_bind {p : Prog A} {f : A → Prog B} {b : B} :
    Runs t w (p.bind f) cs b w' ↔
      ∃ cs₁ cs₂ a w₁, cs = cs₁ ++ cs₂ ∧ Runs t w p cs₁ a w₁ ∧ Runs t w₁ (f a) cs₂ b w' := by
  constructor
  · intro h
    -- along the choices: as long as the first part has not ended, it is the one that steps
    induction cs generalizing p w with
    | nil =>
        obtain ⟨a, rfl⟩ := bind_eq_ret (Prod.mk.inj (Option.some.inj h)).1
        exact ⟨[], [], a, w, rfl, runs_ret.mpr ⟨rfl, rfl, rfl⟩, h⟩
    | cons x cs ih =>
        by_cases hp : ∃ a, p = .ret a
        · obtain ⟨a, rfl⟩ := hp
          exact ⟨[], x :: cs, a, w, rfl, runs_ret.mpr ⟨rfl, rfl, rfl⟩, h⟩
        · obtain ⟨m, hm, hrest⟩ := run_cons_eq_some.mp h
          rw [step_bind p f x (not_exists.mp hp), Option.map_eq_some_iff] at hm
          obtain ⟨s, hs, rfl⟩ := hm
          obtain ⟨cs₁, cs₂, a, w₁, rfl, h₁, h₂⟩ := ih hrest
          exact ⟨x :: cs₁, cs₂, a, w₁, rfl, run_cons_eq_some.mpr ⟨s, hs, h₁⟩, h₂⟩
  · rintro ⟨cs₁, cs₂, a, w₁, rfl, h₁, h₂⟩
    induction cs₁ generalizing p w with
    | nil =>
        obtain ⟨rfl, rfl⟩ := Prod.mk.inj (Option.some.inj h₁)
        exact h₂
    | cons x cs₁ ih =>
        obtain ⟨s, hs, h₁⟩ := run_cons_eq_some.mp h₁
        have hp : ∀ a, p ≠ .ret a := by
          rintro a rfl
          cases x <;> cases hs
        refine run_cons_eq_some.mpr ⟨(s.1.bind f, s.2), ?_, ih h₁⟩
        rw [step_bind p f x hp, hs]
        rfl

/-- A statement that takes effect does so in a session with `P`. -/
def Takes (P : Session → Prop) (s : Prog A × World) (x : Choice) : Prop :=
  match s.1, x with
  | .exec c (.run _) _, .fate φ => φ.takesEffect = true → P (s.2.sessions c)
  | _, _ => True

/-- Inside a transaction. -/
def Inside : Prog A × World → Choice → Prop := Takes (· ≠ .idle)

/-- Outside one, where it is committed at once. -/
def Outside : Prog A × World → Choice → Prop := Takes (· = .idle)

theorem takes_bind {P : Session → Prop} (p : Prog A) (f : A → Prog B) (x : Choice)
    (hp : ∀ a, p ≠ .ret a) : Takes P (p.bind f, w) x ↔ Takes P (p, w) x := by
  cases p with
  | ret a => exact absurd rfl (hp a)
  | exec c cmd k => cases cmd <;> cases x <;> exact Iff.rfl
  | _ => exact Iff.rfl

/-- So it is for a sequence if it is for its parts. -/
theorem along_bind {P : Session → Prop} {p : Prog A} {f : A → Prog B} {a : A} {w₁ : World}
    {cs₁ cs₂ : List Choice} (h : Runs t w p cs₁ a w₁) :
    Along (Prog.step t) (Takes P) (p.bind f, w) (cs₁ ++ cs₂)
      ↔ Along (Prog.step t) (Takes P) (p, w) cs₁
        ∧ Along (Prog.step t) (Takes P) (f a, w₁) cs₂ := by
  induction cs₁ generalizing p w with
  | nil =>
      obtain ⟨rfl, rfl⟩ := Prod.mk.inj (Option.some.inj h)
      exact (and_iff_right trivial).symm
  | cons x cs₁ ih =>
      obtain ⟨s, hs, hrest⟩ := run_cons_eq_some.mp h
      have hp : ∀ a, p ≠ .ret a := by
        rintro a rfl
        cases x <;> cases hs
      have hs' : Prog.step t (p.bind f, w) x = some (s.1.bind f, s.2) := by
        rw [step_bind p f x hp, hs]
        rfl
      rw [List.cons_append, along_cons_iff hs', along_cons_iff hs, takes_bind p f x hp, ih hrest,
        and_assoc]

/-! ## Runs, call by call -/

theorem runs_onPool {stmt : Statement} {get : Reply → A} {r : Except SqlError A}
    (h : Runs t w (PgSqlClient.onPool stmt get) cs r w') :
    w' = w ∨ ∃ c φ, w.available c ∧ w' = ((w.hold t c).exec c (.run stmt) φ).release c := by
  rcases runs_acquire.mp h with ⟨c, rest, -, hc, h⟩ | ⟨e, rest, -, h⟩
  · obtain ⟨φ, rest, -, h⟩ := runs_exec.mp h
    obtain ⟨rest, -, h⟩ := runs_release.mp h
    exact .inr ⟨c, φ, hc, (runs_ret.mp h).2.2.symm⟩
  · exact .inl (runs_ret.mp h).2.2.symm

/-- BEGIN on a connection of the pool, which then is in the new handle. -/
theorem runs_begin {h : ℕ} (hrun : Runs t w PgSqlClient.begin_ cs (.ok h) w') :
    h = w.nextHandle ∧ ∃ c, cs.head? = some (.acquired c) ∧ w.available c
      ∧ w' = ((w.hold t c).perform c .begin_).newHandle c := by
  rcases runs_acquire.mp hrun with ⟨c, rest, rfl, hc, hrun⟩ | ⟨e, rest, -, hrun⟩
  · obtain ⟨φ, rest, -, hrun⟩ := runs_exec.mp hrun
    cases φ with
    | ok reply =>
        obtain ⟨rest, -, hrun⟩ := runs_newHandle.mp hrun
        obtain ⟨-, hh, rfl⟩ := runs_ret.mp hrun
        exact ⟨(Except.ok.inj hh).symm, c, rfl, hc, rfl⟩
    | _ =>
        obtain ⟨rest, -, hrun⟩ := runs_release.mp hrun
        cases (runs_ret.mp hrun).2.1
  · cases (runs_ret.mp hrun).2.1

/-- A BEGIN that fails has run no statement. -/
theorem runs_begin_error {e : SqlError} (hrun : Runs t w PgSqlClient.begin_ cs (.error e) w') :
    w'.committed = w.committed := by
  rcases runs_acquire.mp hrun with ⟨c, rest, -, hc, hrun⟩ | ⟨e, rest, -, hrun⟩
  · obtain ⟨φ, rest, -, hrun⟩ := runs_exec.mp hrun
    cases φ with
    | ok reply =>
        obtain ⟨rest, -, hrun⟩ := runs_newHandle.mp hrun
        cases (runs_ret.mp hrun).2.1
    | refused e =>
        obtain ⟨rest, -, hrun⟩ := runs_release.mp hrun
        obtain ⟨-, -, rfl⟩ := runs_ret.mp hrun
        rfl
    | lost e =>
        obtain ⟨rest, -, hrun⟩ := runs_release.mp hrun
        obtain ⟨-, -, rfl⟩ := runs_ret.mp hrun
        exact List.append_nil _
    | aborted e =>
        obtain ⟨rest, -, hrun⟩ := runs_release.mp hrun
        obtain ⟨-, -, rfl⟩ := runs_ret.mp hrun
        rfl
  · rw [(runs_ret.mp hrun).2.2]

/-- The handle is finished already, or lost its connection, or its connection gets the command. -/
theorem runs_finish {cmd : Command} {h : ℕ} {r : Except SqlError Unit}
    (hrun : Runs t w (PgSqlTransaction.finish cmd h) cs r w') :
    ((w.handles h).finished = true ∧ (∃ e, r = .error e) ∧ cs = [.go] ∧ w' = w)
      ∨ ((w.handles h).finished = false ∧ (∃ e, r = .error e) ∧ cs = [.go]
        ∧ w' = { w with handles := Function.update w.handles h ⟨none, true⟩ })
      ∨ ((w.handles h).finished = false ∧ ∃ c φ, (w.handles h).conn = some c
        ∧ r = φ.reply.map (fun _ => ()) ∧ cs = [.go, .fate φ, .go]
        ∧ w' = ((w.takeConn t h).2.exec c cmd φ).release c) := by
  obtain ⟨rest, rfl, hrest⟩ := runs_takeConn.mp hrun
  clear hrun
  cases hf : (w.handles h).finished with
  | true =>
      rw [World.takeConn_finished hf] at hrest
      obtain ⟨rfl, rfl, rfl⟩ := runs_ret.mp hrest
      exact .inl ⟨rfl, ⟨_, rfl⟩, rfl, rfl⟩
  | false =>
      cases hc : (w.handles h).conn with
      | none =>
          rw [World.takeConn_none hf hc] at hrest
          obtain ⟨rfl, rfl, rfl⟩ := runs_ret.mp hrest
          exact .inr (.inl ⟨rfl, ⟨_, rfl⟩, rfl, rfl⟩)
      | some c =>
          rw [World.takeConn_some hf hc] at hrest ⊢
          obtain ⟨φ, rest, rfl, hrest⟩ := runs_exec.mp hrest
          obtain ⟨rest, rfl, hrest⟩ := runs_release.mp hrest
          obtain ⟨rfl, rfl, rfl⟩ := runs_ret.mp hrest
          exact .inr (.inr ⟨rfl, c, φ, rfl, rfl, rfl, rfl⟩)

/-! ## What holds while the body runs -/

/-- The transaction of the handle is empty. -/
def Holding (h : ℕ) (w : World) : Prop :=
  ∀ c, (w.handles h).conn = some c → w.place c = .inHandle h ∧ w.sessions c = .open_ []

/-- The connection that is acquired first brings no statements of an earlier transaction with it. -/
def StartsEmpty (w : World) (cs : List Choice) : Prop :=
  ∀ c, cs.head? = some (.acquired c) → w.place c = .pooled → (w.sessions c).commits .commit = []

theorem place_of_available {c c' h : ℕ} (hc : w.available c) (hp : w.place c' = .inHandle h) :
    c' ≠ c := by
  rintro rfl
  rw [World.available, decide_eq_true_eq, hp] at hc
  rcases hc with hc | hc <;> cases hc

/-- BEGIN opens an empty transaction, or finds one. -/
theorem Holding.begin {h : ℕ} (hw : StartsEmpty w cs)
    (hrun : Runs t w PgSqlClient.begin_ cs (.ok h) w') :
    Holding h w' ∧ w'.committed = w.committed ∧ w'.executed = w.executed := by
  obtain ⟨rfl, c, hfirst, hc, rfl⟩ := runs_begin hrun
  have hempty : ((w.hold t c).sessions c).commits .commit = [] :=
    World.hold_session (P := fun session => session.commits .commit = []) rfl (hw c hfirst) hc
  refine ⟨fun c' hc' => ?_, ?_, List.append_nil _⟩
  · have heq : c = c' := by
      rw [World.newHandle_handles, World.perform_nextHandle, World.hold_nextHandle,
        Function.update_self] at hc'
      exact Option.some.inj hc'
    subst heq
    refine ⟨Function.update_self .., ?_⟩
    rw [World.newHandle_sessions, World.perform_sessions, Function.update_self,
      Session.after_begin hempty]
  · show w.committed ++ ((w.hold t c).sessions c).commits .begin_ = w.committed
    rw [Session.commits_begin, List.append_nil]

/-- A statement on the pool does not reach the connection of the handle. -/
theorem Holding.onPool {h : ℕ} {stmt : Statement} {get : Reply → A} {r : Except SqlError A}
    (hh : Holding h w) (hrun : Runs t w (PgSqlClient.onPool stmt get) cs r w') :
    Holding h w' := by
  rcases runs_onPool hrun with rfl | ⟨c, φ, hc, rfl⟩
  · exact hh
  · intro c' hc'
    rw [World.release_handles, World.exec_handles, World.hold_handles] at hc'
    obtain ⟨hplace, hsession⟩ := hh c' hc'
    have hne := place_of_available hc hplace
    rw [World.release_place, Function.update_of_ne hne, World.exec_place, World.hold_place,
      Function.update_of_ne hne, World.release_sessions, World.exec_sessions_of_ne hne,
      World.hold_sessions_of_ne hne]
    exact ⟨hplace, hsession⟩

/-- Nothing is claimed of a handle without a connection. -/
theorem Holding.of_finished {h : ℕ} (hh : w.handles h = ⟨none, true⟩) : Holding h w := by
  intro c hc
  rw [hh] at hc
  cases hc

theorem Holding.finish {h : ℕ} {cmd : Command} {r : Except SqlError Unit}
    (hh : Holding h w) (hrun : Runs t w (PgSqlTransaction.finish cmd h) cs r w') :
    Holding h w' := by
  rcases runs_finish hrun with ⟨-, -, -, rfl⟩ | ⟨-, -, -, rfl⟩ | ⟨hf, c, φ, hc, -, -, rfl⟩
  · exact hh
  · exact .of_finished (Function.update_self ..)
  · refine .of_finished ?_
    rw [World.release_handles, World.exec_handles, World.takeConn_some hf hc]
    exact Function.update_self ..

/-- Finishing commits nothing, whatever the body has done. -/
theorem Holding.finish_committed {h : ℕ} {cmd : Command} {r : Except SqlError Unit}
    (hh : Holding h w) (hcmd : cmd = .commit ∨ cmd = .rollback)
    (hrun : Runs t w (PgSqlTransaction.finish cmd h) cs r w') :
    w'.committed = w.committed ∧ w'.executed = w.executed := by
  rcases runs_finish hrun with ⟨-, -, -, rfl⟩ | ⟨-, -, -, rfl⟩ | ⟨hf, c, φ, hc, -, -, rfl⟩
  · exact ⟨rfl, rfl⟩
  · exact ⟨rfl, rfl⟩
  · rw [World.release_committed, World.release_executed, World.takeConn_some hf hc]
    refine World.exec_of_empty hcmd ?_ φ
    exact (hh c hc).2

/-! ## What the body commits -/

/-- The statements `ran` took effect, and `kept` of them were committed at once. -/
structure Commits (t : ℕ) (p : Prog A) (cs : List Choice) (w w' : World)
    (ran kept : List Statement) : Prop where
  executed : w'.executed = w.executed ++ ran
  committed : w'.committed = w.committed ++ kept
  sublist : kept.Sublist ran
  inside : kept = [] ↔ Along (Prog.step t) Inside (p, w) cs
  outside : kept = ran ↔ Along (Prog.step t) Outside (p, w) cs

/-- A program that runs no statement. -/
theorem Commits.nothing {p : Prog A} (hexecuted : w'.executed = w.executed)
    (hcommitted : w'.committed = w.committed)
    (halong : ∀ P, Along (Prog.step t) (Takes P) (p, w) cs) : Commits t p cs w w' [] [] :=
  ⟨hexecuted.trans (List.append_nil _).symm, hcommitted.trans (List.append_nil _).symm,
    List.Sublist.refl _, iff_of_true rfl (halong _), iff_of_true rfl (halong _)⟩

theorem Commits.bind {p : Prog A} {f : A → Prog B} {a : A} {w₁ : World} {cs₁ cs₂ : List Choice}
    {ran₁ kept₁ ran₂ kept₂ : List Statement} (h₁ : Commits t p cs₁ w w₁ ran₁ kept₁)
    (hrun : Runs t w p cs₁ a w₁) (h₂ : Commits t (f a) cs₂ w₁ w' ran₂ kept₂) :
    Commits t (p.bind f) (cs₁ ++ cs₂) w w' (ran₁ ++ ran₂) (kept₁ ++ kept₂) := by
  have hinside : Along (Prog.step t) Inside (p.bind f, w) (cs₁ ++ cs₂) ↔ kept₁ = [] ∧ kept₂ = [] :=
    (along_bind hrun).trans (and_congr h₁.inside h₂.inside).symm
  have houtside : Along (Prog.step t) Outside (p.bind f, w) (cs₁ ++ cs₂)
      ↔ kept₁ = ran₁ ∧ kept₂ = ran₂ :=
    (along_bind hrun).trans (and_congr h₁.outside h₂.outside).symm
  refine ⟨?_, ?_, h₁.sublist.append h₂.sublist, ?_, ?_⟩
  · rw [h₂.executed, h₁.executed, List.append_assoc]
  · rw [h₂.committed, h₁.committed, List.append_assoc]
  · rw [hinside, List.append_eq_nil_iff]
  · rw [houtside]
    refine ⟨fun heq => ?_, fun ⟨heq₁, heq₂⟩ => heq₁ ▸ heq₂ ▸ rfl⟩
    -- neither part has more than its statements, so none has less
    have hlength := congrArg List.length heq
    have hle₁ := h₁.sublist.length_le
    have hle₂ := h₂.sublist.length_le
    rw [List.length_append, List.length_append] at hlength
    exact List.append_inj heq (by omega)

theorem commits_onPool {stmt : Statement} {get : Reply → A} {r : Except SqlError A}
    (h : Runs t w (PgSqlClient.onPool stmt get) cs r w') :
    ∃ ran kept, Commits t (PgSqlClient.onPool stmt get) cs w w' ran kept := by
  rcases runs_acquire.mp h with ⟨c, rest, rfl, hc, h⟩ | ⟨e, rest, rfl, h⟩
  · obtain ⟨φ, rest, rfl, h⟩ := runs_exec.mp h
    obtain ⟨rest, rfl, h⟩ := runs_release.mp h
    obtain ⟨rfl, -, rfl⟩ := runs_ret.mp h
    have halong : ∀ P, Along (Prog.step t) (Takes P) (PgSqlClient.onPool stmt get, w)
        [.acquired c, .fate φ, .go] ↔ (φ.takesEffect = true → P ((w.hold t c).sessions c)) := by
      intro P
      have hacquire : Prog.step t (PgSqlClient.onPool stmt get, w) (.acquired c)
          = some (_, w.hold t c) := if_pos hc
      rw [along_cons_iff hacquire, along_cons_iff rfl, along_cons_iff rfl]
      exact ⟨fun h => h.2.1, fun h => ⟨trivial, h, trivial, trivial⟩⟩
    cases hφ : φ.takesEffect with
    | false =>
        obtain ⟨hexecuted, hcommitted⟩ := (w.hold t c).exec_run_ineffective c hφ stmt
        refine ⟨[], [], .nothing hexecuted hcommitted fun P => (halong P).mpr fun htrue => ?_⟩
        exact absurd (hφ.symm.trans htrue) Bool.false_ne_true
    | true =>
        obtain ⟨hexecuted, hcommitted⟩ := (w.hold t c).exec_run_effective c hφ stmt
        have hinside := (halong (· ≠ .idle)).trans (forall_prop_of_true hφ)
        have houtside := (halong (· = .idle)).trans (forall_prop_of_true hφ)
        rcases ((w.hold t c).sessions c).commits_run stmt with ⟨hkept, hidle⟩ | ⟨hkept, hopen⟩
        · refine ⟨[stmt], [stmt], hexecuted, hcommitted.trans (hkept ▸ rfl), .refl _, ?_, ?_⟩
          · exact iff_of_false (List.cons_ne_nil stmt []) fun h => hinside.mp h hidle
          · exact iff_of_true rfl (houtside.mpr hidle)
        · refine ⟨[stmt], [], hexecuted, hcommitted.trans (hkept ▸ rfl), List.nil_sublist _, ?_, ?_⟩
          · exact iff_of_true rfl (hinside.mpr hopen)
          · exact iff_of_false (List.cons_ne_nil stmt []).symm fun h => hopen (houtside.mp h)
  · obtain ⟨rfl, -, rfl⟩ := runs_ret.mp h
    exact ⟨[], [], .nothing rfl rfl fun P => (along_cons_iff rfl).mpr ⟨trivial, trivial⟩⟩

/-- COMMIT and ROLLBACK are no statements. -/
theorem along_finish {P : Session → Prop} {h : ℕ} {cmd : Command} {r : Except SqlError Unit}
    (hcmd : cmd = .commit ∨ cmd = .rollback)
    (hrun : Runs t w (PgSqlTransaction.finish cmd h) cs r w') :
    Along (Prog.step t) (Takes P) (PgSqlTransaction.finish cmd h, w) cs := by
  obtain ⟨rest, rfl, hrest⟩ := runs_takeConn.mp hrun
  refine (along_cons_iff rfl).mpr ⟨trivial, ?_⟩
  cases htaken : (w.takeConn t h).1 with
  | error e =>
      rw [htaken] at hrest
      rw [(runs_ret.mp hrest).1]
      trivial
  | ok c =>
      rw [htaken] at hrest
      obtain ⟨φ, rest, rfl, hrest⟩ := runs_exec.mp hrest
      obtain ⟨rest, rfl, hrest⟩ := runs_release.mp hrest
      rw [(runs_ret.mp hrest).1]
      refine (along_cons_iff rfl).mpr ⟨?_, ?_⟩
      · rcases hcmd with rfl | rfl <;> trivial
      · exact (along_cons_iff rfl).mpr ⟨trivial, trivial⟩

theorem commits_finish {h : ℕ} {cmd : Command} {r : Except SqlError Unit} (hh : Holding h w)
    (hcmd : cmd = .commit ∨ cmd = .rollback)
    (hrun : Runs t w (PgSqlTransaction.finish cmd h) cs r w') :
    Commits t (PgSqlTransaction.finish cmd h) cs w w' [] [] := by
  obtain ⟨hcommitted, hexecuted⟩ := hh.finish_committed hcmd hrun
  exact .nothing hexecuted hcommitted fun _ => along_finish hcmd hrun

/-- The body leaves the transaction of its handle empty. -/
theorem commits_body {h : ℕ} {f : Body A} {r : Except SqlError A} (hh : Holding h w)
    (hrun : Runs t w (f.effect h) cs r w') :
    Holding h w' ∧ ∃ ran kept, Commits t (f.effect h) cs w w' ran kept := by
  induction f generalizing w cs with
  | done r₀ =>
      obtain ⟨rfl, -, rfl⟩ := runs_ret.mp hrun
      exact ⟨hh, [], [], .nothing rfl rfl fun _ => trivial⟩
  | query sql params k ih | execute sql params k ih =>
      obtain ⟨cs₁, cs₂, a, w₁, rfl, h₁, h₂⟩ := runs_bind.mp hrun
      obtain ⟨ran₁, kept₁, hc₁⟩ := commits_onPool h₁
      obtain ⟨hh', ran₂, kept₂, hc₂⟩ := ih a (hh.onPool h₁) h₂
      exact ⟨hh', _, _, hc₁.bind h₁ hc₂⟩
  | commit k ih =>
      obtain ⟨cs₁, cs₂, a, w₁, rfl, h₁, h₂⟩ := runs_bind.mp hrun
      obtain ⟨hh', ran₂, kept₂, hc₂⟩ := ih a (hh.finish h₁) h₂
      exact ⟨hh', _, _, (commits_finish hh (.inl rfl) h₁).bind h₁ hc₂⟩
  | rollback k ih =>
      obtain ⟨cs₁, cs₂, a, w₁, rfl, h₁, h₂⟩ := runs_bind.mp hrun
      obtain ⟨hh', ran₂, kept₂, hc₂⟩ := ih a (hh.finish h₁) h₂
      exact ⟨hh', _, _, (commits_finish hh (.inr rfl) h₁).bind h₁ hc₂⟩

/-! ## The end of the transaction -/

/-- The world answers the COMMIT of the handle with success. -/
def CommitGoesThrough (cs : List Choice) : Prop :=
  ∃ reply, cs = [.go, .fate (.ok reply), .go]

theorem finish_isOk {h : ℕ} {cmd : Command} {r : Except SqlError Unit}
    (hrun : Runs t w (PgSqlTransaction.finish cmd h) cs r w') :
    r.isOk ↔ (w.handles h).finished = false ∧ CommitGoesThrough cs := by
  rcases runs_finish hrun with
    ⟨hf, ⟨e, rfl⟩, rfl, -⟩ | ⟨hf, ⟨e, rfl⟩, rfl, -⟩ | ⟨hf, c, φ, hc, rfl, rfl, -⟩
  · simp [Except.isOk, Except.toBool, hf]
  · simp [Except.isOk, Except.toBool, CommitGoesThrough]
  · cases φ <;> simp [Except.isOk, Except.toBool, hf, CommitGoesThrough, Fate.reply, Except.map]

/-- What `withTransaction` answers, and that its end commits nothing. -/
theorem runs_conclude {h : ℕ} {rb r : Except SqlError A} (hh : Holding h w)
    (hrun : Runs t w (conclude h rb) cs r w') :
    w'.committed = w.committed ∧ w'.executed = w.executed
      ∧ (r.isOk ↔ rb.isOk ∧ (w.handles h).finished = false ∧ CommitGoesThrough cs) := by
  cases rb with
  | ok value =>
      obtain ⟨cs₁, cs₂, a, w₁, rfl, h₁, h₂⟩ := runs_bind.mp hrun
      obtain ⟨hcommitted, hexecuted⟩ := hh.finish_committed (.inl rfl) h₁
      have hok := finish_isOk h₁
      cases a with
      | ok u =>
          obtain ⟨rfl, rfl, rfl⟩ := runs_ret.mp h₂
          rw [List.append_nil, ← hok]
          exact ⟨hcommitted, hexecuted, by simp [Except.isOk, Except.toBool]⟩
      | error e =>
          obtain ⟨rfl, rfl, rfl⟩ := runs_ret.mp h₂
          rw [List.append_nil, ← hok]
          exact ⟨hcommitted, hexecuted, by simp [Except.isOk, Except.toBool]⟩
  | error e =>
      obtain ⟨cs₁, cs₂, a, w₁, rfl, h₁, h₂⟩ := runs_bind.mp hrun
      obtain ⟨hcommitted, hexecuted⟩ := hh.finish_committed (.inr rfl) h₁
      obtain ⟨-, rfl, rfl⟩ := runs_ret.mp h₂
      exact ⟨hcommitted, hexecuted, by simp [Except.isOk, Except.toBool]⟩

/-! ## All or nothing -/

/-- On success everything that was executed is committed, on failure nothing of it is. -/
def Atomic (w w' : World) (r : Except SqlError A) : Prop :=
  (r.isOk → ∃ new, w'.executed = w.executed ++ new ∧ w'.committed = w.committed ++ new)
    ∧ (¬ r.isOk → w'.committed = w.committed)

/-- The body succeeds with its handle unfinished, and COMMIT goes through. -/
def GoesThrough (h : ℕ) (rb : Except SqlError A) (w : World) (cs : List Choice) : Prop :=
  rb.isOk ∧ (w.handles h).finished = false ∧ CommitGoesThrough cs

/-- If the body comes to run: when all goes through its statements take effect outside transactions
    only, and otherwise inside transactions only. -/
def Covered (t : ℕ) (w : World) (f : Body A) (cs : List Choice) : Prop :=
  ∀ cs₁ cs₂ cs₃ h w₁ rb w₂, cs = cs₁ ++ (cs₂ ++ cs₃) →
    Runs t w PgSqlClient.begin_ cs₁ (.ok h) w₁ → Runs t w₁ (f.effect h) cs₂ rb w₂ →
    (GoesThrough h rb w₂ cs₃ → Along (Prog.step t) Outside (f.effect h, w₁) cs₂)
      ∧ (¬ GoesThrough h rb w₂ cs₃ → Along (Prog.step t) Inside (f.effect h, w₁) cs₂)

/-- The three parts of a run that got past BEGIN. -/
theorem atomic_iff_of_parts {f : Body A} {cs₂ cs₃ : List Choice} {h : ℕ} {w₁ w₂ : World}
    {rb r : Except SqlError A} (hh : Holding h w₁) (hw₁ : w₁.committed = w.committed)
    (hx₁ : w₁.executed = w.executed) (hbody : Runs t w₁ (f.effect h) cs₂ rb w₂)
    (hend : Runs t w₂ (conclude h rb) cs₃ r w') :
    Atomic w w' r ↔ (GoesThrough h rb w₂ cs₃ → Along (Prog.step t) Outside (f.effect h, w₁) cs₂)
      ∧ (¬ GoesThrough h rb w₂ cs₃ → Along (Prog.step t) Inside (f.effect h, w₁) cs₂) := by
  obtain ⟨hh₂, ran, kept, hkept⟩ := commits_body hh hbody
  obtain ⟨hcommitted, hexecuted, hok⟩ := runs_conclude hh₂ hend
  rw [Atomic, hok, hcommitted, hexecuted, hkept.committed, hkept.executed, hw₁, hx₁,
    ← hkept.inside, ← hkept.outside, List.append_right_eq_self]
  refine and_congr (imp_congr_right fun _ => ?_) Iff.rfl
  constructor
  · rintro ⟨new, hran, hnew⟩
    exact (List.append_cancel_left hnew).trans (List.append_cancel_left hran).symm
  · rintro rfl
    exact ⟨kept, rfl, rfl⟩

/-- A run to the end has no other end on the way. -/
theorem runs_unique {p : Prog A} {a b : A} {w₁ w₂ : World} {cs₁ cs₂ rest₁ rest₂ : List Choice}
    (h₁ : Runs t w p cs₁ a w₁) (h₂ : Runs t w p cs₂ b w₂)
    (heq : cs₁ ++ rest₁ = cs₂ ++ rest₂) : rest₁ = rest₂ ∧ a = b ∧ w₁ = w₂ := by
  induction cs₁ generalizing p w cs₂ with
  | nil =>
      obtain ⟨rfl, rfl⟩ := Prod.mk.inj (Option.some.inj h₁)
      obtain ⟨rfl, hab, hw⟩ := runs_ret.mp h₂
      exact ⟨heq, hab, hw⟩
  | cons x cs₁ ih =>
      obtain ⟨m, hm, hrest⟩ := run_cons_eq_some.mp h₁
      cases cs₂ with
      | nil =>
          obtain ⟨rfl, rfl⟩ := Prod.mk.inj (Option.some.inj h₂)
          cases x <;> cases hm
      | cons y cs₂ =>
          obtain ⟨rfl, htail⟩ := List.cons.inj heq
          obtain ⟨m', hm', hrest'⟩ := run_cons_eq_some.mp h₂
          obtain rfl := Option.some.inj (hm.symm.trans hm')
          exact ih hrest hrest' htail

/-- **`with_transaction` is all-or-nothing exactly when its transaction did not matter**: BEGIN
    fails, or the body succeeds, COMMIT goes through, and each statement that took effect had been
    committed at once, or there is an error, and none had. -/
theorem withTransaction_atomic_iff (t : ℕ) (w : World) (f : Body A) (p : Effect A)
    (hp : p = withTransaction f ∨ p = transactionScope f) (cs : List Choice)
    (hw : StartsEmpty w cs) (r : Except SqlError A) (w' : World) (hrun : Runs t w p cs r w') :
    Atomic w w' r ↔ Covered t w f cs := by
  obtain rfl : p = withTransaction f := hp.elim id id
  obtain ⟨cs₁, rest, a, w₁, rfl, hbegin, hrest⟩ := runs_bind.mp hrun
  cases a with
  | error e =>
      -- no body comes to run, and there is no other way to split these choices
      obtain ⟨rfl, rfl, rfl⟩ := runs_ret.mp hrest
      have hatomic : Atomic w w₁ (.error e : Except SqlError A) :=
        ⟨fun hok => (by cases hok), fun _ => runs_begin_error hbegin⟩
      refine ⟨fun _ => ?_, fun _ => hatomic⟩
      intro cs₁' cs₂ cs₃ h w₁' rb w₂ heq hbegin' _
      cases (runs_unique hbegin hbegin' heq).2.1
  | ok h =>
      obtain ⟨cs₂, cs₃, rb, w₂, rfl, hbody, hend⟩ := runs_bind.mp hrest
      have hfirst : StartsEmpty w cs₁ := fun c hc => hw c (by rw [List.head?_append, hc]; rfl)
      obtain ⟨hholding, hcommitted, hexecuted⟩ := Holding.begin hfirst hbegin
      -- the parts of the run that `Covered` speaks of are these
      rw [atomic_iff_of_parts hholding hcommitted hexecuted hbody hend]
      constructor
      · intro hcase cs₁' cs₂' cs₃' h' w₁' rb' w₂' heq hbegin' hbody'
        obtain ⟨heq, hh, rfl⟩ := runs_unique hbegin hbegin' heq
        obtain rfl := Except.ok.inj hh
        obtain ⟨rfl, rfl, rfl⟩ := runs_unique hbody hbody' heq
        obtain rfl := List.append_cancel_right heq
        exact hcase
      · exact fun hcovered => hcovered cs₁ cs₂ cs₃ h w₁ rb w₂ rfl hbegin hbody

/-- One statement, then the given end. -/
def insertThen (r : Except SqlError Unit) : Body Unit :=
  .execute "INSERT" [] fun _ => .done r

/-- Every command succeeds: BEGIN on the connection 0, the statement on the connection 1, and the
    end of the transaction. -/
def insertRun : List Choice :=
  [.acquired 0, .fate (.ok ⟨[], 0⟩), .go, .acquired 1, .fate (.ok ⟨[], 1⟩), .go, .go,
    .fate (.ok ⟨[], 0⟩), .go]

/-- A body that succeeds. -/
theorem withTransaction_atomic_iff_insert :
    ∃ w', Runs 0 .init (withTransaction (insertThen (.ok ()))) insertRun (.ok ()) w'
      ∧ Atomic .init w' (.ok () : Except SqlError Unit) := by
  refine ⟨_, rfl, (withTransaction_atomic_iff 0 .init (insertThen (.ok ())) _ (.inl rfl)
    insertRun (fun _ _ _ => rfl) _ _ rfl).mpr ?_⟩
  intro cs₁ cs₂ cs₃ h w₁ rb w₂ heq hbegin hbody
  have hbegin' : Runs 0 .init PgSqlClient.begin_ (insertRun.take 3) (.ok 0)
      (((World.init.hold 0 0).perform 0 .begin_).newHandle 0) := rfl
  obtain ⟨heq, hh, rfl⟩ := runs_unique hbegin hbegin' heq.symm
  obtain rfl := Except.ok.inj hh
  have hbody' : Runs 0 (((World.init.hold 0 0).perform 0 .begin_).newHandle 0)
    ((insertThen (.ok ())).effect 0) ((insertRun.drop 3).take 3) (.ok ()) _ := rfl
  obtain ⟨rfl, rfl, rfl⟩ := runs_unique hbody hbody' heq
  obtain rfl : cs₂ = (insertRun.drop 3).take 3 := List.append_cancel_right heq
  refine ⟨fun _ => ?_, fun hnot => absurd ⟨rfl, rfl, ⟨[], 0⟩, rfl⟩ hnot⟩
  exact along_cons rfl trivial (along_cons rfl (fun _ => rfl) (along_cons rfl trivial trivial))

/-- A body that fails after its statement: the transaction is rolled back, and the statement stays
    committed. -/
theorem withTransaction_failed_insert :
    ∃ w', Runs 0 .init (withTransaction (insertThen (.error (.unsupported "nope")))) insertRun
        (.error (.unsupported "nope")) w'
      ∧ ¬ Atomic .init w' (.error (.unsupported "nope") : Except SqlError Unit) := by
  refine ⟨_, rfl, fun h => ?_⟩
  have hnone := h.2 (by decide)
  exact absurd (congrArg List.length hnone) (by decide)

end IdEffect.Sql
