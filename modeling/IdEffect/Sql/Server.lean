import Mathlib.Data.List.Basic
import Mathlib.Logic.Function.Basic

set_option autoImplicit false

/-! # Connections, sessions and the pool

What the client code relies on of sqlx and PostgreSQL. Every connection has a session of its own: it
is either in autocommit mode, where a statement is committed at once, or inside an open transaction,
which collects statements until COMMIT or ROLLBACK. A connection is in the pool, held by a running
call, or kept in a transaction handle. A connection that is dropped goes back to the pool with its
session as it is; the pool knows nothing of a BEGIN that was sent as plain SQL.

A statement sent to the server may succeed, be refused without effect, take effect with its reply
lost, or fail and end the open transaction; `Fate` says which. `executed` keeps the books of the
statements that took effect. -/

namespace IdEffect.Sql

/-! ## Statements -/

inductive SqlError where
  | notConnected
  | queryFailed (sql message : String)
  | transactionFailed (message : String)
  | decode (message : String)
  | unsupported (message : String)
  deriving DecidableEq, Repr

inductive SqlParam where
  | null
  | bool (b : Bool)
  | int (n : Int64)
  | text (s : String)
  | bytes (b : List UInt8)
  deriving DecidableEq

structure SqlRow where
  cells : List String
  deriving DecidableEq, Repr

/-- A statement with its parameters; transaction control is not among them. -/
structure Statement where
  sql : String
  params : List SqlParam
  deriving DecidableEq

/-- What is sent on a connection. -/
inductive Command where
  | begin_
  | commit
  | rollback
  | run (s : Statement)
  deriving DecidableEq

/-- The reply to a command: the rows it found and how many it affected. -/
structure Reply where
  rows : List SqlRow
  affected : ℕ
  deriving DecidableEq

/-- What becomes of a command: an `aborted` one fails and ends the transaction with nothing done. -/
inductive Fate where
  | ok (reply : Reply)
  | refused (e : SqlError)
  | lost (e : SqlError)
  | aborted (e : SqlError)
  deriving DecidableEq

def Fate.reply : Fate → Except SqlError Reply
  | .ok reply => .ok reply
  | .refused e => .error e
  | .lost e => .error e
  | .aborted e => .error e

def Fate.takesEffect : Fate → Bool
  | .ok _ => true
  | .lost _ => true
  | .refused _ => false
  | .aborted _ => false

/-! ## Sessions -/

inductive Session where
  | idle
  | open_ (pending : List Statement)
  deriving DecidableEq

/-- The session once the command took effect; BEGIN inside a transaction is only a warning. -/
def Session.after : Command → Session → Session
  | .begin_, .idle => .open_ []
  | .begin_, s => s
  | .commit, _ => .idle
  | .rollback, _ => .idle
  | .run _, .idle => .idle
  | .run s, .open_ pending => .open_ (pending ++ [s])

/-- The statements that the command makes durable. -/
def Session.commits : Command → Session → List Statement
  | .commit, .open_ pending => pending
  | .run s, .idle => [s]
  | _, _ => []

theorem Session.commits_begin (session : Session) : session.commits .begin_ = [] := by
  cases session <;> rfl

/-- With nothing to commit, BEGIN opens an empty transaction or finds one. -/
theorem Session.after_begin {session : Session} (h : session.commits .commit = []) :
    session.after .begin_ = .open_ [] := by
  cases session with
  | idle => rfl
  | open_ pending => exact congrArg Session.open_ h

/-- A statement is committed at once outside a transaction only. -/
theorem Session.commits_run (session : Session) (s : Statement) :
    session.commits (.run s) = [s] ∧ session = .idle
      ∨ session.commits (.run s) = [] ∧ session ≠ .idle := by
  cases session with
  | idle => exact .inl ⟨rfl, rfl⟩
  | open_ pending => exact .inr ⟨rfl, Session.noConfusion⟩

def Command.statements : Command → List Statement
  | .run s => [s]
  | _ => []

/-! ## The world the client runs in -/

/-- Where a connection is. One that was never opened is `closed`. -/
inductive Place where
  | closed
  | pooled
  | held (t : ℕ)
  | inHandle (h : ℕ)
  deriving DecidableEq, Repr

/-- The two mutexes of a `PgSqlTransaction`. -/
structure Handle where
  conn : Option ℕ
  finished : Bool
  deriving DecidableEq, Repr

/-- Connections and handles are numbered. -/
structure World where
  sessions : ℕ → Session
  place : ℕ → Place
  handles : ℕ → Handle
  nextHandle : ℕ
  committed : List Statement
  executed : List Statement

namespace World

/-- Nothing opened, nothing done. -/
def init : World where
  sessions _ := .idle
  place _ := .closed
  handles _ := ⟨none, false⟩
  nextHandle := 0
  committed := []
  executed := []

/-- The pool hands out a connection that is in it, or opens a new one. -/
def available (w : World) (c : ℕ) : Bool :=
  decide (w.place c = .pooled ∨ w.place c = .closed)

/-- A new connection starts with a fresh session. -/
def hold (w : World) (t c : ℕ) : World :=
  { w with
    sessions :=
      if w.place c = .closed then Function.update w.sessions c .idle else w.sessions
    place := Function.update w.place c (.held t) }

/-- Drop a `PoolConnection`: it goes back to the pool as it is. -/
def release (w : World) (c : ℕ) : World :=
  { w with place := Function.update w.place c .pooled }

/-- The command takes effect. -/
def perform (w : World) (c : ℕ) (cmd : Command) : World :=
  { w with
    sessions := Function.update w.sessions c ((w.sessions c).after cmd)
    committed := w.committed ++ (w.sessions c).commits cmd
    executed := w.executed ++ cmd.statements }

def exec (w : World) (c : ℕ) (cmd : Command) : Fate → World
  | .ok _ => w.perform c cmd
  | .lost _ => w.perform c cmd
  | .refused _ => w
  | .aborted _ => { w with sessions := Function.update w.sessions c .idle }

/-- `PgSqlTransaction::new`: the connection moves into a new handle. -/
def newHandle (w : World) (c : ℕ) : World :=
  { w with
    handles := Function.update w.handles w.nextHandle ⟨some c, false⟩
    place := Function.update w.place c (.inHandle w.nextHandle)
    nextHandle := w.nextHandle + 1 }

/-- `take_conn`: the handle is marked finished before its connection is looked at. -/
def takeConn (w : World) (t h : ℕ) : Except SqlError ℕ × World :=
  if (w.handles h).finished then
    (.error (.transactionFailed "transaction already finished"), w)
  else
    match (w.handles h).conn with
    | none =>
        (.error (.transactionFailed "connection already released"),
          { w with handles := Function.update w.handles h ⟨none, true⟩ })
    | some c =>
        (.ok c,
          { w with
            handles := Function.update w.handles h ⟨none, true⟩
            place := Function.update w.place c (.held t) })

theorem takeConn_finished {w : World} {t h : ℕ} (hf : (w.handles h).finished = true) :
    w.takeConn t h = (.error (.transactionFailed "transaction already finished"), w) := by
  unfold takeConn
  exact if_pos hf

theorem takeConn_none {w : World} {t h : ℕ} (hf : (w.handles h).finished = false)
    (hc : (w.handles h).conn = none) :
    w.takeConn t h = (.error (.transactionFailed "connection already released"),
      { w with handles := Function.update w.handles h ⟨none, true⟩ }) := by
  simp [takeConn, hf, hc]

theorem takeConn_some {w : World} {t h c : ℕ} (hf : (w.handles h).finished = false)
    (hc : (w.handles h).conn = some c) :
    w.takeConn t h = (.ok c,
      { w with
        handles := Function.update w.handles h ⟨none, true⟩
        place := Function.update w.place c (.held t) }) := by
  simp [takeConn, hf, hc]

/-- The last reference to a handle is dropped, and with it a connection that is still inside. -/
def dropHandle (w : World) (h : ℕ) : World :=
  match (w.handles h).conn with
  | none => w
  | some c =>
      { w with
        handles := Function.update w.handles h ⟨none, (w.handles h).finished⟩
        place := Function.update w.place c .pooled }

theorem dropHandle_some {w : World} {h c : ℕ} (hc : (w.handles h).conn = some c) :
    w.dropHandle h = { w with
      handles := Function.update w.handles h ⟨none, (w.handles h).finished⟩
      place := Function.update w.place c .pooled } := by
  simp [dropHandle, hc]

/-- The connections that are dropped with the call `t`: those it holds, and those in the handles
    that it owns. -/
def ownedBy (w : World) (owner : ℕ → Option ℕ) (t c : ℕ) : Bool :=
  match w.place c with
  | .held u => u == t
  | .inHandle h => owner h == some t
  | .closed | .pooled => false

/-- A call is dropped. -/
def abandon (w : World) (owner : ℕ → Option ℕ) (t : ℕ) : World :=
  { w with
    handles := fun h => if owner h = some t then ⟨none, (w.handles h).finished⟩ else w.handles h
    place := fun c => if w.ownedBy owner t c then .pooled else w.place c }

/-! ## Fields -/

section Fields

variable (w : World) (t c h : ℕ) (cmd : Command) (φ : Fate)

@[simp] theorem hold_place : (w.hold t c).place = Function.update w.place c (.held t) := rfl
@[simp] theorem hold_handles : (w.hold t c).handles = w.handles := rfl
@[simp] theorem hold_nextHandle : (w.hold t c).nextHandle = w.nextHandle := rfl
@[simp] theorem hold_committed : (w.hold t c).committed = w.committed := rfl
@[simp] theorem hold_executed : (w.hold t c).executed = w.executed := rfl

@[simp] theorem release_sessions : (w.release c).sessions = w.sessions := rfl
@[simp] theorem release_place : (w.release c).place = Function.update w.place c .pooled := rfl
@[simp] theorem release_handles : (w.release c).handles = w.handles := rfl
@[simp] theorem release_committed : (w.release c).committed = w.committed := rfl
@[simp] theorem release_executed : (w.release c).executed = w.executed := rfl

@[simp] theorem perform_sessions : (w.perform c cmd).sessions
    = Function.update w.sessions c ((w.sessions c).after cmd) := rfl
@[simp] theorem perform_place : (w.perform c cmd).place = w.place := rfl
@[simp] theorem perform_handles : (w.perform c cmd).handles = w.handles := rfl
@[simp] theorem perform_nextHandle : (w.perform c cmd).nextHandle = w.nextHandle := rfl
@[simp] theorem perform_committed : (w.perform c cmd).committed
    = w.committed ++ (w.sessions c).commits cmd := rfl
@[simp] theorem perform_executed : (w.perform c cmd).executed
    = w.executed ++ cmd.statements := rfl

@[simp] theorem newHandle_sessions : (w.newHandle c).sessions = w.sessions := rfl
@[simp] theorem newHandle_place : (w.newHandle c).place
    = Function.update w.place c (.inHandle w.nextHandle) := rfl
@[simp] theorem newHandle_handles : (w.newHandle c).handles
    = Function.update w.handles w.nextHandle ⟨some c, false⟩ := rfl

@[simp] theorem exec_place : (w.exec c cmd φ).place = w.place := by cases φ <;> rfl
@[simp] theorem exec_handles : (w.exec c cmd φ).handles = w.handles := by cases φ <;> rfl
@[simp] theorem exec_nextHandle : (w.exec c cmd φ).nextHandle = w.nextHandle := by cases φ <;> rfl

@[simp] theorem abandon_handles (owner : ℕ → Option ℕ) : (w.abandon owner t).handles h
    = if owner h = some t then ⟨none, (w.handles h).finished⟩ else w.handles h := rfl

end Fields

variable {w : World} {t c c' : ℕ}

/-- Opening or acquiring a connection leaves the other sessions alone. -/
theorem hold_sessions_of_ne (h : c' ≠ c) : (w.hold t c).sessions c' = w.sessions c' := by
  unfold hold
  split_ifs
  · exact Function.update_of_ne h ..
  · rfl

/-- So does a command sent on it. -/
theorem exec_sessions_of_ne (h : c' ≠ c) (cmd : Command) (φ : Fate) :
    (w.exec c cmd φ).sessions c' = w.sessions c' := by
  cases φ with
  | refused e => rfl
  | _ => exact Function.update_of_ne h ..

/-- A statement outside a transaction leaves the connection there. -/
theorem exec_run_idle (h : w.sessions c = .idle) (s : Statement) (φ : Fate) :
    (w.exec c (.run s) φ).sessions c = .idle := by
  cases φ with
  | refused e => exact h
  | aborted e => exact Function.update_self ..
  | ok reply | lost e =>
      rw [exec, perform_sessions, Function.update_self, h]
      rfl

/-- A statement that has no effect. -/
theorem exec_run_ineffective (w : World) (c : ℕ) {φ : Fate} (hφ : φ.takesEffect = false)
    (s : Statement) :
    (w.exec c (.run s) φ).executed = w.executed
      ∧ (w.exec c (.run s) φ).committed = w.committed := by
  cases φ with
  | refused e | aborted e => exact ⟨rfl, rfl⟩
  | ok reply | lost e => cases hφ

/-- **Autocommit**: a statement that takes effect is committed at once, unless it is inside a
    transaction. -/
theorem exec_run_effective (w : World) (c : ℕ) {φ : Fate} (hφ : φ.takesEffect = true)
    (s : Statement) :
    (w.exec c (.run s) φ).executed = w.executed ++ [s]
      ∧ (w.exec c (.run s) φ).committed = w.committed ++ (w.sessions c).commits (.run s) := by
  cases φ with
  | ok reply | lost e => exact ⟨rfl, rfl⟩
  | refused e | aborted e => cases hφ

/-- Finishing an empty transaction commits nothing. -/
theorem exec_of_empty {cmd : Command} (hcmd : cmd = .commit ∨ cmd = .rollback)
    (h : w.sessions c = .open_ []) (φ : Fate) :
    (w.exec c cmd φ).committed = w.committed ∧ (w.exec c cmd φ).executed = w.executed := by
  cases φ with
  | refused e => exact ⟨rfl, rfl⟩
  | aborted e => exact ⟨rfl, rfl⟩
  | _ =>
      rw [exec, perform_committed, perform_executed, h]
      rcases hcmd with rfl | rfl <;> exact ⟨List.append_nil _, List.append_nil _⟩

/-- No connection in the pool is inside a transaction. -/
def Clean (w : World) : Prop :=
  ∀ c, w.place c = .pooled → w.sessions c = .idle

/-- A connection that is acquired was in the pool, or has a fresh session. -/
theorem hold_session {P : Session → Prop} (hfresh : P .idle)
    (hpooled : w.place c = .pooled → P (w.sessions c)) (hc : w.available c) :
    P ((w.hold t c).sessions c) := by
  rw [available, decide_eq_true_eq] at hc
  rcases hc with hc | hc
  · have hne : w.place c ≠ .closed := by rw [hc]; exact Place.noConfusion
    rw [hold, if_neg hne]
    exact hpooled hc
  · rw [hold, if_pos hc]
    simpa only [Function.update_self] using hfresh

theorem Clean.hold_session (hw : w.Clean) (hc : w.available c) :
    (w.hold t c).sessions c = .idle :=
  World.hold_session (P := (· = .idle)) rfl (hw c) hc

end World

end IdEffect.Sql
