import IdEffect.Lib.Transition
import IdEffect.Sql.Server

set_option autoImplicit false

/-! # The PostgreSQL client

The effects of `PgSqlClient`, `PgSqlTransaction` and `with_transaction` as programs over the world
of `Sql.Server`. A program is a tree of the operations it awaits (`acquire`, `exec`) and of those it
makes between two awaits: dropping a connection, `PgSqlTransaction::new`, `take_conn`. What the
world answers is a `Choice`; `Prog.step` takes one step, and a call that has been dropped simply
takes no more of them.

`Body` is the syntax of what a caller can write with a client and the handle it is given. -/

namespace IdEffect.Sql

open Transition

/-! ## Programs -/

inductive Prog (A : Type) where
  | ret (a : A)
  | acquire (k : Except SqlError ℕ → Prog A)
  | exec (c : ℕ) (cmd : Command) (k : Except SqlError Reply → Prog A)
  | release (c : ℕ) (k : Prog A)
  | newHandle (c : ℕ) (k : ℕ → Prog A)
  | takeConn (h : ℕ) (k : Except SqlError ℕ → Prog A)

/-- An `Effect<A, SqlError, ()>`. -/
abbrev Effect (A : Type) : Type := Prog (Except SqlError A)

namespace Prog

variable {A B : Type}

def bind : Prog A → (A → Prog B) → Prog B
  | ret a, f => f a
  | acquire k, f => acquire fun r => (k r).bind f
  | exec c cmd k, f => exec c cmd fun r => (k r).bind f
  | release c k, f => release c (k.bind f)
  | newHandle c k, f => newHandle c fun h => (k h).bind f
  | takeConn h k, f => takeConn h fun r => (k r).bind f

/-- What the world answers to an operation; `go` where there is nothing to choose. -/
inductive Choice where
  | acquired (c : ℕ)
  | refused (e : SqlError)
  | fate (φ : Fate)
  | go
  deriving DecidableEq

/-- One step of the call `t`. -/
def step (t : ℕ) : Prog A × World → Choice → Option (Prog A × World)
  | (acquire k, w), .acquired c =>
      if w.available c then some (k (.ok c), w.hold t c) else none
  | (acquire k, w), .refused e => some (k (.error e), w)
  | (exec c cmd k, w), .fate φ => some (k φ.reply, w.exec c cmd φ)
  | (release c k, w), .go => some (k, w.release c)
  | (newHandle c k, w), .go => some (k w.nextHandle, w.newHandle c)
  | (takeConn h k, w), .go => some (k (w.takeConn t h).1, (w.takeConn t h).2)
  | _, _ => none

/-- A connection is acquired if the pool has it. -/
theorem step_acquired {t c : ℕ} {k : Except SqlError ℕ → Prog A} {w : World}
    {s : Prog A × World} (h : step t (acquire k, w) (.acquired c) = some s) :
    w.available c ∧ s = (k (.ok c), w.hold t c) := by
  rw [step] at h
  split_ifs at h with hav
  exact ⟨hav, (Option.some.inj h).symm⟩

end Prog

/-- `?` on the error of an effect. -/
def Effect.andThen {A B : Type} (p : Effect A) (f : A → Effect B) : Effect B :=
  p.bind fun
    | .ok a => f a
    | .error e => .ret (.error e)

/-! ## The client -/

namespace PgSqlClient

/-- A statement on the pool: any connection is acquired, and dropped once the reply is there. -/
def onPool {A : Type} (s : Statement) (get : Reply → A) : Effect A :=
  .acquire fun
    | .error e => .ret (.error e)
    | .ok c => .exec c (.run s) fun r => .release c (.ret (r.map get))

def query (sql : String) (params : List SqlParam) : Effect (List SqlRow) :=
  onPool ⟨sql, params⟩ Reply.rows

def execute (sql : String) (params : List SqlParam) : Effect ℕ :=
  onPool ⟨sql, params⟩ Reply.affected

def connect : Effect Unit :=
  onPool ⟨"SELECT 1", []⟩ fun _ => ()

/-- BEGIN as plain SQL; the connection moves into the handle. -/
def begin_ : Effect ℕ :=
  .acquire fun
    | .error e => .ret (.error e)
    | .ok c => .exec c .begin_ fun
        | .error e => .release c (.ret (.error e))
        | .ok _ => .newHandle c fun h => .ret (.ok h)

end PgSqlClient

namespace PgSqlTransaction

/-- `commit` and `rollback` differ in the SQL they send. The connection is dropped either way. -/
def finish (cmd : Command) (h : ℕ) : Effect Unit :=
  .takeConn h fun
    | .error e => .ret (.error e)
    | .ok c => .exec c cmd fun r => .release c (.ret (r.map fun _ => ()))

def commit (h : ℕ) : Effect Unit := finish .commit h

def rollback (h : ℕ) : Effect Unit := finish .rollback h

end PgSqlTransaction

/-! ## Transactions -/

/-- A finite program over the client and the handle, which may look at every reply. -/
inductive Body (A : Type) where
  | done (r : Except SqlError A)
  | query (sql : String) (params : List SqlParam) (k : Except SqlError (List SqlRow) → Body A)
  | execute (sql : String) (params : List SqlParam) (k : Except SqlError ℕ → Body A)
  | commit (k : Except SqlError Unit → Body A)
  | rollback (k : Except SqlError Unit → Body A)

/-- The effect of a body that is given the handle `tx`. -/
def Body.effect {A : Type} (tx : ℕ) : Body A → Effect A
  | .done r => .ret r
  | .query sql params k => (PgSqlClient.query sql params).bind fun r => (k r).effect tx
  | .execute sql params k => (PgSqlClient.execute sql params).bind fun r => (k r).effect tx
  | .commit k => (PgSqlTransaction.commit tx).bind fun r => (k r).effect tx
  | .rollback k => (PgSqlTransaction.rollback tx).bind fun r => (k r).effect tx

/-- What `with_transaction` does once the body has ended: the error of the rollback is ignored. -/
def conclude {A : Type} (tx : ℕ) : Except SqlError A → Effect A
  | .ok value => (PgSqlTransaction.commit tx).andThen fun _ => .ret (.ok value)
  | .error e => (PgSqlTransaction.rollback tx).bind fun _ => .ret (.error e)

def withTransaction {A : Type} (f : Body A) : Effect A :=
  PgSqlClient.begin_.andThen fun tx => (f.effect tx).bind (conclude tx)

def transactionScope {A : Type} (f : Body A) : Effect A := withTransaction f

/-! ## Runs of one call -/

/-- The call `t` runs the program to its end. -/
def Runs {A : Type} (t : ℕ) (w : World) (p : Prog A) (cs : List Prog.Choice) (a : A) (w' : World) :
    Prop :=
  run (Prog.step t) (p, w) cs = some (.ret a, w')

end IdEffect.Sql
