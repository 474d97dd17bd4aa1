import Mathlib.Logic.Function.Basic
import IdEffect.Kernel.ParBind
import IdEffect.Lib.Phases
import IdEffect.ProcMacro.Expand
import IdEffect.ProcMacro.Planned

set_option autoImplicit false

/-! # What becomes of a sequence of binds

A bind evaluates its operand and binds the effect that comes of it; the operand may leave the body
early, with `?` or a `~` of its own. The code for a set evaluates all of its operands and then joins
the effects. It is rejected if the set binds a name twice, or if the effects are not all of the
environment of the body and of one type of error. Otherwise it does what the binds do one by one,
unless an effect of the set fails and a later operand of the set leaves early
(`expanded_eq_iff`). `IsBind.expandTilde` ties the statements to the expansion: it says what
`expandTilde` makes of one that is a bind, and nothing builds on it. -/

namespace IdEffect.ProcMacro

open Kernel

variable {Key : Type} [DecidableEq Key] {Val : Key → Type} {Err A E : Type} {t : EnvTy Key}

/-! ## Operands -/

/-- The values of the variables. -/
abbrev Store (A : Type) : Type := String → Option A

def Store.set (store : Store A) (var : Ident) (x : A) : Store A :=
  if var.name = "_" then store else Function.update store var.name (some x)

def Store.setAll (store : Store A) : List (Ident × A) → Store A
  | [] => store
  | (var, x) :: l => (store.set var x).setAll l

/-- The type of an operand, and its evaluation; it reads the environment, and may leave early. -/
structure Operand (Val : Key → Type) (Err A E : Type) (t : EnvTy Key) where
  ty : Bindable Err t
  eval : Store A → t.Value Val → Except (Stop E) (ty.Value Val A E)

/-- The evaluation of an operand that is an effect of the environment of the body. -/
abbrev ArmEval (Val : Key → Type) (A E : Type) (t : EnvTy Key) : Type :=
  Store A → t.Value Val → Except (Stop E) (Effect A E (t.Value Val))

namespace Operand

def ready (o : Operand Val Err A E t) (store : Store A) (r : t.Value Val) :
    Except (Stop E) Unit :=
  (o.eval store r).map fun _ => ()

/-- `cap_into_bind(operand, r).await?` -/
def bind (o : Operand Val Err A E t) (store : Store A) (r : t.Value Val) :
    Except (Stop E) A × t.Value Val :=
  match o.eval store r with
  | .error stop => (.error stop, r)
  | .ok v => Kernel.capIntoBind o.ty v r

/-- What `join_binds` takes, with the type of its error. -/
def arm? (o : Operand Val Err A E t) : Option (Err × ArmEval Val A E t) :=
  match t, o with
  | .unit, ⟨.unit error, eval⟩ => some (error, eval)
  | .caps wide, ⟨.effect narrow error, eval⟩ =>
      if h : narrow = wide then some (error, fun store r => h ▸ eval store r) else none
  | _, ⟨.result _, _⟩ => none

end Operand

/-- What the operands mean: only what they use of the variables matters. -/
structure Meaning (Val : Key → Type) (Err A E : Type) (t : EnvTy Key) where
  operand : TokenStream → Operand Val Err A E t
  congr : ∀ (op : TokenStream) (store store' : Store A),
    (∀ x, usesName x op = true → store x = store' x) →
      (operand op).eval store = (operand op).eval store'

/-! ## Code -/

structure Arm (Val : Key → Type) (A E : Type) (t : EnvTy Key) where
  var : Ident
  eval : ArmEval Val A E t

inductive Code (Val : Key → Type) (Err A E : Type) (t : EnvTy Key) where
  | bind (var : Ident) (o : Operand Val Err A E t)
  | join2 (a b : Arm Val A E t)
  | join3 (a b c : Arm Val A E t)
  | join4 (a b c d : Arm Val A E t)

/-- A statement: `let` with the value of a bind, or with those of a set. -/
def Code.run (store : Store A) (r : t.Value Val) :
    Code Val Err A E t → Except (Stop E) (Store A) × t.Value Val
  | .bind var o => ((o.bind store r).1.map fun x => store.set var x, (o.bind store r).2)
  | .join2 a b => (do
      let e0 ← a.eval store r
      let e1 ← b.eval store r
      let (x, y) ← ((joinBinds2 e0 e1 r).mapError flattenOr).mapError .error
      return store.setAll [(a.var, x), (b.var, y)], r)
  | .join3 a b c => (do
      let e0 ← a.eval store r
      let e1 ← b.eval store r
      let e2 ← c.eval store r
      let (x, y, z) ← (joinBinds3 e0 e1 e2 r).mapError .error
      return store.setAll [(a.var, x), (b.var, y), (c.var, z)], r)
  | .join4 a b c d => (do
      let e0 ← a.eval store r
      let e1 ← b.eval store r
      let e2 ← c.eval store r
      let e3 ← d.eval store r
      let (x, y, z, w) ← (joinBinds4 e0 e1 e2 e3 r).mapError .error
      return store.setAll [(a.var, x), (b.var, y), (c.var, z), (d.var, w)], r)

def runAll (store : Store A) (r : t.Value Val) :
    List (Code Val Err A E t) → Except (Stop E) (Store A) × t.Value Val
  | [] => (.ok store, r)
  | c :: cs =>
      match c.run store r with
      | (.error stop, r) => (.error stop, r)
      | (.ok store, r) => runAll store r cs

def Code.join : List (Arm Val A E t) → Option (Code Val Err A E t)
  | [a, b] => some (.join2 a b)
  | [a, b, c] => some (.join3 a b c)
  | [a, b, c, d] => some (.join4 a b c d)
  | _ => none

/-- No name is bound twice. -/
def patternOk (vars : List Ident) : Prop := ((vars.map Ident.name).filter (· != "_")).Nodup

instance (vars : List Ident) : Decidable (patternOk vars) :=
  inferInstanceAs (Decidable (List.Nodup _))

namespace Meaning

variable (m : Meaning Val Err A E t) (typePath : TokenStream → Bool)

/-- The arms of a set, if `join_binds` takes them. -/
def arms? (steps : List BindStep) : Option (List (Err × Arm Val A E t)) :=
  steps.mapM fun step => (m.operand step.operand).arm?.map fun a => (a.1, ⟨step.var, a.2⟩)

/-- The code for a plan of binds; `none` if it is rejected. -/
def code [DecidableEq Err] : StmtPlan → Option (Code Val Err A E t)
  | .sequential chunk =>
      (parseBindStep typePath (desugarIdentTildeBind chunk)).map fun step =>
        .bind step.var (m.operand step.operand)
  | .parallelSet steps =>
      if patternOk (steps.map BindStep.var) then
        match m.arms? steps with
        | none => none
        | some arms =>
            if ∀ a ∈ arms, ∀ b ∈ arms, a.1 = b.1 then Code.join (arms.map Prod.snd) else none
      else none

/-- What `expand_block` makes of the chunks. -/
def expanded [DecidableEq Err] (chunks : List TokenStream) (store : Store A) (r : t.Value Val) :
    Option (Except (Stop E) (Store A) × t.Value Val) :=
  ((planStatementChunks typePath chunks).mapM (m.code typePath)).map (runAll store r)

/-- One bind after the other. -/
def inSequence (steps : List BindStep) (store : Store A) (r : t.Value Val) :
    Except (Stop E) (Store A) × t.Value Val :=
  runAll store r (steps.map fun step => .bind step.var (m.operand step.operand))

end Meaning

/-! ## What a statement does -/

/-- The result of an effect that is joined with others. -/
def perform {R : Type} (r : R) (e : Effect A E R) : Except (Stop E) A := (e r).1.mapError .error

namespace Operand

theorem bind_env (o : Operand Val Err A E t) (store : Store A) (r : t.Value Val) :
    (o.bind store r).2 = r := by
  rw [Operand.bind]
  cases o.eval store r with
  | error stop => rfl
  | ok v => exact capIntoBind_env _ v r

/-- An operand that is joined does the same as when it is bound. -/
theorem of_arm? {o : Operand Val Err A E t} {a : Err × ArmEval Val A E t} (h : o.arm? = some a)
    (store : Store A) (r : t.Value Val) :
    (a.2 store r).map (fun _ => ()) = o.ready store r
      ∧ (a.2 store r >>= perform r) = (o.bind store r).1 := by
  cases t with
  | unit =>
      obtain ⟨ty, eval⟩ := o
      cases ty with
      | result error => cases h
      | unit error =>
          obtain rfl := Option.some.inj h
          refine ⟨rfl, ?_⟩
          simp only [Operand.bind]
          cases eval store r <;> rfl
  | caps wide =>
      obtain ⟨ty, eval⟩ := o
      cases ty with
      | result error => cases h
      | effect narrow error =>
          rw [arm?] at h
          split at h
          · next heq =>
              subst heq
              obtain rfl := Option.some.inj h
              refine ⟨rfl, ?_⟩
              simp only [Operand.bind]
              cases eval store r with
              | error stop => rfl
              | ok v => exact (congrArg Prod.fst (capIntoBind_wide error v r)).symm
          · cases h

theorem arm?_congr {o : Operand Val Err A E t} {a : Err × ArmEval Val A E t} (h : o.arm? = some a)
    {store store' : Store A} (heval : o.eval store = o.eval store') : a.2 store = a.2 store' := by
  cases t with
  | unit =>
      obtain ⟨ty, eval⟩ := o
      cases ty with
      | result error => cases h
      | unit error =>
          obtain rfl := Option.some.inj h
          exact heval
  | caps wide =>
      obtain ⟨ty, eval⟩ := o
      cases ty with
      | result error => cases h
      | effect narrow error =>
          rw [arm?] at h
          split at h
          · next heq =>
              subst heq
              obtain rfl := Option.some.inj h
              exact heval
          · cases h

end Operand

section Joined

variable {R : Type}

/-- Effects that are joined come to the same as when they are run one by one. -/
theorem joined2 (e0 e1 : Effect A E R) (r : R) :
    (do
      let (x, y) ← ((joinBinds2 e0 e1 r).mapError flattenOr).mapError Stop.error
      return [x, y]) = [e0, e1].mapM (perform r) := by
  rw [Phases.mapM_cons, Phases.mapM_cons, perform, perform, joinBinds2]
  cases (e0 r).1 <;> cases (e1 r).1 <;> rfl

theorem joined3 (e0 e1 e2 : Effect A E R) (r : R) :
    (do
      let (x, y, z) ← (joinBinds3 e0 e1 e2 r).mapError Stop.error
      return [x, y, z]) = [e0, e1, e2].mapM (perform r) := by
  rw [Phases.mapM_cons, Phases.mapM_cons, Phases.mapM_cons, perform, perform, perform, joinBinds3]
  cases (e0 r).1 <;> cases (e1 r).1 <;> cases (e2 r).1 <;> rfl

theorem joined4 (e0 e1 e2 e3 : Effect A E R) (r : R) :
    (do
      let (x, y, z, w) ← (joinBinds4 e0 e1 e2 e3 r).mapError Stop.error
      return [x, y, z, w]) = [e0, e1, e2, e3].mapM (perform r) := by
  rw [Phases.mapM_cons, Phases.mapM_cons, Phases.mapM_cons, Phases.mapM_cons, perform, perform,
    perform, perform, joinBinds4]
  cases (e0 r).1 <;> cases (e1 r).1 <;> cases (e2 r).1 <;> cases (e3 r).1 <;> rfl

end Joined

namespace Code

def vars : Code Val Err A E t → List Ident
  | .bind var _ => [var]
  | .join2 a b => [a.var, b.var]
  | .join3 a b c => [a.var, b.var, c.var]
  | .join4 a b c d => [a.var, b.var, c.var, d.var]

/-- The values that a statement binds. -/
def values (store : Store A) (r : t.Value Val) : Code Val Err A E t → Except (Stop E) (List A)
  | .bind _ o => (o.bind store r).1.map fun x => [x]
  | .join2 a b => Phases.inPhases (fun arm => arm.eval store r) (perform r) [a, b]
  | .join3 a b c => Phases.inPhases (fun arm => arm.eval store r) (perform r) [a, b, c]
  | .join4 a b c d => Phases.inPhases (fun arm => arm.eval store r) (perform r) [a, b, c, d]

/-- A statement binds the values and leaves the environment as it is. -/
theorem run_eq (c : Code Val Err A E t) (store : Store A) (r : t.Value Val) :
    c.run store r = ((c.values store r).map fun xs => store.setAll (c.vars.zip xs), r) := by
  cases c with
  | bind var o =>
      rw [run, values, o.bind_env]
      cases (o.bind store r).1 <;> rfl
  | join2 a b =>
      refine Prod.ext ?_ rfl
      rw [run, values, Phases.inPhases, Phases.mapM_cons, Phases.mapM_cons]
      cases a.eval store r with
      | error stop => rfl
      | ok e0 =>
          cases b.eval store r with
          | error stop => rfl
          | ok e1 =>
              refine Eq.trans ?_ (congrArg (Except.map _) (joined2 e0 e1 r))
              change (((joinBinds2 e0 e1 r).mapError flattenOr).mapError Stop.error
                >>= fun p => pure (store.setAll [(a.var, p.1), (b.var, p.2)])) = _
              cases ((joinBinds2 e0 e1 r).mapError flattenOr).mapError Stop.error <;> rfl
  | join3 a b c =>
      refine Prod.ext ?_ rfl
      rw [run, values, Phases.inPhases, Phases.mapM_cons, Phases.mapM_cons, Phases.mapM_cons]
      cases a.eval store r with
      | error stop => rfl
      | ok e0 =>
          cases b.eval store r with
          | error stop => rfl
          | ok e1 =>
              cases c.eval store r with
              | error stop => rfl
              | ok e2 =>
                  refine Eq.trans ?_ (congrArg (Except.map _) (joined3 e0 e1 e2 r))
                  change ((joinBinds3 e0 e1 e2 r).mapError Stop.error >>= fun p =>
                    pure (store.setAll [(a.var, p.1), (b.var, p.2.1), (c.var, p.2.2)])) = _
                  cases (joinBinds3 e0 e1 e2 r).mapError Stop.error <;> rfl
  | join4 a b c d =>
      refine Prod.ext ?_ rfl
      rw [run, values, Phases.inPhases, Phases.mapM_cons, Phases.mapM_cons, Phases.mapM_cons,
        Phases.mapM_cons]
      cases a.eval store r with
      | error stop => rfl
      | ok e0 =>
          cases b.eval store r with
          | error stop => rfl
          | ok e1 =>
              cases c.eval store r with
              | error stop => rfl
              | ok e2 =>
                  cases d.eval store r with
                  | error stop => rfl
                  | ok e3 =>
                      refine Eq.trans ?_ (congrArg (Except.map _) (joined4 e0 e1 e2 e3 r))
                      change ((joinBinds4 e0 e1 e2 e3 r).mapError Stop.error >>= fun p =>
                        pure (store.setAll [(a.var, p.1), (b.var, p.2.1), (c.var, p.2.2.1),
                          (d.var, p.2.2.2)])) = _
                      cases (joinBinds4 e0 e1 e2 e3 r).mapError Stop.error <;> rfl

theorem length_of_values {c : Code Val Err A E t} {store : Store A} {r : t.Value Val}
    {xs : List A} (h : c.values store r = .ok xs) : xs.length = c.vars.length := by
  cases c with
  | bind var o =>
      rw [values] at h
      cases hb : (o.bind store r).1 with
      | error stop =>
          rw [hb] at h
          cases h
      | ok x =>
          rw [hb] at h
          obtain rfl := Except.ok.inj h
          rfl
  | join2 a b => exact Phases.length_of_inPhases (l := [a, b]) h
  | join3 a b c => exact Phases.length_of_inPhases (l := [a, b, c]) h
  | join4 a b c d => exact Phases.length_of_inPhases (l := [a, b, c, d]) h

/-- A statement does not see the variables of an earlier one. -/
def Blind (r : t.Value Val) (c d : Code Val Err A E t) : Prop :=
  ∀ var ∈ c.vars, ∀ store x, d.values (store.set var x) r = d.values store r

theorem Blind.setAll {r : t.Value Val} {c d : Code Val Err A E t} (h : Blind r c d) :
    ∀ (l : List (Ident × A)) (store : Store A), (∀ p ∈ l, p.1 ∈ c.vars) →
      d.values (store.setAll l) r = d.values store r
  | [], _, _ => rfl
  | (var, x) :: l, store, hl => by
      rw [Store.setAll, setAll h l _ fun p hp => hl p (List.mem_cons_of_mem _ hp)]
      exact h var (hl _ List.mem_cons_self) store x

end Code

theorem Store.setAll_append (store : Store A) (l l' : List (Ident × A)) :
    store.setAll (l ++ l') = (store.setAll l).setAll l' := by
  induction l generalizing store with
  | nil => rfl
  | cons p l ih => exact ih _

/-- What statements that are blind to one another do, they do with the variables as they find them.
-/
theorem runAll_eq {r : t.Value Val} {cs : List (Code Val Err A E t)}
    (h : cs.Pairwise (Code.Blind r)) (store : Store A) :
    runAll store r cs
      = ((cs.mapM (Code.values store r)).map fun xss =>
          store.setAll ((cs.flatMap Code.vars).zip xss.flatten), r) := by
  induction cs generalizing store with
  | nil => rfl
  | cons c cs ih =>
      rw [runAll, c.run_eq, Phases.mapM_cons]
      cases hc : c.values store r with
      | error stop => rfl
      | ok xs =>
          obtain ⟨hblind, htail⟩ := List.pairwise_cons.1 h
          have hsame : cs.mapM (Code.values (store.setAll (c.vars.zip xs)) r)
              = cs.mapM (Code.values store r) :=
            Phases.mapM_forall₂ (List.forall₂_same.2 fun d hd =>
              (hblind d hd).setAll _ store fun p hp => (List.of_mem_zip hp).1)
          show runAll (store.setAll (c.vars.zip xs)) r cs = _
          rw [ih htail, hsame]
          cases cs.mapM (Code.values store r) with
          | error stop => rfl
          | ok xss =>
              refine Prod.ext (congrArg Except.ok ?_) rfl
              show (store.setAll (c.vars.zip xs)).setAll _
                = store.setAll (List.zip _ (xs :: xss).flatten)
              rw [← Store.setAll_append, List.flatMap_cons, List.flatten_cons,
                List.zip_append (Code.length_of_values hc).symm]

/-! ## The condition -/

namespace Meaning

variable (m : Meaning Val Err A E t)

def ready (store : Store A) (r : t.Value Val) (step : BindStep) : Except (Stop E) Unit :=
  (m.operand step.operand).ready store r

/-- `cap_into_bind(operand, r).await?` -/
def whole (store : Store A) (r : t.Value Val) (step : BindStep) : Except (Stop E) A :=
  ((m.operand step.operand).bind store r).1

/-- The code of a set is accepted: no name is bound twice, and all operands are effects of the
    environment of the body, with one type of error. -/
structure Joins (steps : List BindStep) : Prop where
  names : patternOk (steps.map BindStep.var)
  types : ∃ error, ∀ step ∈ steps, (m.operand step.operand).arm?.map Prod.fst = some error

end Meaning

/-- The binds of a piece. -/
def Piece.steps (typePath : TokenStream → Bool) (p : Piece) : List BindStep :=
  p.chunks.filterMap fun chunk => parseBindStep typePath (desugarIdentTildeBind chunk)

/-! ## The code of a piece -/

/-- The code does what the binds do, up to the order in which they fail. -/
structure Emitted (m : Meaning Val Err A E t) (r : t.Value Val) (steps : List BindStep)
    (c : Code Val Err A E t) : Prop where
  vars : c.vars = steps.map BindStep.var
  blind : ∀ var : Ident, (∀ step ∈ steps, var.name ≠ "_" → usesName var.name step.operand = false) →
    ∀ store x, c.values (store.set var x) r = c.values store r
  ok : ∀ store xs, c.values store r = .ok xs ↔ steps.mapM (m.whole store r) = .ok xs
  inOrder : ∀ store, c.values store r = steps.mapM (m.whole store r)
    ↔ Phases.InOrder (m.ready store r) (m.whole store r) steps

section Emitted

variable {m : Meaning Val Err A E t} {typePath : TokenStream → Bool} {r : t.Value Val}

theorem Meaning.eval_set (m : Meaning Val Err A E t) {var : Ident} {op : TokenStream}
    (h : var.name ≠ "_" → usesName var.name op = false) (store : Store A) (x : A) :
    (m.operand op).eval (store.set var x) = (m.operand op).eval store := by
  rw [Store.set]
  split
  · rfl
  · next hvar =>
      refine m.congr op _ _ fun y hy => ?_
      have hne : y ≠ var.name := by
        rintro rfl
        cases (h hvar).symm.trans hy
      exact Function.update_of_ne hne _ _

theorem emitted_bind (step : BindStep) :
    Emitted m r [step] (.bind step.var (m.operand step.operand)) := by
  have hone : ∀ store : Store A, (Code.bind step.var (m.operand step.operand)).values store r
      = [step].mapM (m.whole store r) := by
    intro store
    rw [Phases.mapM_cons]
    show (m.whole store r step).map _ = _
    cases m.whole store r step <;> rfl
  refine ⟨rfl, fun var hvar store x => ?_, fun store xs => by rw [hone],
    fun store => iff_of_true (hone store) fun _ => ⟨fun _ _ => trivial, fun _ _ _ h => by cases h⟩⟩
  have heval := m.eval_set (hvar step List.mem_cons_self) store x
  simp only [Code.values, Operand.bind, heval]

/-- An arm is that of a bind. -/
def ArmOf (m : Meaning Val Err A E t) (step : BindStep) (arm : Err × Arm Val A E t) : Prop :=
  (m.operand step.operand).arm?.map (fun a => (a.1, (⟨step.var, a.2⟩ : Arm Val A E t))) = some arm

theorem ArmOf.exists {step : BindStep} {arm : Err × Arm Val A E t} (h : ArmOf m step arm) :
    ∃ a, (m.operand step.operand).arm? = some a ∧ arm = (a.1, ⟨step.var, a.2⟩) := by
  obtain ⟨a, ha, harm⟩ := Option.map_eq_some_iff.1 h
  exact ⟨a, ha, harm.symm⟩

theorem join_eq {arms : List (Arm Val A E t)} {c : Code Val Err A E t}
    (h : Code.join arms = some c) : c.vars = arms.map Arm.var ∧ ∀ store r,
      c.values store r = Phases.inPhases (fun arm => arm.eval store r) (perform r) arms := by
  match arms, h with
  | [a, b], h | [a, b, _], h | [a, b, _, _], h =>
      obtain rfl := Option.some.inj h
      exact ⟨rfl, fun _ _ => rfl⟩

theorem emitted_join {steps : List BindStep} {arms : List (Err × Arm Val A E t)}
    {c : Code Val Err A E t} (harms : List.Forall₂ (ArmOf m) steps arms)
    (hc : Code.join (arms.map Prod.snd) = some c) : Emitted m r steps c := by
  obtain ⟨hvars, hvalues⟩ := join_eq hc
  let l := arms.map Prod.snd
  have hl : List.Forall₂ (fun arm step => ∃ a, (m.operand step.operand).arm? = some a
      ∧ arm = ⟨step.var, a.2⟩) l steps := by
    refine List.forall₂_map_left_iff.2 (harms.flip.imp fun arm step h => ?_)
    obtain ⟨a, ha, rfl⟩ := ArmOf.exists h
    exact ⟨a, ha, rfl⟩
  have hwhole : ∀ store : Store A, Phases.oneByOne (fun arm => arm.eval store r) (perform r) l
      = steps.mapM (m.whole store r) := by
    refine fun store => Phases.mapM_forall₂ (hl.imp fun arm step h => ?_)
    obtain ⟨a, ha, rfl⟩ := h
    exact (Operand.of_arm? ha store r).2
  refine ⟨?_, fun var hvar store x => ?_, fun store xs => ?_, fun store => ?_⟩
  · have heq : List.Forall₂ Eq (l.map Arm.var) (steps.map BindStep.var) := by
      refine List.forall₂_map_left_iff.2
        (List.forall₂_map_right_iff.2 (hl.imp fun arm step h => ?_))
      obtain ⟨a, ha, rfl⟩ := h
      rfl
    rw [List.forall₂_eq_eq_eq] at heq
    exact hvars.trans heq
  · have hprepare : l.mapM (fun arm => arm.eval (store.set var x) r)
        = l.mapM (fun arm => arm.eval store r) := by
      refine Phases.mapM_forall₂ (List.forall₂_same.2 fun arm harm => ?_)
      obtain ⟨step, hstep, a, ha, rfl⟩ := Phases.exists_of_mem_forall₂ hl arm harm
      exact congrFun (Operand.arm?_congr ha (m.eval_set (hvar step hstep) store x)) r
    rw [hvalues, hvalues, Phases.inPhases, hprepare, Phases.inPhases]
  · rw [hvalues, Phases.inPhases_ok_iff, hwhole]
  · rw [hvalues, ← hwhole, Phases.inPhases_eq_iff]
    refine Phases.inOrder_forall₂ (hl.imp fun arm step h => ?_)
    obtain ⟨a, ha, rfl⟩ := h
    exact Operand.of_arm? ha store r

theorem arms?_eq {steps : List BindStep} {arms : List (Err × Arm Val A E t)} :
    m.arms? steps = some arms ↔ List.Forall₂ (ArmOf m) steps arms :=
  Phases.mapM_eq_some_iff

theorem emitted_code [DecidableEq Err] {steps : List BindStep} {c : Code Val Err A E t}
    (h : m.code typePath (.parallelSet steps) = some c) : Emitted m r steps c := by
  rw [Meaning.code] at h
  split at h
  · cases harms : m.arms? steps with
    | none =>
        rw [harms] at h
        cases h
    | some arms =>
        simp only [harms] at h
        split at h
        · exact emitted_join (arms?_eq.1 harms) h
        · cases h
  · cases h

theorem exists_join (arms : List (Arm Val A E t)) (hlen : 2 ≤ arms.length)
    (hle : arms.length ≤ 4) : ∃ c : Code Val Err A E t, Code.join arms = some c := by
  match arms, hlen, hle with
  | [a, b], _, _ => exact ⟨.join2 a b, rfl⟩
  | [a, b, c], _, _ => exact ⟨.join3 a b c, rfl⟩
  | [a, b, c, d], _, _ => exact ⟨.join4 a b c d, rfl⟩

/-- The code of a set that is not too long is accepted if `join_binds` takes its binds. -/
theorem code_iff_joins [DecidableEq Err] {steps : List BindStep} (hlen : 2 ≤ steps.length)
    (hle : steps.length ≤ 4) :
    (∃ c, m.code typePath (.parallelSet steps) = some c) ↔ m.Joins steps := by
  have hfst : ∀ {step : BindStep} {arm : Err × Arm Val A E t}, ArmOf m step arm →
      (m.operand step.operand).arm?.map Prod.fst = some arm.1 := by
    intro step arm h
    obtain ⟨a, ha, rfl⟩ := ArmOf.exists h
    rw [ha]
    rfl
  constructor
  · rintro ⟨c, h⟩
    rw [Meaning.code] at h
    split at h
    · next hnames =>
        refine ⟨hnames, ?_⟩
        cases harms : m.arms? steps with
        | none =>
            rw [harms] at h
            cases h
        | some arms =>
            simp only [harms] at h
            split at h
            · next hsame =>
                have hall : List.Forall₂ (ArmOf m) steps arms := arms?_eq.1 harms
                cases hall with
                | nil => cases hlen
                | @cons _ arm _ _ harm hrest =>
                    refine ⟨arm.1, fun step hstep => ?_⟩
                    obtain ⟨arm', harm', hof⟩ :=
                      Phases.exists_of_mem_forall₂ (List.Forall₂.cons harm hrest) step hstep
                    rw [hfst hof, hsame arm List.mem_cons_self arm' harm']
            · cases h
    · cases h
  · rintro ⟨hnames, error, htypes⟩
    obtain ⟨arms, harms⟩ : ∃ arms, List.Forall₂
        (fun step arm => ArmOf m step arm ∧ arm.1 = error) steps arms := by
      refine Phases.exists_forall₂ fun step hstep => ?_
      obtain ⟨a, ha, rfl⟩ := Option.map_eq_some_iff.1 (htypes step hstep)
      exact ⟨(a.1, ⟨step.var, a.2⟩), congrArg (Option.map _) ha, rfl⟩
    have hsame : ∀ arm ∈ arms, arm.1 = error := fun arm harm => by
      obtain ⟨_, _, _, h⟩ := Phases.exists_of_mem_forall₂ harms.flip arm harm
      exact h
    have hlength : (arms.map Prod.snd).length = steps.length :=
      (List.length_map _).trans harms.length_eq.symm
    rw [Meaning.code, if_pos hnames, arms?_eq.2 (harms.imp fun _ _ h => h.1)]
    simp only
    rw [if_pos fun a ha b hb => (hsame a ha).trans (hsame b hb).symm]
    exact exists_join _ (by rw [hlength]; exact hlen) (by rw [hlength]; exact hle)

end Emitted

/-! ## Sequences of binds -/

/-- A statement that binds its operand. -/
structure IsBind (typePath : TokenStream → Bool) (chunk : TokenStream) (step : BindStep) :
    Prop where
  parse : parseBindStep typePath (desugarIdentTildeBind chunk) = some step
  operand : collectTildeOperand 0 step.operand = (step.operand, [])

/-- What stands in the expansion of a bind: the operand is that of `cap_into_bind`. -/
theorem IsBind.expandTilde {syn : Syn} {step : BindStep}
    (h : IsBind syn.typePath step.tokens step) (r : Ident) :
    expandTilde syn r step.tokens
      = [.token (word "let"), .token (.ident step.var), .token (.punct '='),
          .group .parenthesis (capIntoBind r (ProcMacro.expandTilde syn r step.operand)
            ++ [.token (.punct '?')])] := by
  have hkey : isCapabilityKeyOperand syn.typePath step.operand = false := (parse_case h.parse).key
  have htilde : look (.punct '~') step.operand = (.tilde step.operand, []) :=
    congrArg (fun o : TokenStream × TokenStream => (Sight.tilde o.1, o.2)) h.operand
  rw [BindStep.tokens, expandTilde_cons]
  show .token (word "let") :: ProcMacro.expandTilde syn r (.ident step.var :: _) = _
  rw [expandTilde_cons]
  show _ :: .token (.ident step.var) :: ProcMacro.expandTilde syn r (.punct '=' :: _) = _
  rw [expandTilde_cons]
  show _ :: _ :: .token (.punct '=') :: ProcMacro.expandTilde syn r (.punct '~' :: _) = _
  rw [expandTilde_cons, htilde, ProcMacro.expandTilde, expandSight, hkey]
  rfl

/-- The operands do not use the variables of earlier binds. -/
def Unrelated (steps : List BindStep) : Prop :=
  steps.Pairwise fun a b => a.var.name ≠ "_" → usesName a.var.name b.operand = false

/-- The binds, as they are grouped: stretches of those that may be are cut into fours. -/
def grouped (typePath : TokenStream → Bool) (chunks : List TokenStream) : List (List BindStep) :=
  (cut [] (slots typePath [] chunks)).map (Piece.steps typePath)

namespace Meaning

variable (m : Meaning Val Err A E t)

/-- Where two binds or more are run at once, they can be joined. -/
def Fits (steps : List BindStep) : Prop := 2 ≤ steps.length → m.Joins steps

/-- In each group that is got to, no failure of an effect is overtaken by an operand that leaves
    early. -/
def InOrder (store : Store A) (r : t.Value Val) (groups : List (List BindStep)) : Prop :=
  Phases.Until (fun steps => ∃ xs, steps.mapM (m.whole store r) = .ok xs)
    (Phases.InOrder (m.ready store r) (m.whole store r)) groups

end Meaning

section Sequences

variable {m : Meaning Val Err A E t} {typePath : TokenStream → Bool}

/-- What the code of groups of binds does. -/
theorem run_emitted {r : t.Value Val} {groups : List (List BindStep)}
    {codes : List (Code Val Err A E t)} (h : List.Forall₂ (Emitted m r) groups codes)
    (hapart : Unrelated groups.flatten) (store : Store A) :
    runAll store r codes
      = ((codes.mapM (Code.values store r)).map fun xss =>
          store.setAll ((groups.flatten.map BindStep.var).zip xss.flatten), r) := by
  have hblind : codes.Pairwise (Code.Blind r) := by
    refine Phases.pairwise_of_forall₂ h (List.pairwise_flatten.1 hapart).2 ?_
    intro steps c steps' d hc hd hbetween var hvar store x
    rw [hc.vars] at hvar
    obtain ⟨step, hstep, rfl⟩ := List.mem_map.1 hvar
    exact hd.blind step.var (fun step' hstep' => hbetween step hstep step' hstep') store x
  have hvars : codes.flatMap Code.vars = groups.flatten.map BindStep.var := by
    clear hapart hblind
    induction h with
    | nil => rfl
    | cons hc _ ih =>
        rw [List.flatMap_cons, List.flatten_cons, List.map_append, hc.vars, ih]
  rw [runAll_eq hblind, hvars]

/-- A piece of a sequence of binds: a bind, or a set that has been cut. -/
theorem piece_code [DecidableEq Err] {chunks : List TokenStream} {steps : List BindStep}
    (hbinds : List.Forall₂ (IsBind typePath) chunks steps) {p : Piece}
    (hp : p ∈ cut [] (slots typePath [] chunks)) (r : t.Value Val) :
    ((∃ c, m.code typePath p.plan = some c) ↔ m.Fits (p.steps typePath))
      ∧ ∀ c, m.code typePath p.plan = some c → Emitted m r (p.steps typePath) c := by
  have halone : ∀ {chunk : TokenStream} {step : BindStep},
      parseBindStep typePath (desugarIdentTildeBind chunk) = some step →
      ((∃ c, m.code typePath (.sequential chunk) = some c) ↔ m.Fits [step])
        ∧ ∀ c, m.code typePath (.sequential chunk) = some c → Emitted m r [step] c := by
    intro chunk step hparse
    rw [Meaning.code, hparse]
    refine ⟨iff_of_true ⟨_, rfl⟩ fun h => by simp at h, fun c hc => ?_⟩
    obtain rfl := Option.some.inj hc
    exact emitted_bind step
  cases p with
  | alone chunk =>
      have hchunk : chunk ∈ chunks := by
        have hmem : chunk ∈ (cut [] (slots typePath [] chunks)).flatMap Piece.chunks :=
          List.mem_flatMap.2 ⟨_, hp, List.mem_singleton_self chunk⟩
        rw [chunks_cut] at hmem
        exact List.mem_of_mem_filter hmem
      obtain ⟨step, _, hstep⟩ := Phases.exists_of_mem_forall₂ hbinds chunk hchunk
      have hsteps : (Piece.alone chunk).steps typePath = [step] := by
        rw [Piece.steps, Piece.chunks, List.filterMap_cons, hstep.parse]
        rfl
      rw [hsteps]
      exact halone hstep.parse
  | set fs =>
      obtain ⟨hne, hle, hok⟩ := cut_ok chunks [] [] setOk_nil (by decide)
        (fun _ h => absurd h List.not_mem_nil) fs hp
      have hsteps : (Piece.set fs).steps typePath = fs.map Free.step := by
        rw [Piece.steps, Piece.chunks, List.filterMap_map, ← List.filterMap_eq_map]
        exact List.filterMap_congr fun f hf => (hok.ok f hf).parse
      rw [hsteps]
      cases fs with
      | nil => exact absurd rfl hne
      | cons f fs =>
          cases fs with
          | nil => exact halone (hok.ok f List.mem_cons_self).parse
          | cons g fs =>
              rw [set_plan]
              have hlen : 2 ≤ ((f :: g :: fs).map Free.step).length := Nat.le_add_left 2 _
              refine ⟨(code_iff_joins hlen ?_).trans ⟨fun h _ => h, fun h => h hlen⟩,
                fun c => emitted_code⟩
              rw [List.length_map]
              exact hle

theorem run_sequence {r : t.Value Val} {steps : List BindStep} (hapart : Unrelated steps)
    (store : Store A) :
    m.inSequence steps store r
      = ((steps.mapM (m.whole store r)).map fun xs =>
          store.setAll ((steps.map BindStep.var).zip xs), r) := by
  have hflatten : (steps.map fun step => [step]).flatten = steps :=
    List.flatMap_def.symm.trans (List.flatMap_singleton' steps)
  have hone : List.Forall₂ (Emitted m r) (steps.map fun step => [step])
      (steps.map fun step => .bind step.var (m.operand step.operand)) :=
    List.forall₂_map_left_iff.2 (List.forall₂_map_right_iff.2
      (List.forall₂_same.2 fun step _ => emitted_bind step))
  rw [Meaning.inSequence, run_emitted hone (hflatten.symm ▸ hapart), hflatten, List.mapM_map,
    ← Phases.mapM_singleton (m.whole store r), Phases.map_map]
  rfl

theorem flatten_grouped {chunks : List TokenStream} {steps : List BindStep}
    (hbinds : List.Forall₂ (IsBind typePath) chunks steps) :
    (grouped typePath chunks).flatten = steps := by
  have hparse : (cut [] (slots typePath [] chunks)).flatMap (Piece.steps typePath)
      = ((cut [] (slots typePath [] chunks)).flatMap Piece.chunks).filterMap fun chunk =>
          parseBindStep typePath (desugarIdentTildeBind chunk) := List.filterMap_flatMap.symm
  rw [grouped, ← List.flatMap_def, hparse, chunks_cut]
  show (chunks.filter fun c => !c.isEmpty).filterMap _ = _
  clear hparse
  induction hbinds with
  | nil => rfl
  | @cons chunk step chunks steps hbind _ ih =>
      have hne : (!chunk.isEmpty) = true := by
        cases chunk with
        | nil => cases hbind.parse
        | cons _ _ => rfl
      rw [List.filter_cons_of_pos (p := fun c : TokenStream => !c.isEmpty) hne,
        List.filterMap_cons, hbind.parse]
      exact congrArg (step :: ·) ih

/-- **The code for a sequence of binds does what the binds do one after the other if and only if it
    is accepted and no failure is overtaken.** -/
theorem expanded_eq_iff [DecidableEq Err] {chunks : List TokenStream} {steps : List BindStep}
    (hbinds : List.Forall₂ (IsBind typePath) chunks steps) (hapart : Unrelated steps)
    (store : Store A) (r : t.Value Val) :
    m.expanded typePath chunks store r = some (m.inSequence steps store r)
      ↔ (∀ group ∈ grouped typePath chunks, m.Fits group)
        ∧ m.InOrder store r (grouped typePath chunks) := by
  let pieces := cut [] (slots typePath [] chunks)
  have hplan : m.expanded typePath chunks store r
      = (pieces.mapM fun p => m.code typePath p.plan).map (runAll store r) := by
    rw [Meaning.expanded, plan_eq_cut, List.mapM_map]
    rfl
  rw [hplan]
  by_cases hfits : ∀ group ∈ grouped typePath chunks, m.Fits group
  · rw [and_iff_right hfits]
    obtain ⟨codes, hcodes⟩ : ∃ codes, List.Forall₂
        (fun p c => p ∈ pieces ∧ m.code typePath p.plan = some c) pieces codes := by
      refine Phases.exists_forall₂ fun p hp => ?_
      obtain ⟨c, hc⟩ := (piece_code hbinds hp r).1.2 (hfits _ (List.mem_map_of_mem hp))
      exact ⟨c, hp, hc⟩
    have hemitted : List.Forall₂ (Emitted m r) (grouped typePath chunks) codes :=
      List.forall₂_map_left_iff.2 (hcodes.imp fun p c h => (piece_code hbinds h.1 r).2 c h.2)
    have hsome : (pieces.mapM fun p => m.code typePath p.plan) = some codes :=
      Phases.mapM_eq_some_iff.2 (hcodes.imp fun _ _ h => h.2)
    have hflatten : (grouped typePath chunks).flatten = steps := flatten_grouped hbinds
    have hgroups : List.Forall₂ (fun c group =>
        (∀ xs, c.values store r = .ok xs ↔ group.mapM (m.whole store r) = .ok xs)
          ∧ (c.values store r = group.mapM (m.whole store r)
            ↔ Phases.InOrder (m.ready store r) (m.whole store r) group))
        codes (grouped typePath chunks) :=
      hemitted.flip.imp fun c group h => ⟨h.ok store, h.inOrder store⟩
    have hall : steps.mapM (m.whole store r)
        = ((grouped typePath chunks).mapM fun group : List BindStep =>
            group.mapM (m.whole store r)).map
            List.flatten := by
      rw [← Phases.mapM_flatten, hflatten]
    rw [hsome, run_sequence hapart, hall, Phases.map_map]
    show some (runAll store r codes) = _ ↔ _
    rw [run_emitted hemitted (hflatten.symm ▸ hapart), hflatten, Option.some_inj, Prod.mk.injEq,
      and_iff_left rfl, Phases.map_eq_map_iff (Phases.mapM_ok_iff (hgroups.imp fun _ _ h => h.1))]
    exact Phases.mapM_eq_iff hgroups
  · refine iff_of_false (fun h => hfits ?_) fun h => hfits h.1
    obtain ⟨codes, hcodes, _⟩ := Option.map_eq_some_iff.1 h
    intro group hgroup
    obtain ⟨p, hp, rfl⟩ := List.mem_map.1 hgroup
    obtain ⟨c, _, hc⟩ :=
      Phases.exists_of_mem_forall₂ (Phases.mapM_eq_some_iff.1 hcodes) p hp
    exact (piece_code hbinds hp r).1.1 ⟨c, hc⟩

end Sequences

/-! ## Examples -/

/-- Effects of `()` that fail; an operand with an `h` in it leaves early. -/
def failing : Meaning (fun _ : Unit => Unit) Unit ℕ ℕ .unit where
  operand op := ⟨.unit (), fun _ _ =>
    if usesName "h" op then .error (.error 2) else .ok fun r => (.error 1, r)⟩
  congr _ _ _ _ := rfl

def call (name : String) (args : TokenStream) : TokenStream := [word name, .group .parenthesis args]

/-- `let a = ~ f(); let b = ~ g();` -/
def twoBinds : List BindStep := [⟨⟨"a", false⟩, call "f" []⟩, ⟨⟨"b", false⟩, call "g" []⟩]

/-- `let a = ~ f(); let b = ~ g(~ h());` -/
def nestedBind : List BindStep :=
  [⟨⟨"a", false⟩, call "f" []⟩, ⟨⟨"b", false⟩, call "g" (.punct '~' :: call "h" [])⟩]

theorem expanded_two_binds :
    failing.expanded (fun _ => false) (twoBinds.map BindStep.tokens) (fun _ => none) ()
      = some (failing.inSequence twoBinds (fun _ => none) ()) :=
  (expanded_eq_iff (.cons ⟨rfl, rfl⟩ (.cons ⟨rfl, rfl⟩ .nil))
    (List.pairwise_pair.2 fun _ => by decide) _ _).2
    ⟨fun group hgroup => by
        obtain rfl : group = twoBinds := List.mem_singleton.1 hgroup
        exact fun _ => ⟨by decide, (), by decide⟩,
      ⟨fun _ => ⟨fun c h => by (cases h), fun e e' _ h => by (cases h)⟩, fun _ => trivial⟩⟩

/-- The effect of the first bind fails, but the error is that of the operand of the second one. -/
theorem failure_overtaken :
    List.Forall₂ (IsBind fun _ => false) (nestedBind.map BindStep.tokens) nestedBind
      ∧ Unrelated nestedBind
      ∧ failing.expanded (fun _ => false) (nestedBind.map BindStep.tokens) (fun _ => none) ()
        ≠ some (failing.inSequence nestedBind (fun _ => none) ()) := by
  refine ⟨.cons ⟨rfl, rfl⟩ (.cons ⟨rfl, rfl⟩ .nil), List.pairwise_pair.2 fun _ => by decide, ?_⟩
  have hset : failing.expanded (fun _ => false) (nestedBind.map BindStep.tokens) (fun _ => none) ()
      = some (.error (.error 2), ()) := rfl
  have hone : failing.inSequence nestedBind (fun _ => none) () = (.error (.error 1), ()) := rfl
  rw [hset, hone]
  intro h
  cases h

end IdEffect.ProcMacro
