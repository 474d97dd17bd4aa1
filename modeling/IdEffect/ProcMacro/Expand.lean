import IdEffect.ProcMacro.EffectGraph

set_option autoImplicit false

/-! # Expanding `effect!` bodies: `transform.rs`

A body is split into chunks at its semicolons; in each of them `~operand` becomes a bind, or a
lookup of a capability, and `require!(Key)` a lookup. What comes out is kept as a tree in which the
lookups that the expansion has made are marked (`Out.need`), so that they can be told from the
tokens it has copied.

The loops end because each operand and each argument is lighter than what it stood in: `~` and `!`
weigh more than what a lookup adds (`streamWeight`). -/

namespace IdEffect.ProcMacro

/-! ## Operands -/

/-- How many angles are open after a token of an operand; `none` if the operand ends before it. -/
def operandStep (depth : ℕ) : TokenTree → Option ℕ
  | .punct '<' => some (depth + 1)
  | .punct '>' => if depth = 0 then none else some (depth - 1)
  | .punct ',' | .punct ';' => if depth = 0 then none else some depth
  | .group .brace _ => none
  | _ => some depth

/-- The operand at the start of a stream, and what comes after it. -/
def collectTildeOperand : ℕ → TokenStream → TokenStream × TokenStream
  | _, [] => ([], [])
  | depth, t :: ts =>
      match operandStep depth t with
      | none => ([], t :: ts)
      | some depth => (t :: (collectTildeOperand depth ts).1, (collectTildeOperand depth ts).2)

theorem collectTildeOperand_append (ts : TokenStream) : ∀ depth,
    (collectTildeOperand depth ts).1 ++ (collectTildeOperand depth ts).2 = ts := by
  induction ts with
  | nil => exact fun _ => rfl
  | cons t ts ih =>
      intro depth
      rw [collectTildeOperand]
      cases operandStep depth t with
      | none => rfl
      | some depth => exact congrArg (t :: ·) (ih depth)

/-- How many angles are open at the end of a stream; `none` if the operand ends in it. -/
def openAngles : ℕ → TokenStream → Option ℕ
  | depth, [] => some depth
  | depth, t :: ts =>
      match operandStep depth t with
      | none => none
      | some depth => openAngles depth ts

/-! ## What is asked of `syn` -/

/-- A type is a path without a qualified self, or something else. -/
inductive TypeKind where
  | path
  | other
  deriving DecidableEq, Repr

structure Syn where
  parseType : TokenStream → Option TypeKind
  /-- The stream starts with an expression and a comma. -/
  exprComma : TokenStream → Bool
  /-- The stream is an expression, a comma and a type. -/
  exprCommaType : TokenStream → Bool
  /-- The error of a stream that cannot be read as the arguments of `require!`. -/
  parseError : TokenStream → String
  /-- There is no `;` outside of groups in a path. -/
  path_semicolon : ∀ ts, parseType ts = some .path → .punct ';' ∉ ts
  /-- All angles in a path are closed. -/
  path_closed : ∀ ts depth, parseType ts = some .path → openAngles 0 ts ≠ some (depth + 1)

def Syn.typePath (syn : Syn) (ts : TokenStream) : Bool := syn.parseType ts == some .path

inductive RequireArgs where
  | key
  | envAndKey

def RequireArgs.parse (syn : Syn) (ts : TokenStream) : Option RequireArgs :=
  if syn.exprComma ts then if syn.exprCommaType ts then some .envAndKey else none
  else if (syn.parseType ts).isSome then some .key
  else none

/-! ## Weights -/

mutual

def TokenTree.weight : TokenTree → ℕ
  | .punct c => if c = '~' ∨ c = '!' then 32 else 1
  | .group _ stream => streamWeight stream + 1
  | .ident _ | .str _ | .literal _ => 1

def streamWeight : List TokenTree → ℕ
  | [] => 0
  | t :: ts => t.weight + streamWeight ts

end

theorem streamWeight_append (ts us : TokenStream) :
    streamWeight (ts ++ us) = streamWeight ts + streamWeight us := by
  induction ts with
  | nil => exact (Nat.zero_add _).symm
  | cons t ts ih => rw [List.cons_append, streamWeight, streamWeight, ih, Nat.add_assoc]

theorem TokenTree.weight_pos (t : TokenTree) : 0 < t.weight := by
  cases t with
  | punct c =>
      rw [TokenTree.weight]
      split <;> decide
  | ident _ | str _ | literal _ => exact Nat.one_pos
  | group d s => exact Nat.succ_pos _

theorem weight_operand (depth : ℕ) (ts : TokenStream) :
    streamWeight (collectTildeOperand depth ts).1 + streamWeight (collectTildeOperand depth ts).2
      = streamWeight ts := by
  rw [← streamWeight_append, collectTildeOperand_append]

/-! ## What the loops look at -/

/-- What stands at the start of a stream. -/
inductive Sight where
  /-- `require!`, with what it has in parentheses -/
  | require (args : Option TokenStream)
  | tilde (operand : TokenStream)
  | group (delimiter : Delimiter) (stream : TokenStream)
  | other (t : TokenTree)

/-- What a round of a loop sees, and what is left for the next one. -/
def look : TokenTree → TokenStream → Sight × TokenStream
  | .ident i, .punct '!' :: ts =>
      if i.is "require" then
        match ts with
        | .group .parenthesis args :: ts => (.require (some args), ts)
        | _ :: ts => (.require none, ts)
        | [] => (.require none, [])
      else (.other (.ident i), .punct '!' :: ts)
  | .punct '~', ts => (.tilde (collectTildeOperand 0 ts).1, (collectTildeOperand 0 ts).2)
  | .group d stream, ts => (.group d stream, ts)
  | t, ts => (.other t, ts)

/-- What is inside of what a round sees. -/
def Sight.inner : Sight → TokenStream
  | .require args => args.getD []
  | .tilde operand => operand
  | .group _ stream => stream
  | .other _ => []

/-- What a lookup may add to what is inside. -/
def Sight.spare : Sight → ℕ
  | .require _ | .tilde _ => 16
  | .group _ _ | .other _ => 0

theorem weight_look (t : TokenTree) (ts : TokenStream) :
    streamWeight (look t ts).1.inner + (look t ts).1.spare + streamWeight (look t ts).2
      < streamWeight (t :: ts) := by
  unfold look
  split
  · split
    · split
      · simp [Sight.inner, Sight.spare, streamWeight, TokenTree.weight]
        omega
      · next u us _ =>
          have := u.weight_pos
          simp [Sight.inner, Sight.spare, streamWeight, TokenTree.weight]
          omega
      · simp [Sight.inner, Sight.spare, streamWeight, TokenTree.weight]
    · simp [Sight.inner, Sight.spare, streamWeight, TokenTree.weight]
  · have := weight_operand 0 ts
    simp [Sight.inner, Sight.spare, streamWeight, TokenTree.weight]
    omega
  · simp [Sight.inner, Sight.spare, streamWeight, TokenTree.weight]
  · have := t.weight_pos
    simp [Sight.inner, Sight.spare, streamWeight]
    omega

/-! ## Expansion -/

/-- What comes out. The lookup `Needs::<key>::need(r)` is marked with its key. -/
inductive Out where
  | token (t : TokenTree)
  | group (delimiter : Delimiter) (stream : List Out)
  | need (key : TokenStream) (stream : List Out)
  | compileError (message : String)

/-- `::id_effect::name` -/
def pathTo (name : String) : TokenStream :=
  [.punct ':', .punct ':', word "id_effect", .punct ':', .punct ':', word name]

/-- `::id_effect::Needs::<key>::need(r)` -/
def needsLookup (r : Ident) (key : TokenStream) : TokenStream :=
  pathTo "Needs" ++ [.punct ':', .punct ':', .punct '<'] ++ key
    ++ [.punct '>', .punct ':', .punct ':', word "need", .group .parenthesis [.ident r]]

theorem weight_needsLookup (r : Ident) (key : TokenStream) :
    streamWeight (needsLookup r key) < streamWeight key + 16 := by
  simp [needsLookup, pathTo, word, streamWeight_append, streamWeight, TokenTree.weight]
  omega

/-- `::id_effect::cap_into_bind(operand, r).await` -/
def capIntoBind (r : Ident) (operand : List Out) : List Out :=
  (pathTo "cap_into_bind").map .token
    ++ [.group .parenthesis (operand ++ [.token (.punct ','), .token (.ident r)]),
      .token (.punct '.'), .token (word "await")]

/-- The error of a `require!` without parentheses. -/
def expectsKey : String :=
  "effect!: `require!` expects `require!(Key)` — " ++ "`require!(env, Key)` was removed in 3.0"

def envRemoved : String :=
  "require!(env, Key) was removed in id_effect 3.0; " ++ "use require!(Key) inside effect!"

section Expander

variable (syn : Syn) (r : Ident)

def expandTilde : TokenStream → List Out
  | [] => []
  | t :: ts =>
      match h : look t ts with
      | (.require none, rest) => .compileError expectsKey :: expandTilde rest
      | (.require (some args), rest) =>
          (match RequireArgs.parse syn args with
            | some .key => .need args (expandTilde (needsLookup r args))
            | some .envAndKey => .compileError envRemoved
            | none => .compileError (syn.parseError args)) :: expandTilde rest
      | (.tilde operand, rest) =>
          (if isCapabilityKeyOperand syn.typePath operand then
              .need operand (expandTilde (needsLookup r operand))
            else .group .parenthesis
              (capIntoBind r (expandTilde operand) ++ [.token (.punct '?')])) :: expandTilde rest
      | (.group d stream, rest) => .group d (expandTilde stream) :: expandTilde rest
      | (.other u, rest) => .token u :: expandTilde rest
  termination_by ts => streamWeight ts
  decreasing_by
    all_goals have hlook := weight_look t ts
    all_goals simp only [h, Sight.inner, Sight.spare, Option.getD] at hlook
    case _ => omega
    case _ => exact Nat.lt_trans (weight_needsLookup r args) (by omega)
    case _ => omega
    case _ => exact Nat.lt_trans (weight_needsLookup r operand) (by omega)
    all_goals omega

/-- What becomes of what a round has seen. -/
def expandSight : Sight → Out
  | .require none => .compileError expectsKey
  | .require (some args) =>
      match RequireArgs.parse syn args with
      | some .key => .need args (expandTilde syn r (needsLookup r args))
      | some .envAndKey => .compileError envRemoved
      | none => .compileError (syn.parseError args)
  | .tilde operand =>
      if isCapabilityKeyOperand syn.typePath operand then
        .need operand (expandTilde syn r (needsLookup r operand))
      else .group .parenthesis
        (capIntoBind r (expandTilde syn r operand) ++ [.token (.punct '?')])
  | .group d stream => .group d (expandTilde syn r stream)
  | .other t => .token t

theorem expandTilde_cons (t : TokenTree) (ts : TokenStream) :
    expandTilde syn r (t :: ts)
      = expandSight syn r (look t ts).1 :: expandTilde syn r (look t ts).2 := by
  rw [expandTilde]
  generalize look t ts = seen
  obtain ⟨sight, rest⟩ := seen
  cases sight with
  | require args =>
      cases args with
      | none => rfl
      | some args => rfl
  | tilde operand | group d stream | other u => rfl

/-! ## Parallel sets -/

/-- `let (a, b) = ::id_effect::join_binds2(x, y, r.clone()).await…? ;` -/
def emitJoin (name : String) (vars : List Ident) (args : List (List Out)) (mapErr : TokenStream) :
    List Out :=
  [.token (word "let"), .group .parenthesis
      ((vars.map fun v => Out.token (.ident v)).intersperse (.token (.punct ','))),
    .token (.punct '=')]
    ++ (pathTo name).map .token
    ++ [.group .parenthesis ((args.map fun arg => arg ++ [.token (.punct ',')]).flatten
        ++ [.token (.ident r), .token (.punct '.'), .token (word "clone"), .group .parenthesis []]),
      .token (.punct '.'), .token (word "await")]
    ++ mapErr.map .token ++ [.token (.punct '?'), .token (.punct ';')]

/-- `.map_err(::id_effect::flatten_or)` -/
def mapErrFlattenOr : TokenStream :=
  [.punct '.', word "map_err", .group .parenthesis (pathTo "flatten_or")]

def emitParallelSet (steps : List BindStep) : List Out :=
  let vars := steps.map BindStep.var
  let expanded := steps.map fun step => expandTilde syn r step.operand
  match steps.length with
  | 2 => emitJoin r "join_binds2" vars expanded mapErrFlattenOr
  | 3 => emitJoin r "join_binds3" vars expanded []
  | 4 => emitJoin r "join_binds4" vars expanded []
  | n => [.compileError s!"emit_parallel_set expects 2..=4 binds, got {n}"]

/-! ## Bodies -/

def emit : StmtPlan → List Out
  | .parallelSet steps => emitParallelSet syn r steps
  | .sequential chunk =>
      if chunk.isEmpty then []
      else expandTilde syn r (desugarIdentTildeBind chunk) ++ [.token (.punct ';')]

/-- A tail that is exactly `~operand` is returned as it is. -/
def tryExpandTailAsIntoBindAwait : TokenStream → Option (List Out)
  | .punct '~' :: ts =>
      match collectTildeOperand 0 ts with
      | (operand, []) => some (capIntoBind r (expandTilde syn r operand))
      | _ => none
  | _ => none

/-- `::core::result::Result::Ok(value)` -/
def resultOk (value : List Out) : List Out :=
  [.punct ':', .punct ':', word "core", .punct ':', .punct ':', word "result", .punct ':',
    .punct ':', word "Result", .punct ':', .punct ':', word "Ok"].map Out.token
    ++ [.group .parenthesis value]

end Expander

def isBlockStmtKeyword : TokenTree → Bool
  | .ident id =>
      !id.raw && ["if", "while", "for", "loop", "match", "async", "unsafe"].contains id.name
  | _ => false

def startsWithElse : TokenStream → Bool
  | .ident id :: _ => id.is "else"
  | _ => false

/-- The chunks of a body; the first argument is what has been read of the current one. -/
def splitSemicolons : TokenStream → TokenStream → List TokenStream
  | cur, [] => [cur]
  | cur, .punct ';' :: ts => cur :: splitSemicolons [] ts
  | cur, .group .brace stream :: ts =>
      if (cur.head?.any isBlockStmtKeyword) && !startsWithElse ts && !ts.isEmpty then
        (cur ++ [.group .brace stream]) :: splitSemicolons [] ts
      else splitSemicolons (cur ++ [.group .brace stream]) ts
  | cur, t :: ts => splitSemicolons (cur ++ [t]) ts

/-- The last chunk, after `desugar`, as what the block returns. -/
def expandTail (syn : Syn) (r : Ident) (tail : TokenStream) : List Out :=
  if tail.isEmpty then resultOk [.group .parenthesis []]
  else
    let tail := desugarIdentTildeBind tail
    (tryExpandTailAsIntoBindAwait syn r tail).getD (resultOk (expandTilde syn r tail))

def expandBlock (syn : Syn) (r : Ident) (body : TokenStream) : List Out :=
  let chunks := splitSemicolons [] body
  (planStatementChunks syn.typePath chunks.dropLast).flatMap (emit syn r)
    ++ expandTail syn r (chunks.getLast?.getD [])

end IdEffect.ProcMacro
