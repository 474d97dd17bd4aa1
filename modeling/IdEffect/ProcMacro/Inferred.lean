import IdEffect.ProcMacro.Planned
import IdEffect.ProcMacro.Reach

set_option autoImplicit false

/-! # Are the right capabilities inferred?

The collector reads a body as it is written and the expansion reads it statement by statement; of
binds that are grouped, and of a tail that is exactly `~operand`, only the operands. The keys that
stand where only one of both looks have to stand elsewhere, too (`inferred_iff_covered`). Only the
expansion looks into operands, and so `let x = ~query(~Db); x` is expanded to a lookup of a key that
is not collected (`operand_key_missed`). -/

namespace IdEffect.ProcMacro

/-! ## Statements -/

/-- A chunk, and the operand that the expansion reads in place of it, if it does. -/
structure Statement where
  chunk : TokenStream
  operand : Option TokenStream

/-- What the expansion reads. -/
def Statement.read (s : Statement) : TokenStream := s.operand.getD s.chunk

def Piece.statements : Piece → List Statement
  | .alone chunk => [⟨chunk, none⟩]
  | .set [f] => [⟨f.chunk, none⟩]
  | .set fs => fs.map fun f => ⟨f.chunk, some f.step.operand⟩

/-- The operand of a stream that is exactly `~operand`. -/
def soleOperand : TokenStream → Option TokenStream
  | .punct '~' :: ts =>
      match collectTildeOperand 0 ts with
      | (operand, []) => some operand
      | _ => none
  | _ => none

section Statements

variable (syn : Syn) (r : Ident)

/-- The statements of a body, and its tail. -/
def statements (body : TokenStream) : List Statement :=
  let chunks := splitSemicolons [] body
  let tail := chunks.getLast?.getD []
  (cut [] (slots syn.typePath [] chunks.dropLast)).flatMap Piece.statements
    ++ [⟨tail, soleOperand tail⟩]

/-- The keys of a statement in which `depth` angles of an operand are open at the start. If the
    expansion reads something else than the collector, nothing is found by both. -/
def statementPlaces (depth : ℕ) (s : Statement) : List Place :=
  if depth = 0 ∧ s.operand.isNone then places syn r s.chunk
  else (found syn r (resume depth s.chunk)).map (.collector, ·) ++ hidden (places syn r s.read)

def placesFrom : ℕ → List Statement → List Place
  | _, [] => []
  | depth, s :: rest =>
      statementPlaces syn r depth s ++ placesFrom (leftOpenFrom depth s.chunk) rest

def bodyPlaces (body : TokenStream) : List Place := placesFrom syn r 0 (statements syn body)

/-! ## What is collected -/

theorem collected_statementPlaces (depth : ℕ) (s : Statement) :
    collected (statementPlaces syn r depth s) = found syn r (resume depth s.chunk) := by
  rw [statementPlaces]
  split
  · next h =>
      rw [h.1]
      rfl
  · rw [collected_append, collected_hidden, List.append_nil]
    generalize found syn r (resume depth s.chunk) = keys
    induction keys with
    | nil => rfl
    | cons key keys ih => exact congrArg (key :: ·) ih

theorem collected_placesFrom (l : List Statement) : ∀ depth,
    collected (placesFrom syn r depth l) = foundFrom syn r depth (l.map Statement.chunk) := by
  induction l with
  | nil => exact fun _ => rfl
  | cons s l ih =>
      intro depth
      rw [placesFrom, collected_append, collected_statementPlaces, ih]
      rfl

theorem splitSemicolons_ne_nil (cur ts : TokenStream) : splitSemicolons cur ts ≠ [] := by
  fun_induction splitSemicolons cur ts with
  | case1 cur => exact List.cons_ne_nil _ _
  | case2 cur ts ih => exact List.cons_ne_nil _ _
  | case3 cur stream ts h ih => exact List.cons_ne_nil _ _
  | case4 cur stream ts h ih => exact ih
  | case5 cur t ts _ _ ih => exact ih

theorem Piece.chunk_statements (piece : Piece) :
    piece.statements.map Statement.chunk = piece.chunks := by
  unfold Piece.statements
  split
  · rfl
  · rfl
  · exact List.map_map

/-- The statements are of the chunks that are not empty. -/
theorem chunk_statements (body : TokenStream) :
    ((statements syn body).map Statement.chunk).filter (fun c => !c.isEmpty)
      = (splitSemicolons [] body).filter fun c => !c.isEmpty := by
  have hchunks : ∀ chunks : List TokenStream,
      ((cut [] (slots syn.typePath [] chunks)).flatMap Piece.statements).map Statement.chunk
        = chunks.filter fun c => !c.isEmpty := by
    intro chunks
    rw [List.map_flatMap, funext Piece.chunk_statements]
    exact chunks_cut chunks [] []
  have hne : splitSemicolons [] body ≠ [] := splitSemicolons_ne_nil [] body
  rw [statements, List.map_append, hchunks, List.filter_append, List.filter_filter]
  simp only [Bool.and_self]
  rw [List.map_singleton, ← List.filter_append, List.getLast?_eq_getLast_of_ne_nil hne,
    Option.getD_some, List.dropLast_append_getLast]

/-- **The collector** finds what stands where it looks in the statements. -/
theorem collected_bodyPlaces (body : TokenStream) :
    collected (bodyPlaces syn r body) = found syn r body := by
  rw [bodyPlaces, collected_placesFrom, ← foundFrom_filter, chunk_statements, foundFrom_filter,
    ← found_split]
  rfl

/-! ## What is looked up -/

theorem expanded_statementPlaces (depth : ℕ) (s : Statement) :
    expanded (statementPlaces syn r depth s) = lookups (expandTilde syn r s.read) := by
  rw [statementPlaces, lookups_expandTilde]
  split
  · next h =>
      rw [Statement.read, Option.isNone_iff_eq_none.1 h.2]
      rfl
  · rw [expanded_append, expanded_hidden]
    have hnone : ∀ keys : List TokenStream, expanded (keys.map (View.collector, ·)) = [] := by
      intro keys
      induction keys with
      | nil => rfl
      | cons key keys ih => exact ih
    rw [hnone]
    rfl

theorem expanded_placesFrom (l : List Statement) : ∀ depth,
    expanded (placesFrom syn r depth l)
      = l.flatMap fun s => lookups (expandTilde syn r s.read) := by
  induction l with
  | nil => exact fun _ => rfl
  | cons s l ih =>
      intro depth
      rw [placesFrom, expanded_append, expanded_statementPlaces, ih]
      rfl

theorem places_desugar (chunk : TokenStream) :
    places syn r (desugarIdentTildeBind chunk) = places syn r chunk := by
  unfold desugarIdentTildeBind
  split
  · next name rest =>
      have hother : ∀ {t : TokenTree} {ts us : TokenStream}, look t ts = (.other t, us) →
          places syn r (t :: ts) = places syn r us := by
        intro t ts us h
        rw [places_cons, h]
        rfl
      rw [word, hother rfl, hother rfl, hother rfl]
      exact (hother rfl).symm
  · rfl

theorem lookups_names (vars : List Ident) :
    lookups ((vars.map fun v => Out.token (.ident v)).intersperse (.token (.punct ','))) = [] := by
  induction vars with
  | nil => rfl
  | cons v vars ih =>
      cases vars with
      | nil => rfl
      | cons w vars => exact ih

theorem lookups_emitJoin (name : String) (vars : List Ident) (args : List (List Out))
    (mapErr : TokenStream) : lookups (emitJoin r name vars args mapErr) = args.flatMap lookups := by
  have hargs : lookups (args.map fun arg => arg ++ [Out.token (.punct ',')]).flatten
      = args.flatMap lookups := by
    induction args with
    | nil => rfl
    | cons arg args ih =>
        rw [List.map_cons, List.flatten_cons, lookups_append, lookups_append, ih,
          List.flatMap_cons]
        exact congrArg (· ++ _) (List.append_nil _)
  simp [emitJoin, lookups_append, lookups_tokens, lookups_names, lookups, Out.lookups, hargs]

theorem lookups_flatMap {α : Type} (f : α → List Out) (l : List α) :
    lookups (l.flatMap f) = l.flatMap fun a => lookups (f a) := by
  induction l with
  | nil => rfl
  | cons a l ih => rw [List.flatMap_cons, lookups_append, ih, List.flatMap_cons]

theorem lookups_desugar (chunk : TokenStream) :
    lookups (expandTilde syn r (desugarIdentTildeBind chunk))
      = lookups (expandTilde syn r chunk) := by
  rw [lookups_expandTilde, places_desugar, ← lookups_expandTilde]

theorem lookups_parallelSet {steps : List BindStep} (hmin : 2 ≤ steps.length)
    (hmax : steps.length ≤ maxParallelBinds) :
    lookups (emitParallelSet syn r steps)
      = steps.flatMap fun step => lookups (expandTilde syn r step.operand) := by
  have hjoin : ∀ name mapErr, lookups (emitJoin r name (steps.map BindStep.var)
        (steps.map fun step => expandTilde syn r step.operand) mapErr)
      = steps.flatMap fun step => lookups (expandTilde syn r step.operand) := by
    intro name mapErr
    rw [lookups_emitJoin, List.flatMap_map]
  rw [maxParallelBinds] at hmax
  obtain hlen | hlen | hlen : steps.length = 2 ∨ steps.length = 3 ∨ steps.length = 4 := by omega
  all_goals
    simp only [emitParallelSet, hlen]
    exact hjoin _ _

theorem lookups_sequential (chunk : TokenStream) :
    lookups (emit syn r (.sequential chunk)) = lookups (expandTilde syn r chunk) := by
  rw [emit]
  split
  · next hempty =>
      rw [List.isEmpty_iff] at hempty
      subst hempty
      rw [expandTilde]
  · rw [lookups_append, lookups_desugar]
    exact List.append_nil _

theorem lookups_piece {piece : Piece}
    (h : ∀ fs, piece = .set fs → fs ≠ [] ∧ fs.length ≤ maxParallelBinds) :
    lookups (emit syn r piece.plan)
      = piece.statements.flatMap fun s => lookups (expandTilde syn r s.read) := by
  cases piece with
  | alone chunk => exact (lookups_sequential syn r chunk).trans (List.append_nil _).symm
  | set fs =>
      obtain ⟨hne, hmax⟩ := h fs rfl
      cases fs with
      | nil => exact absurd rfl hne
      | cons f fs =>
          cases fs with
          | nil => exact (lookups_sequential syn r f.chunk).trans (List.append_nil _).symm
          | cons g fs =>
              have hmin : 2 ≤ ((f :: g :: fs).map Free.step).length := by simp
              have hset := lookups_parallelSet syn r hmin (by rwa [List.length_map])
              rw [List.flatMap_map] at hset
              rw [Piece.statements, List.flatMap_map]
              · exact hset
              · exact fun _ h => by simp at h

theorem soleOperand_desugar (tail : TokenStream) :
    soleOperand (desugarIdentTildeBind tail) = soleOperand tail := by
  unfold desugarIdentTildeBind
  split <;> rfl

theorem tryExpandTail_eq (tail : TokenStream) :
    tryExpandTailAsIntoBindAwait syn r tail
      = (soleOperand tail).map fun operand => capIntoBind r (expandTilde syn r operand) := by
  unfold tryExpandTailAsIntoBindAwait
  split
  · next ts =>
      rw [soleOperand]
      generalize collectTildeOperand 0 ts = collected
      obtain ⟨operand, rest⟩ := collected
      cases rest with
      | nil => rfl
      | cons t rest => rfl
  · next hother =>
      rw [soleOperand]
      · rfl
      · exact hother

theorem lookups_tail (tail : TokenStream) :
    lookups (expandTail syn r tail)
      = lookups (expandTilde syn r (Statement.read ⟨tail, soleOperand tail⟩)) := by
  rw [expandTail]
  split
  · next hempty =>
      rw [List.isEmpty_iff] at hempty
      subst hempty
      rw [Statement.read]
      exact (congrArg lookups (expandTilde.eq_1 syn r)).symm
  · simp only
    rw [tryExpandTail_eq, soleOperand_desugar, Statement.read]
    cases soleOperand tail with
    | none =>
        refine Eq.trans ?_ (lookups_desugar syn r tail)
        exact List.append_nil _
    | some operand => exact lookups_capIntoBind r _

/-- **The expansion** looks up what stands where it reads in the statements. -/
theorem lookups_expandBlock (body : TokenStream) :
    lookups (expandBlock syn r body) = expanded (bodyPlaces syn r body) := by
  have hpieces : ∀ piece ∈ cut [] (slots syn.typePath [] (splitSemicolons [] body).dropLast),
      lookups (emit syn r piece.plan)
        = piece.statements.flatMap fun s => lookups (expandTilde syn r s.read) := by
    intro piece hpiece
    refine lookups_piece syn r fun fs hset => ?_
    subst hset
    have hok := cut_ok _ [] [] setOk_nil (by decide) (fun _ h => absurd h List.not_mem_nil) fs
      hpiece
    exact ⟨hok.1, hok.2.1⟩
  rw [bodyPlaces, expanded_placesFrom, statements, expandBlock, plan_eq_cut]
  rw [lookups_append, lookups_tail, List.flatMap_append, lookups_flatMap, List.flatMap_map,
    List.flatMap_assoc, List.flatMap_congr hpieces]
  exact congrArg (_ ++ ·) (List.append_nil _).symm

end Statements

/-! ## The promise -/

/-- The keys of a body are those that its expansion looks up, so that a list of capabilities is
    accepted if it has all of these. -/
structure Inferred (syn : Syn) (r : Ident) (body : TokenStream) : Prop where
  keys : ∀ name, name ∈ (collectCapabilityKeys syn body).map keyName
    ↔ name ∈ (lookups (expandBlock syn r body)).map keyName
  caps : ∀ envTy explicit, extractKeysFromEnvTy envTy = .ok explicit →
    (validateExplicitCaps envTy (collectCapabilityKeys syn body) = .ok ()
      ↔ ∀ key ∈ lookups (expandBlock syn r body), keyName key ∈ explicit.map keyName)

/-- What only one of both finds, the other finds elsewhere. -/
def Covered (ps : List Place) : Prop :=
  ∀ p ∈ ps, p.1 ≠ .both → ∃ p' ∈ ps, p'.1 ≠ p.1 ∧ keyName p'.2 = keyName p.2

theorem mem_collected {ps : List Place} {name : String} :
    name ∈ (collected ps).map keyName ↔ ∃ p ∈ ps, p.1 ≠ .expansion ∧ keyName p.2 = name := by
  simp [collected, and_assoc]

theorem mem_expanded {ps : List Place} {name : String} :
    name ∈ (expanded ps).map keyName ↔ ∃ p ∈ ps, p.1 ≠ .collector ∧ keyName p.2 = name := by
  simp [expanded, and_assoc]

theorem Covered.find {ps : List Place} (h : Covered ps) {view : View} (hview : view ≠ .both)
    {p : Place} (hp : p ∈ ps) : ∃ p' ∈ ps, p'.1 ≠ view ∧ keyName p'.2 = keyName p.2 := by
  by_cases hsame : p.1 = view
  · subst hsame
    exact h p hp hview
  · exact ⟨p, hp, hsame, rfl⟩

theorem covered_iff (ps : List Place) : Covered ps
    ↔ ∀ name, name ∈ (collected ps).map keyName ↔ name ∈ (expanded ps).map keyName := by
  constructor
  · intro h name
    rw [mem_collected, mem_expanded]
    constructor
    · rintro ⟨p, hp, -, rfl⟩
      exact h.find (by decide) hp
    · rintro ⟨p, hp, -, rfl⟩
      exact h.find (by decide) hp
  · intro h p hp hboth
    cases hview : p.1 with
    | both => exact absurd hview hboth
    | expansion =>
        exact mem_collected.1 ((h _).2 (mem_expanded.2 ⟨p, hp, by simp [hview], rfl⟩))
    | collector =>
        exact mem_expanded.1 ((h _).1 (mem_collected.2 ⟨p, hp, by simp [hview], rfl⟩))

section Main

variable {syn : Syn} {r : Ident} {body : TokenStream}

theorem caps_of_keys
    (h : ∀ name, name ∈ (collectCapabilityKeys syn body).map keyName
      ↔ name ∈ (lookups (expandBlock syn r body)).map keyName)
    {envTy : EnvType} {explicit : List TokenStream}
    (hexplicit : extractKeysFromEnvTy envTy = .ok explicit) :
    validateExplicitCaps envTy (collectCapabilityKeys syn body) = .ok ()
      ↔ ∀ key ∈ lookups (expandBlock syn r body), keyName key ∈ explicit.map keyName := by
  have hall : ∀ keys : List TokenStream, (∀ key ∈ keys, keyName key ∈ explicit.map keyName)
      ↔ ∀ name ∈ keys.map keyName, name ∈ explicit.map keyName :=
    fun keys => List.forall_mem_map.symm
  rw [validate_ok_iff hexplicit, hall, hall]
  exact forall_congr' fun name => imp_congr_left (h name)

end Main

/-- **The keys are inferred** if and only if each key that only the collector or only the expansion
    finds stands in another place where the other one finds it. -/
theorem inferred_iff_covered (syn : Syn) (r : Ident) (body : TokenStream) :
    Inferred syn r body ↔ Covered (bodyPlaces syn r body) := by
  have hcollected : ∀ name, name ∈ (collectCapabilityKeys syn body).map keyName
      ↔ name ∈ (collected (bodyPlaces syn r body)).map keyName := by
    intro name
    rw [collected_bodyPlaces, collectCapabilityKeys, mem_collectKeysRecursive syn r]
    exact or_iff_right List.not_mem_nil
  have hkeys : Covered (bodyPlaces syn r body)
      ↔ ∀ name, name ∈ (collectCapabilityKeys syn body).map keyName
        ↔ name ∈ (lookups (expandBlock syn r body)).map keyName := by
    rw [covered_iff, lookups_expandBlock]
    exact forall_congr' fun name => iff_congr (hcollected name).symm Iff.rfl
  rw [hkeys]
  exact ⟨Inferred.keys, fun h => ⟨h, fun _ _ hexplicit => caps_of_keys h hexplicit⟩⟩

/-! ## A key in an operand -/

/-- A parser that knows only the types that are a single name. -/
def wordSyn : Syn where
  parseType
    | [.ident _] => some .path
    | _ => none
  exprComma _ := false
  exprCommaType _ := false
  parseError _ := "expected a type"
  path_semicolon ts h := by
    split at h
    · simp
    · cases h
  path_closed ts depth h := by
    split at h
    · simp [openAngles, operandStep]
    · cases h

/-- `let x = ~query(~Db); x` looks up `Db`, which is not collected. -/
theorem operand_key_missed : ¬ Inferred wordSyn ⟨"r", false⟩
    [word "let", word "x", .punct '=', .punct '~', word "query",
      .group .parenthesis [.punct '~', word "Db"], .punct ';', word "x"] := by
  intro h
  have hkey := (h.keys (keyName [word "Db"])).2 (List.mem_map_of_mem (by
    simp [expandBlock, splitSemicolons, planStatementChunks, planFrom, emit, word, isSerial,
      chunkHasSerialAttr, desugarIdentTildeBind, parseBindStep, bindDependsOn, growGroup, Ident.is,
      isCapabilityKeyOperand, operandHasTopLevelCall, expandTilde_cons, expandSight, look,
      collectTildeOperand, operandStep, lookups, Out.lookups, Syn.typePath, wordSyn, capIntoBind,
      pathTo, lookups_append]))
  -- the collector does not go into the operand
  simp [collectCapabilityKeys, collectKeysRecursive_cons, collectKeysRecursive, look, word,
    collectTildeOperand, operandStep, isCapabilityKeyOperand, operandHasTopLevelCall] at hkey

end IdEffect.ProcMacro
