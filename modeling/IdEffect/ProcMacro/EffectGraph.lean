import Mathlib.Data.List.Forall2
import IdEffect.ProcMacro.Tokens

set_option autoImplicit false

/-! # Planning the binds of an `effect!` body: `effect_graph.rs`

Consecutive binds whose operands do not mention what was bound before are put into sets of at most
four, which are run at once. The planner goes through the chunks with two cursors; seen from the
chunks, each is to be left alone, or is a bind that may be grouped (`slots`), and stretches of those
are cut into fours (`plan_eq_cut`).

Nothing gets lost, and no bind is grouped with one it visibly depends on. What the planner does not
see are names in string literals and in the other spelling, with or without `r#`; it does not
compare what the binds of a set bind; and it forgets the type annotations of those it groups. A plan
is as it should be exactly if none of this matters in any set (`planned_iff_apart`). -/

namespace IdEffect.ProcMacro

def maxParallelBinds : ℕ := 4

structure BindStep where
  var : Ident
  operand : TokenStream

inductive StmtPlan where
  | parallelSet (steps : List BindStep)
  | sequential (chunk : TokenStream)

/-! ## The planner -/

/-- `name ~ rest` at the start of a chunk is `let name = ~ rest`. -/
def desugarIdentTildeBind : TokenStream → TokenStream
  | .ident name :: .punct '~' :: rest =>
      word "let" :: .ident name :: .punct '=' :: .punct '~' :: rest
  | chunk => chunk

def operandHasTopLevelCall : ℕ → TokenStream → Bool
  | _, [] => false
  | 0, .group .parenthesis _ :: _ => true
  | depth, .punct '<' :: ts => operandHasTopLevelCall (depth + 1) ts
  | depth + 1, .punct '>' :: ts => operandHasTopLevelCall depth ts
  | depth, _ :: ts => operandHasTopLevelCall depth ts

/-- What follows the annotation of a bind, from the `=` on. -/
def skipAnnotation : ℕ → TokenStream → TokenStream
  | _, [] => []
  | depth, .punct '<' :: ts => skipAnnotation (depth + 1) ts
  | depth + 1, .punct '>' :: ts => skipAnnotation depth ts
  | 0, .punct '=' :: ts => .punct '=' :: ts
  | depth, _ :: ts => skipAnnotation depth ts

def chunkHasSerialAttr : TokenStream → Bool
  | .punct '#' :: .group .bracket attr :: ts =>
      streamText [' ', '\n', '\t'] attr == "effect(serial)" || chunkHasSerialAttr ts
  | .punct '#' :: .group _ _ :: ts => chunkHasSerialAttr ts
  | .punct '#' :: _ => false
  | .group _ _ :: ts => chunkHasSerialAttr ts
  | _ => false

def bindDependsOn (step : BindStep) (prior : List Ident) : Bool :=
  prior.any fun name => tokensReferenceIdent name step.operand

section Planner

-- whether an operand can be read as the path of a type, without a qualified self
variable (typePath : TokenStream → Bool)

def isCapabilityKeyOperand (operand : TokenStream) : Bool :=
  !operandHasTopLevelCall 0 operand && typePath operand

def parseBindStep (chunk : TokenStream) : Option BindStep :=
  if chunk.length < 4 then none
  else
    match chunk with
    | .ident letKw :: .ident var :: rest =>
        if letKw.is "let" then
          match (match rest with
            | .punct ':' :: ts => skipAnnotation 0 ts
            | ts => ts) with
          | .punct '=' :: .punct '~' :: operand =>
              if isCapabilityKeyOperand typePath operand then none else some ⟨var, operand⟩
          | _ => none
        else none
    | _ => none

/-- The chunk, as written or desugared, carries `#[effect(serial)]`. -/
def isSerial (chunk : TokenStream) : Bool :=
  chunkHasSerialAttr chunk || chunkHasSerialAttr (desugarIdentTildeBind chunk)

/-- The inner loop: the group grows until something stops it. What is left is where `j` points to.
-/
def growGroup (bound : List Ident) :
    List BindStep → List TokenStream → List BindStep × List TokenStream
  | group, [] => (group, [])
  | group, next :: rest =>
      if next.isEmpty || isSerial next then (group, next :: rest)
      else
        match parseBindStep typePath (desugarIdentTildeBind next) with
        | none => (group, next :: rest)
        | some step =>
            if bindDependsOn step (bound ++ group.map BindStep.var) then (group, next :: rest)
            else if group.length + 1 = maxParallelBinds then (group ++ [step], rest)
            else growGroup bound (group ++ [step]) rest

/-- The outer loop; each round consumes a chunk, and the fuel is their number. -/
def planFrom : ℕ → List Ident → List TokenStream → List StmtPlan
  | 0, _, _ => []
  | _ + 1, _, [] => []
  | fuel + 1, bound, chunk :: rest =>
      if chunk.isEmpty then planFrom fuel bound rest
      else
        let parsed := parseBindStep typePath (desugarIdentTildeBind chunk)
        if isSerial chunk then
          .sequential chunk :: planFrom fuel (bound ++ parsed.toList.map BindStep.var) rest
        else
          match parsed with
          | none => .sequential chunk :: planFrom fuel bound rest
          | some step0 =>
              if bindDependsOn step0 bound then
                .sequential chunk :: planFrom fuel (bound ++ [step0.var]) rest
              else
                let grown := growGroup typePath bound [step0] rest
                if 2 ≤ grown.1.length then
                  .parallelSet grown.1
                    :: planFrom fuel (bound ++ grown.1.map BindStep.var) grown.2
                else .sequential chunk :: planFrom fuel (bound ++ [step0.var]) rest

def planStatementChunks (chunks : List TokenStream) : List StmtPlan :=
  planFrom typePath chunks.length [] chunks

/-! ## The chunks, one by one -/

/-- A bind that may be grouped, with its chunk. -/
structure Free where
  chunk : TokenStream
  step : BindStep

def Free.var (f : Free) : Ident := f.step.var

inductive Slot where
  | gap
  | alone (chunk : TokenStream)
  | free (f : Free)

/-- The name a chunk binds, if it is a bind. -/
def boundBy (chunk : TokenStream) : List Ident :=
  (parseBindStep typePath (desugarIdentTildeBind chunk)).toList.map BindStep.var

/-- What a chunk is, after others that have bound the names in `bound`. -/
def slot (bound : List Ident) (chunk : TokenStream) : Slot :=
  if chunk.isEmpty then .gap
  else if isSerial chunk then .alone chunk
  else
    match parseBindStep typePath (desugarIdentTildeBind chunk) with
    | none => .alone chunk
    | some step => if bindDependsOn step bound then .alone chunk else .free ⟨chunk, step⟩

def slots : List Ident → List TokenStream → List Slot
  | _, [] => []
  | bound, chunk :: rest =>
      slot typePath bound chunk :: slots (bound ++ boundBy typePath chunk) rest

end Planner

/-- A chunk that is left alone, or binds that come one after the other. -/
inductive Piece where
  | alone (chunk : TokenStream)
  | set (fs : List Free)

def Piece.plan : Piece → StmtPlan
  | .alone chunk => .sequential chunk
  | .set [f] => .sequential f.chunk
  | .set fs => .parallelSet (fs.map Free.step)

def Piece.chunks : Piece → List TokenStream
  | .alone chunk => [chunk]
  | .set fs => fs.map Free.chunk

/-- The set that has been waiting, if there is one. -/
def waiting : List Free → List Piece
  | [] => []
  | fs => [.set fs]

/-- Stretches of binds are cut into fours. -/
def cut : List Free → List Slot → List Piece
  | fs, [] => waiting fs
  | fs, .gap :: rest => waiting fs ++ cut [] rest
  | fs, .alone chunk :: rest => waiting fs ++ .alone chunk :: cut [] rest
  | fs, .free f :: rest =>
      if fs.length + 1 = maxParallelBinds then .set (fs ++ [f]) :: cut [] rest
      else cut (fs ++ [f]) rest

section Planner

variable {typePath : TokenStream → Bool}

/-- A chunk is nothing, or left alone, or a bind that nothing speaks against. -/
inductive SlotCase (typePath : TokenStream → Bool) (bound : List Ident) (chunk : TokenStream) :
    Slot → Prop
  | gap (h : chunk = []) : SlotCase typePath bound chunk .gap
  | alone (h : chunk ≠ []) : SlotCase typePath bound chunk (.alone chunk)
  | free {step : BindStep} (h : chunk ≠ []) (hserial : isSerial chunk = false)
      (hparse : parseBindStep typePath (desugarIdentTildeBind chunk) = some step)
      (hfree : bindDependsOn step bound = false) :
      SlotCase typePath bound chunk (.free ⟨chunk, step⟩)

theorem slot_case (bound : List Ident) (chunk : TokenStream) :
    SlotCase typePath bound chunk (slot typePath bound chunk) := by
  rw [slot]
  split
  · next hempty => exact .gap (List.isEmpty_iff.1 hempty)
  · next hempty =>
      rw [List.isEmpty_iff] at hempty
      split
      · exact .alone hempty
      · next hserial =>
          split
          · exact .alone hempty
          · next step hparse =>
              split
              · exact .alone hempty
              · next hfree =>
                  exact .free hempty (Bool.eq_false_iff.2 hserial) hparse
                    (Bool.eq_false_iff.2 hfree)

/-- The inner loop takes the next chunk if it is free after the group, and stops otherwise. -/
theorem growGroup_cons (bound : List Ident) (fs : List Free) (next : TokenStream)
    (rest : List TokenStream) :
    growGroup typePath bound (fs.map Free.step) (next :: rest)
      = match slot typePath (bound ++ fs.map Free.var) next with
        | .free f =>
            if fs.length + 1 = maxParallelBinds then ((fs ++ [f]).map Free.step, rest)
            else growGroup typePath bound ((fs ++ [f]).map Free.step) rest
        | _ => (fs.map Free.step, next :: rest) := by
  have hvars : (fs.map Free.step).map BindStep.var = fs.map Free.var := List.map_map
  rw [growGroup, slot, hvars, List.length_map]
  cases hempty : next.isEmpty with
  | true => rfl
  | false =>
      cases hserial : isSerial next with
      | true => rfl
      | false =>
          cases hp : parseBindStep typePath (desugarIdentTildeBind next) with
          | none => rfl
          | some step =>
              cases hd : bindDependsOn step (bound ++ fs.map Free.var) with
              | true => simp [hd]
              | false => simp [hd]

theorem boundBy_of_free {bound : List Ident} {chunk : TokenStream} {f : Free}
    (h : slot typePath bound chunk = .free f) : boundBy typePath chunk = [f.var] := by
  have hcase : SlotCase typePath bound chunk _ := slot_case bound chunk
  rw [h] at hcase
  cases hcase with
  | free _ _ hparse _ =>
      rw [boundBy, hparse]
      rfl

/-- The inner loop has made `gs` of the group `fs`: what comes next is cut into `gs` and what
    follows from where the loop has stopped. -/
structure Grown (typePath : TokenStream → Bool) (bound : List Ident) (fs : List Free)
    (rest : List TokenStream) (gs : List Free) : Prop where
  steps : (growGroup typePath bound (fs.map Free.step) rest).1 = gs.map Free.step
  starts : fs <+: gs
  left : gs = fs → (growGroup typePath bound (fs.map Free.step) rest).2 = rest
  le : (growGroup typePath bound (fs.map Free.step) rest).2.length ≤ rest.length
  cut : cut fs (slots typePath (bound ++ fs.map Free.var) rest)
    = .set gs :: cut [] (slots typePath (bound ++ gs.map Free.var)
        (growGroup typePath bound (fs.map Free.step) rest).2)

theorem waiting_of_ne_nil {fs : List Free} (h : fs ≠ []) : waiting fs = [.set fs] := by
  cases fs with
  | nil => exact absurd rfl h
  | cons f fs => rfl

theorem cut_of_not_free {fs : List Free} (hfs : fs ≠ []) {s : Slot} (hs : ∀ f, s ≠ .free f)
    (l : List Slot) : cut fs (s :: l) = .set fs :: cut [] (s :: l) := by
  cases s with
  | gap => exact congrArg (· ++ cut [] l) (waiting_of_ne_nil hfs)
  | alone chunk => exact congrArg (· ++ .alone chunk :: cut [] l) (waiting_of_ne_nil hfs)
  | free f => exact absurd rfl (hs f)

theorem exists_grown (bound : List Ident) (rest : List TokenStream) : ∀ {fs : List Free}, fs ≠ [] →
    ∃ gs, Grown typePath bound fs rest gs := by
  induction rest with
  | nil => exact fun hfs => ⟨_, rfl, List.prefix_rfl, fun _ => rfl, Nat.le_refl _,
      waiting_of_ne_nil hfs⟩
  | cons next rest ih =>
      intro fs hfs
      have hgrow : growGroup typePath bound (fs.map Free.step) (next :: rest) = _ :=
        growGroup_cons bound fs next rest
      cases hslot : slot typePath (bound ++ fs.map Free.var) next with
      | gap | alone chunk =>
          simp only [hslot] at hgrow
          refine ⟨fs, by rw [hgrow], List.prefix_rfl, fun _ => by rw [hgrow], ?_, ?_⟩
          · exact Nat.le_of_eq (by rw [hgrow])
          · rw [hgrow, slots]
            exact cut_of_not_free hfs (fun f hf => by rw [hslot] at hf; cases hf) _
      | free f =>
          simp only [hslot] at hgrow
          have hvars : bound ++ fs.map Free.var ++ boundBy typePath next
              = bound ++ (fs ++ [f]).map Free.var := by
            rw [boundBy_of_free hslot, List.map_append, List.append_assoc]
            rfl
          have hne : ∀ {gs : List Free}, fs ++ [f] <+: gs → gs ≠ fs := by
            rintro gs ⟨more, hgs⟩ rfl
            have := congrArg List.length hgs
            simp at this
          by_cases hfull : fs.length + 1 = maxParallelBinds
          · rw [if_pos hfull] at hgrow
            refine ⟨fs ++ [f], by rw [hgrow], ⟨[f], rfl⟩, fun h => absurd h (hne List.prefix_rfl),
              ?_, ?_⟩
            · rw [hgrow]
              exact Nat.le_succ _
            · rw [hgrow, slots, hslot, cut, if_pos hfull, hvars]
          · rw [if_neg hfull] at hgrow
            obtain ⟨gs, hgs⟩ : ∃ gs, Grown typePath bound (fs ++ [f]) rest gs := ih (by simp)
            refine ⟨gs, by rw [hgrow]; exact hgs.steps,
              (List.prefix_append fs [f]).trans hgs.starts,
              fun h => absurd h (hne hgs.starts), ?_, ?_⟩
            · rw [hgrow]
              exact Nat.le_succ_of_le hgs.le
            · rw [hgrow, slots, hslot, cut, if_neg hfull, hvars]
              exact hgs.cut

theorem planFrom_cons (fuel : ℕ) (bound : List Ident) (chunk : TokenStream)
    (rest : List TokenStream) :
    planFrom typePath (fuel + 1) bound (chunk :: rest)
      = match slot typePath bound chunk with
        | .gap => planFrom typePath fuel bound rest
        | .alone chunk =>
            .sequential chunk :: planFrom typePath fuel (bound ++ boundBy typePath chunk) rest
        | .free f =>
            let grown := growGroup typePath bound [f.step] rest
            if 2 ≤ grown.1.length then
              .parallelSet grown.1
                :: planFrom typePath fuel (bound ++ grown.1.map BindStep.var) grown.2
            else .sequential chunk :: planFrom typePath fuel (bound ++ [f.var]) rest := by
  rw [planFrom, slot]
  cases hempty : chunk.isEmpty with
  | true => rfl
  | false =>
      cases hserial : isSerial chunk with
      | true => rfl
      | false =>
          cases hp : parseBindStep typePath (desugarIdentTildeBind chunk) with
          | none => simp [boundBy, hp]
          | some step =>
              cases hd : bindDependsOn step bound with
              | true => simp [boundBy, hp, hd]
              | false => simp [hd, Free.var]

/-- **The planner cuts the chunks into pieces.** -/
theorem planFrom_eq : ∀ (fuel : ℕ) (bound : List Ident) (chunks : List TokenStream),
    chunks.length ≤ fuel →
    planFrom typePath fuel bound chunks
      = (cut [] (slots typePath bound chunks)).map Piece.plan := by
  intro fuel
  induction fuel with
  | zero =>
      intro bound chunks h
      obtain rfl := List.eq_nil_of_length_eq_zero (Nat.le_zero.1 h)
      rfl
  | succ fuel ih =>
      intro bound chunks h
      cases chunks with
      | nil => rfl
      | cons chunk rest =>
          have hrest : rest.length ≤ fuel := Nat.le_of_succ_le_succ h
          have hcase : SlotCase typePath bound chunk _ := slot_case bound chunk
          rw [planFrom_cons, slots]
          cases hslot : slot typePath bound chunk with
          | gap =>
              rw [hslot] at hcase
              obtain ⟨rfl⟩ := hcase
              simp only [ih bound rest hrest]
              rw [show boundBy typePath [] = [] from rfl, List.append_nil]
              rfl
          | alone c =>
              rw [hslot] at hcase
              cases hcase with
              | alone _ =>
                  simp only [ih _ rest hrest]
                  rfl
          | free f =>
              rw [hslot] at hcase
              obtain ⟨gs, hgs⟩ : ∃ gs, Grown typePath bound [f] rest gs :=
                exists_grown bound rest (by simp)
              have hsteps : (growGroup typePath bound [f.step] rest).1 = gs.map Free.step :=
                hgs.steps
              have hcut : cut [] (.free f :: slots typePath (bound ++ [f.var]) rest)
                  = .set gs :: cut [] (slots typePath (bound ++ gs.map Free.var)
                    (growGroup typePath bound [f.step] rest).2) := hgs.cut
              have hle : (growGroup typePath bound [f.step] rest).2.length ≤ rest.length := hgs.le
              have hleft : gs = [f] → (growGroup typePath bound [f.step] rest).2 = rest := hgs.left
              rw [boundBy_of_free hslot, hcut]
              simp only [hsteps, List.length_map]
              split
              · next hlen =>
                  have hvars : (gs.map Free.step).map BindStep.var = gs.map Free.var :=
                    List.map_map
                  rw [hvars, List.map_cons, ← ih _ _ (Nat.le_trans hle hrest)]
                  cases gs with
                  | nil => simp at hlen
                  | cons g gs =>
                      cases gs with
                      | nil => simp at hlen
                      | cons g' gs => rfl
              · next hlen =>
                  have hgs' : gs = [f] := by
                    obtain ⟨more, rfl⟩ := hgs.starts
                    simp at hlen
                    simp [hlen]
                  subst hgs'
                  rw [hleft rfl, ih _ rest hrest]
                  cases hcase with
                  | free _ _ _ _ => rfl

theorem plan_eq_cut (chunks : List TokenStream) :
    planStatementChunks typePath chunks = (cut [] (slots typePath [] chunks)).map Piece.plan :=
  planFrom_eq _ [] chunks (Nat.le_refl _)

end Planner

end IdEffect.ProcMacro
