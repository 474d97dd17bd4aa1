import IdEffect.ProcMacro.Planned
import IdEffect.ProcMacro.Reach

set_option autoImplicit false

/-! # The operands of binds that are grouped

A bind that is grouped has as its operand what is left of its chunk after the `~`. The expansion of
the same chunk would scan for the operand (`firstBind`), and leave the rest of the chunk as it is.
The two are the same if nothing after the `~` ends the scan, and there is no other `~` in an
annotation (`same_operand_iff`). That `firstBind` finds what `expandTilde` binds is
`expandTilde_firstBind`; it ties the definition to the expansion, and nothing builds on it. -/

namespace IdEffect.ProcMacro

/-! ## In sequence -/

/-- The operand of the first bind of a stream, groups left out, and what comes after it. -/
def firstBind : TokenStream → Option (TokenStream × TokenStream)
  | [] => none
  | t :: ts =>
      match _h : look t ts with
      | (.tilde operand, rest) => some (operand, rest)
      | (_, rest) => firstBind rest
  termination_by ts => streamWeight ts
  decreasing_by
    have hrest := weight_rest t ts
    rwa [_h] at hrest

/-- The operand in what a round sees. -/
def Sight.operand? : Sight → Option TokenStream
  | .tilde operand => some operand
  | .require _ | .group _ _ | .other _ => none

theorem firstBind_nil : firstBind [] = none := by
  rw [firstBind]

theorem firstBind_cons (t : TokenTree) (ts : TokenStream) :
    firstBind (t :: ts) = match (look t ts).1.operand? with
      | some operand => some (operand, (look t ts).2)
      | none => firstBind (look t ts).2 := by
  rw [firstBind]
  generalize look t ts = seen
  obtain ⟨sight, rest⟩ := seen
  cases sight <;> rfl

/-- **The expansion binds that operand**, and goes on after it. -/
theorem expandTilde_firstBind (syn : Syn) (r : Ident) {ts operand rest : TokenStream}
    (h : firstBind ts = some (operand, rest)) : ∃ before,
      expandTilde syn r ts
        = before ++ expandSight syn r (.tilde operand) :: expandTilde syn r rest := by
  induction ts using weightInduction with
  | nil =>
      rw [firstBind_nil] at h
      cases h
  | cons t ts ih =>
      rw [firstBind_cons] at h
      rw [expandTilde_cons]
      generalize hsight : (look t ts).1 = sight at h
      cases sight with
      | tilde op =>
          simp only [Sight.operand?, Option.some.injEq, Prod.mk.injEq] at h
          obtain ⟨rfl, rfl⟩ := h
          exact ⟨[], rfl⟩
      | require args | group d stream | other u =>
          obtain ⟨before, hbefore⟩ := ih _ (weight_rest t ts) h
          exact ⟨_ :: before, by rw [hbefore, List.cons_append]⟩

/-- A `~` after a `=` is the first one if there is none before. -/
theorem firstBind_append {ts us : TokenStream} (h : firstBind ts = none) :
    firstBind (ts ++ .punct '=' :: .punct '~' :: us) = some (collectTildeOperand 0 us) := by
  have htilde : firstBind (.punct '~' :: us) = some (collectTildeOperand 0 us) := by
    rw [firstBind_cons]
    rfl
  induction ts using weightInduction with
  | nil =>
      rw [List.nil_append, firstBind_cons]
      exact htilde
  | cons t ts ih =>
      have hrest := weight_rest t ts
      rw [firstBind_cons] at h
      rw [List.cons_append, firstBind_cons]
      cases look_before (e := .punct '=') (by simp) (by simp) t ts with
      | reaches depth _ alone more =>
          rw [alone] at h
          cases h
      | stays _ more =>
          rw [more]
          cases hop : (look t ts).1.operand? with
          | some operand => simp [hop] at h
          | none =>
              rw [hop] at h
              exact ih _ hrest h
      | takes _ alone more =>
          rw [more]
          exact htilde

/-- Otherwise the first one takes more of the chunk, or leaves more of it. -/
theorem firstBind_length {ts us operand rest : TokenStream} (h : firstBind ts ≠ none)
    (hfirst : firstBind (ts ++ .punct '=' :: us) = some (operand, rest)) :
    us.length < operand.length + rest.length := by
  induction ts using weightInduction with
  | nil => exact absurd firstBind_nil h
  | cons t ts ih =>
      rw [firstBind_cons] at h
      rw [List.cons_append, firstBind_cons] at hfirst
      cases look_before (e := .punct '=') (by simp) (by simp) t ts with
      | reaches depth _ alone more =>
          rw [more] at hfirst
          simp only [Sight.operand?, Option.some.injEq, Prod.mk.injEq] at hfirst
          obtain ⟨rfl, rfl⟩ := hfirst
          have hall := congrArg List.length
            (collectTildeOperand_append (.punct '=' :: us) depth)
          simp only [List.length_append, List.length_cons] at hall ⊢
          omega
      | stays _ more =>
          rw [more] at hfirst
          cases hop : (look t ts).1.operand? with
          | some op =>
              simp only [hop, Option.some.injEq, Prod.mk.injEq] at hfirst
              obtain ⟨-, rfl⟩ := hfirst
              simp only [List.length_append, List.length_cons]
              omega
          | none =>
              rw [hop] at h hfirst
              exact ih _ (weight_rest t ts) h hfirst
      | takes _ alone more =>
          rw [alone] at h
          exact absurd firstBind_nil h

/-! ## What ends an operand -/

def TokenTree.isPunct (c : Char) : TokenTree → Bool
  | .punct d => d == c
  | _ => false

/-- The scan goes on after the token, with so many angles open. -/
def Passes (depth : ℕ) : TokenTree → Prop
  | .group .brace _ => False
  | .punct c => c ∈ [',', ';', '>'] → 0 < depth
  | _ => True

/-- How many angles are open after the tokens. -/
def anglesAfter (depth : ℕ) (ts : TokenStream) : ℕ :=
  depth + ts.countP (·.isPunct '<') - ts.countP (·.isPunct '>')

/-- There is no group in braces, and each `,`, `;` and `>` is in angles. -/
def Enclosed (ts : TokenStream) : Prop :=
  ∀ before t after, ts = before ++ t :: after → Passes (anglesAfter 0 before) t

theorem operandStep_eq (depth : ℕ) (t : TokenTree) :
    (operandStep depth t = none ∧ ¬ Passes depth t)
      ∨ ∃ depth', operandStep depth t = some depth' ∧ Passes depth t
        ∧ ∀ ts, anglesAfter depth (t :: ts) = anglesAfter depth' ts := by
  cases t with
  | ident i | str text | literal text =>
      exact .inr ⟨depth, rfl, trivial, fun ts => rfl⟩
  | group d s =>
      cases d with
      | brace => exact .inl ⟨rfl, id⟩
      | parenthesis | bracket | none => exact .inr ⟨depth, rfl, trivial, fun ts => rfl⟩
  | punct c =>
      by_cases hopen : c = '<'
      · subst hopen
        refine .inr ⟨depth + 1, rfl, by simp [Passes], fun ts => ?_⟩
        simp [anglesAfter, TokenTree.isPunct]
        omega
      · by_cases hclose : c = '>'
        · subst hclose
          by_cases hdepth : depth = 0
          · exact .inl ⟨by simp [operandStep, hdepth], by simp [Passes, hdepth]⟩
          · refine .inr ⟨depth - 1, by simp [operandStep, hdepth],
              fun _ => Nat.pos_of_ne_zero hdepth, fun ts => ?_⟩
            simp [anglesAfter, TokenTree.isPunct]
            omega
        · have hangles : ∀ ts, anglesAfter depth (.punct c :: ts) = anglesAfter depth ts := by
            intro ts
            simp [anglesAfter, TokenTree.isPunct, hopen, hclose]
          by_cases hstop : c = ',' ∨ c = ';'
          · by_cases hdepth : depth = 0
            · refine .inl ⟨?_, ?_⟩
              · rcases hstop with rfl | rfl <;> simp [operandStep, hdepth]
              · rcases hstop with rfl | rfl <;> simp [Passes, hdepth]
            · refine .inr ⟨depth, ?_, fun _ => Nat.pos_of_ne_zero hdepth, hangles⟩
              rcases hstop with rfl | rfl <;> simp [operandStep, hdepth]
          · rw [not_or] at hstop
            refine .inr ⟨depth, ?_, by simp [Passes, hstop, hclose], hangles⟩
            unfold operandStep
            split <;> simp_all

theorem openAngles_ne_none_iff (ts : TokenStream) : ∀ depth : ℕ, openAngles depth ts ≠ none ↔
    ∀ before t after, ts = before ++ t :: after → Passes (anglesAfter depth before) t := by
  induction ts with
  | nil => exact fun depth => iff_of_true (by simp [openAngles]) (by simp)
  | cons u ts ih =>
      intro depth
      rw [openAngles]
      obtain ⟨hstep, hends⟩ | ⟨depth', hstep, hpasses, hangles⟩ := operandStep_eq depth u
      · rw [hstep]
        refine iff_of_false (by simp) fun hall => hends ?_
        exact hall [] u ts rfl
      · rw [hstep]
        refine (ih depth').trans
          ⟨fun hall before t after hts => ?_, fun hall before t after hts => ?_⟩
        · cases before with
          | nil =>
              obtain ⟨rfl, -⟩ := List.cons.inj hts
              exact hpasses
          | cons v before =>
              obtain ⟨rfl, htail⟩ := List.cons.inj hts
              rw [hangles]
              exact hall before t after htail
        · rw [← hangles]
          exact hall (u :: before) t after (congrArg (u :: ·) hts)

/-- **The scan takes all of the operand** if and only if nothing in it ends the scan. -/
theorem collectTildeOperand_eq_iff (ts : TokenStream) :
    collectTildeOperand 0 ts = (ts, []) ↔ Enclosed ts := by
  rw [Enclosed, ← openAngles_ne_none_iff]
  have hrest : ∀ (us : TokenStream) (depth : ℕ), openAngles depth us = none →
      (collectTildeOperand depth us).2 ≠ [] := by
    intro us
    induction us with
    | nil =>
        intro depth h
        cases h
    | cons t us ih =>
        intro depth h
        rw [openAngles] at h
        rw [collectTildeOperand]
        cases hstep : operandStep depth t with
        | none => simp
        | some depth' =>
            rw [hstep] at h
            exact ih depth' h
  constructor
  · intro hall hnone
    exact hrest ts 0 hnone (congrArg Prod.snd hall)
  · intro h
    obtain ⟨depth, hopen⟩ := Option.ne_none_iff_exists'.1 h
    exact collect_all hopen

/-! ## Grouped binds -/

/-- What stands between the name and the `=` of a bind. -/
def annotationOf (chunk : TokenStream) : TokenStream :=
  match desugarIdentTildeBind chunk with
  | _ :: _ :: .punct ':' :: ts =>
      let skipped := skipAnnotation 0 ts
      ts.take (ts.length - skipped.length)
  | _ => []

/-- What stands after the `~` of a bind. -/
def afterTilde (chunk : TokenStream) : TokenStream :=
  match desugarIdentTildeBind chunk with
  | _ :: _ :: .punct ':' :: ts => List.drop 2 <| skipAnnotation 0 ts
  | _ :: _ :: ts => ts.drop 2
  | _ => []

/-- All of the chunk is the bind of what stands after its `~`. -/
structure Delimited (chunk : TokenStream) : Prop where
  annotation : firstBind (annotationOf chunk) = none
  operand : Enclosed (afterTilde chunk)

section Planner

variable (typePath : TokenStream → Bool)

/-- The chunk is placed in a set, as this step. -/
def Grouped (chunks : List TokenStream) (chunk : TokenStream) (step : BindStep) : Prop :=
  (chunk, .step step) ∈ (chunks.filter fun c => !c.isEmpty).zip
    ((planStatementChunks typePath chunks).flatMap StmtPlan.parts)

variable {typePath}

theorem skipAnnotation_suffix (ts : TokenStream) : ∀ depth,
    ∃ before, ts = before ++ skipAnnotation depth ts := by
  induction ts with
  | nil => exact fun depth => ⟨[], rfl⟩
  | cons t ts ih =>
      intro depth
      unfold skipAnnotation
      split
      · next h => cases h
      · next h =>
          obtain ⟨rfl, rfl⟩ := List.cons.inj h
          obtain ⟨before, hts⟩ := ih _
          exact ⟨.punct '<' :: before, congrArg (_ :: ·) hts⟩
      · next depth _ h =>
          obtain ⟨rfl, rfl⟩ := List.cons.inj h
          obtain ⟨before, hts⟩ := ih depth
          exact ⟨.punct '>' :: before, congrArg (_ :: ·) hts⟩
      · next h => exact ⟨[], h⟩
      · next h =>
          obtain ⟨rfl, rfl⟩ := List.cons.inj h
          obtain ⟨before, hts⟩ := ih _
          exact ⟨t :: before, congrArg (_ :: ·) hts⟩

/-- A bind that was parsed. -/
theorem parsed_bind {chunk : TokenStream} {step : BindStep}
    (h : parseBindStep typePath (desugarIdentTildeBind chunk) = some step) :
    afterTilde chunk = step.operand
      ∧ firstBind (desugarIdentTildeBind chunk)
        = firstBind (annotationOf chunk ++ .punct '=' :: .punct '~' :: step.operand) := by
  have hcase : ParseCase typePath _ step := parse_case h
  have hlet : ∀ (t : TokenTree) (ts : TokenStream), t ≠ .punct '!' →
      firstBind (word "let" :: .ident step.var :: t :: ts) = firstBind (t :: ts) := by
    intro t ts ht
    have hname : look (.ident step.var) (t :: ts) = (.other (.ident step.var), t :: ts) := by
      unfold look
      split <;> simp_all
    rw [firstBind_cons]
    refine Eq.trans (firstBind_cons _ _) ?_
    rw [hname]
    rfl
  rw [afterTilde, annotationOf]
  generalize desugarIdentTildeBind chunk = bind at hcase
  cases hcase with
  | plain hkey => exact ⟨rfl, hlet _ _ (by simp)⟩
  | @annotated _ ts hskip hkey =>
      obtain ⟨before, hts⟩ := skipAnnotation_suffix ts 0
      rw [hskip] at hts
      have hcolon : firstBind (.punct ':' :: ts) = firstBind ts := firstBind_cons _ _
      refine ⟨congrArg (List.drop 2) hskip, ?_⟩
      rw [hlet _ _ (by simp), hcolon]
      simp only [word, hskip, List.length_cons]
      subst hts
      simp

/-- What is placed in a set was parsed from its chunk. -/
theorem parse_of_grouped {chunks : List TokenStream} {chunk : TokenStream} {step : BindStep}
    (h : Grouped typePath chunks chunk step) :
    parseBindStep typePath (desugarIdentTildeBind chunk) = some step := by
  let pieces := cut [] (slots typePath [] chunks)
  have hchunks : pieces.flatMap Piece.chunks = chunks.filter fun c => !c.isEmpty :=
    chunks_cut chunks [] []
  have hsets : ∀ fs, .set fs ∈ pieces →
      fs ≠ [] ∧ fs.length ≤ maxParallelBinds ∧ SetOk typePath fs :=
    cut_ok chunks [] [] setOk_nil (by decide) fun _ h => absurd h List.not_mem_nil
  let Parsed : TokenStream → Part → Prop := fun chunk part => ∀ step, part = .step step →
    parseBindStep typePath (desugarIdentTildeBind chunk) = some step
  have hall : List.Forall₂ Parsed (chunks.filter fun c => !c.isEmpty)
      ((planStatementChunks typePath chunks).flatMap StmtPlan.parts) := by
    rw [plan_eq_cut, ← hchunks, List.flatMap_map, forall₂_flatMap Piece.length_parts]
    intro p hp
    match p, hp with
    | .alone c, _ => exact .cons nofun .nil
    | .set [], _ => exact absurd rfl (hsets _ ‹_›).1
    | .set [f], _ => exact .cons nofun .nil
    | .set (f :: g :: fs), hp =>
        obtain ⟨-, -, hok⟩ := hsets _ hp
        rw [set_plan, StmtPlan.parts, List.map_map, Piece.chunks, List.forall₂_map_left_iff,
          List.forall₂_map_right_iff, List.forall₂_same]
        rintro x hx step hstep
        cases hstep
        exact (hok.ok x hx).parse
  exact (List.forall₂_iff_zip.1 hall).2 h step rfl

/-- **A bind that is grouped has the operand that it has in sequence** if and only if all of its
    chunk is the bind of what stands after the `~`. -/
theorem same_operand_iff {chunks : List TokenStream} {chunk : TokenStream} {step : BindStep}
    (h : Grouped typePath chunks chunk step) :
    firstBind (desugarIdentTildeBind chunk) = some (step.operand, []) ↔ Delimited chunk := by
  obtain ⟨hafter, hfirst⟩ := parsed_bind (parse_of_grouped h)
  rw [hfirst]
  constructor
  · intro hsame
    have hfirstBind : firstBind (annotationOf chunk) = none := by
      by_contra hne
      have hlength := firstBind_length hne hsame
      simp only [List.length_cons, List.length_nil] at hlength
      omega
    rw [firstBind_append hfirstBind] at hsame
    exact ⟨hfirstBind, hafter ▸ (collectTildeOperand_eq_iff _).1 (Option.some.inj hsame)⟩
  · intro hdel
    rw [firstBind_append hdel.annotation, ← hafter, (collectTildeOperand_eq_iff _).2 hdel.operand]

end Planner

/-- `let big = ~count() > 3` -/
def comparing : BindStep :=
  ⟨⟨"big", false⟩, [word "count", .group .parenthesis [], .punct '>', .literal "3"]⟩

/-- `let y = ~f()` -/
def calling : BindStep := ⟨⟨"y", false⟩, [word "f", .group .parenthesis []]⟩

theorem grouped_pair : Grouped (fun _ => false) [comparing.tokens, calling.tokens]
      comparing.tokens comparing ∧
    Grouped (fun _ => false) [comparing.tokens, calling.tokens] calling.tokens calling := by
  have hplan : planStatementChunks (fun _ => false) [comparing.tokens, calling.tokens]
      = [.parallelSet [comparing, calling]] := rfl
  rw [Grouped, Grouped, hplan]
  exact ⟨List.mem_cons_self, List.mem_cons_of_mem _ List.mem_cons_self⟩

theorem same_operand_call :
    Grouped (fun _ => false) [comparing.tokens, calling.tokens] calling.tokens calling ∧
      (firstBind (desugarIdentTildeBind calling.tokens) = some (calling.operand, [])
        ↔ Delimited calling.tokens) :=
  ⟨grouped_pair.2, same_operand_iff grouped_pair.2⟩

/-- With a bind beside it, `count() > 3` is taken for the operand; alone, the scan stops before `>`,
    and what is bound is compared. -/
theorem comparison_taken : ¬ ∀ (chunks : List TokenStream) (chunk : TokenStream) (step : BindStep),
    Grouped (fun _ => false) chunks chunk step →
      firstBind (desugarIdentTildeBind chunk) = some (step.operand, []) := by
  intro hall
  have hscan : firstBind (desugarIdentTildeBind comparing.tokens)
      = some ([word "count", .group .parenthesis []], [.punct '>', .literal "3"]) := by
    rw [(parsed_bind (parse_of_grouped grouped_pair.1)).2]
    exact firstBind_append firstBind_nil
  rw [hall _ _ _ grouped_pair.1] at hscan
  have hrest := congrArg Prod.snd (Option.some.inj hscan)
  cases hrest

end IdEffect.ProcMacro
