import IdEffect.ProcMacro.Lookups

set_option autoImplicit false

/-! # How far operands reach

The expansion goes through a body chunk by chunk, and the collector through all of it, where an
operand with an open angle does not end at a semicolon but goes on into the next statements. What
is found in a body is what is found in its chunks, if it is kept how many angles are open
(`found_split`). -/

namespace IdEffect.ProcMacro

/-! ## Operands that go on -/

section Operands

variable {ts us : TokenStream} {depth depth' : ℕ}

theorem collect_open (h : openAngles depth ts = some depth') :
    collectTildeOperand depth (ts ++ us)
      = (ts ++ (collectTildeOperand depth' us).1, (collectTildeOperand depth' us).2) := by
  induction ts generalizing depth with
  | nil =>
      obtain rfl := Option.some.inj h
      rfl
  | cons t ts ih =>
      rw [openAngles] at h
      rw [List.cons_append, collectTildeOperand]
      cases hstep : operandStep depth t with
      | none =>
          rw [hstep] at h
          cases h
      | some d =>
          rw [hstep] at h
          simp only
          rw [ih h]
          rfl

theorem collect_closed (h : openAngles depth ts = none) :
    collectTildeOperand depth (ts ++ us)
      = ((collectTildeOperand depth ts).1, (collectTildeOperand depth ts).2 ++ us) := by
  induction ts generalizing depth with
  | nil => cases h
  | cons t ts ih =>
      rw [openAngles] at h
      rw [List.cons_append, collectTildeOperand, collectTildeOperand]
      cases hstep : operandStep depth t with
      | none => rfl
      | some d =>
          rw [hstep] at h
          simp only
          rw [ih h]

theorem collect_all (h : openAngles depth ts = some depth') :
    collectTildeOperand depth ts = (ts, []) := by
  have hall : collectTildeOperand depth (ts ++ []) = _ := collect_open h
  rwa [List.append_nil, collectTildeOperand, List.append_nil] at hall

theorem openAngles_append (h : openAngles depth ts = some depth') :
    openAngles depth (ts ++ us) = openAngles depth' us := by
  induction ts generalizing depth with
  | nil =>
      obtain rfl := Option.some.inj h
      rfl
  | cons t ts ih =>
      rw [openAngles] at h
      rw [List.cons_append, openAngles]
      cases hstep : operandStep depth t with
      | none =>
          rw [hstep] at h
          cases h
      | some d =>
          rw [hstep] at h
          exact ih h

theorem openAngles_closed (h : openAngles depth ts = none) :
    openAngles depth (ts ++ us) = none := by
  induction ts generalizing depth with
  | nil => cases h
  | cons t ts ih =>
      rw [openAngles] at h
      rw [List.cons_append, openAngles]
      cases hstep : operandStep depth t with
      | none => rfl
      | some d =>
          rw [hstep] at h
          exact ih h

end Operands

/-- What is left of a stream in which an operand goes on. -/
def resume (depth : ℕ) (ts : TokenStream) : TokenStream :=
  if depth = 0 then ts else (collectTildeOperand depth ts).2

/-- The angles that an operand leaves open, if it starts here and reaches the end. -/
def openTilde : TokenTree → TokenStream → Option ℕ
  | .punct '~', ts => openAngles 0 ts
  | _, _ => none

/-- How many angles an operand has left open at the end of a stream. -/
def leftOpen : TokenStream → ℕ
  | [] => 0
  | t :: ts =>
      match openTilde t ts with
      | some depth => depth
      | none => leftOpen (look t ts).2
  termination_by ts => streamWeight ts
  decreasing_by exact weight_rest t ts

/-- The same, when an operand goes on at its start. -/
def leftOpenFrom (depth : ℕ) (ts : TokenStream) : ℕ :=
  if depth = 0 then leftOpen ts
  else
    match openAngles depth ts with
    | some depth => depth
    | none => leftOpen (collectTildeOperand depth ts).2

/-! ## The ends of statements -/

/-- How a round goes that starts before the end of a statement, which is `e`. -/
inductive LookEnd (e t : TokenTree) (ts : TokenStream) : Prop
  /-- An operand reaches the end. -/
  | reaches (depth : ℕ) (h : openTilde t ts = some depth) (alone : look t ts = (.tilde ts, []))
      (more : ∀ us, look t (ts ++ e :: us)
        = (.tilde (ts ++ (collectTildeOperand depth (e :: us)).1),
          (collectTildeOperand depth (e :: us)).2))
  | stays (h : openTilde t ts = none)
      (more : ∀ us, look t (ts ++ e :: us) = ((look t ts).1, (look t ts).2 ++ e :: us))
  /-- `require!` takes the end for what should be in parentheses. -/
  | takes (h : openTilde t ts = none) (alone : look t ts = (.require none, []))
      (more : ∀ us, look t (ts ++ e :: us) = (.require none, us))

def TokenTree.isEnd : TokenTree → Bool
  | .punct ';' | .group .brace _ => true
  | _ => false

/-- A round before a token that is not read together with what comes before it. -/
theorem look_before {e : TokenTree} (hbang : e ≠ .punct '!')
    (hargs : ∀ s, e ≠ .group .parenthesis s) (t : TokenTree) (ts : TokenStream) :
    LookEnd e t ts := by
  cases t with
  | str text | literal text | group d stream => exact .stays rfl fun _ => rfl
  | punct c =>
      by_cases hc : c = '~'
      · subst hc
        cases hopen : openTilde (.punct '~') ts with
        | none => exact .stays hopen fun us => by rw [look, look, collect_closed hopen]
        | some depth =>
            exact .reaches depth hopen (by rw [look, collect_all hopen])
              fun us => by rw [look, collect_open hopen]
      · have hother : ∀ us, look (.punct c) us = (.other (.punct c), us) := by
          intro us
          unfold look
          split <;> simp_all
        refine .stays ?_ fun us => by rw [hother, hother]
        unfold openTilde
        split <;> simp_all
  | ident i =>
      cases ts with
      | nil =>
          refine .stays rfl fun us => ?_
          cases e with
          | punct c =>
              have hc : c ≠ '!' := by
                rintro rfl
                exact hbang rfl
              unfold look
              split <;> simp_all
          | group _ _ | ident _ | str _ | literal _ => rfl
      | cons u ts =>
          by_cases hu : u = .punct '!'
          · subst hu
            cases hreq : i.is "require" with
            | false => exact .stays rfl fun us => by simp [look, hreq]
            | true =>
                cases ts with
                | nil =>
                    refine .takes rfl (by simp [look, hreq]) fun us => ?_
                    cases e with
                    | punct c => simp [look, hreq]
                    | group d stream =>
                        cases d with
                        | parenthesis => exact absurd rfl (hargs stream)
                        | brace | bracket | none => simp [look, hreq]
                    | ident _ | str _ | literal _ => simp [look, hreq]
                | cons v ts =>
                    refine .stays rfl fun us => ?_
                    simp only [look, hreq, if_true, List.cons_append]
                    split <;> simp_all
          · have hother : ∀ us, look (.ident i) (u :: us) = (.other (.ident i), u :: us) := by
              intro us
              unfold look
              split <;> simp_all
            exact .stays rfl fun us => by rw [List.cons_append, hother, hother]; rfl

theorem look_end {e : TokenTree} (he : e.isEnd = true) (t : TokenTree) (ts : TokenStream) :
    LookEnd e t ts := by
  refine look_before ?_ ?_ t ts
  · rintro rfl
    cases he
  · rintro s rfl
    cases he

theorem leftOpen_cons (t : TokenTree) (ts : TokenStream) :
    leftOpen (t :: ts) = match openTilde t ts with
      | some depth => depth
      | none => leftOpen (look t ts).2 := by
  rw [leftOpen]

theorem openTilde_brace (t : TokenTree) (ts stream : TokenStream) :
    openTilde t (ts ++ [.group .brace stream]) = none := by
  unfold openTilde
  split
  · cases hopen : openAngles 0 ts with
    | none => exact openAngles_closed hopen
    | some depth => exact openAngles_append hopen
  · rfl

/-- No operand goes on after a brace. -/
theorem leftOpen_brace (ts stream : TokenStream) :
    leftOpen (ts ++ [.group .brace stream]) = 0 := by
  induction ts using weightInduction with
  | nil =>
      rw [List.nil_append, leftOpen_cons]
      exact leftOpen.eq_1
  | cons t ts ih =>
      rw [List.cons_append, leftOpen_cons, openTilde_brace]
      have hround : LookEnd (.group .brace stream) t ts := look_end rfl t ts
      cases hround with
      | reaches depth h alone more =>
          rw [more]
          exact (leftOpen_cons _ _).trans leftOpen.eq_1
      | stays h more =>
          rw [more]
          exact ih _ (weight_rest t ts)
      | takes h alone more =>
          rw [more]
          exact leftOpen.eq_1

/-! ## What is found in the statements -/

section Found

variable (syn : Syn) (r : Ident)

/-- The keys that the collector finds. -/
def found (ts : TokenStream) : List TokenStream := collected (places syn r ts)

theorem found_nil : found syn r [] = [] := by
  rw [found, places]
  rfl

theorem found_cons (t : TokenTree) (ts : TokenStream) :
    found syn r (t :: ts)
      = collected (sightPlaces syn r (look t ts).1) ++ found syn r (look t ts).2 := by
  rw [found, places_cons, collected_append]
  rfl

theorem found_semicolon (ts : TokenStream) :
    found syn r (.punct ';' :: ts) = found syn r ts := found_cons syn r _ _

/-- An operand with a semicolon in it is no key. -/
theorem collected_semicolon {operand : TokenStream} (h : .punct ';' ∈ operand) :
    collected (sightPlaces syn r (.tilde operand)) = [] := by
  have hkey : isCapabilityKeyOperand syn.typePath operand = false := by
    rw [isCapabilityKeyOperand, Bool.and_eq_false_iff]
    refine .inr (beq_eq_false_iff_ne.2 fun hpath => ?_)
    exact syn.path_semicolon operand hpath h
  rw [sightPlaces, hkey]
  exact collected_hidden _

/-- An operand with an open angle is no key. -/
theorem collected_open {operand : TokenStream} {depth : ℕ}
    (h : openAngles 0 operand = some (depth + 1)) :
    collected (sightPlaces syn r (.tilde operand)) = [] := by
  have hkey : isCapabilityKeyOperand syn.typePath operand = false := by
    rw [isCapabilityKeyOperand, Bool.and_eq_false_iff]
    refine .inr (beq_eq_false_iff_ne.2 fun hpath => ?_)
    exact syn.path_closed operand depth hpath h
  rw [sightPlaces, hkey]
  exact collected_hidden _

theorem openAngles_of_openTilde {t : TokenTree} {ts : TokenStream} {depth : ℕ}
    (h : openTilde t ts = some depth) : openAngles 0 ts = some depth := by
  unfold openTilde at h
  split at h
  · exact h
  · cases h

/-- After a semicolon the collector goes on, in an operand if one has been left open. -/
theorem found_at_semicolon (us : TokenStream) (ts : TokenStream) :
    found syn r (ts ++ .punct ';' :: us)
      = found syn r ts ++ found syn r (resume (leftOpen ts) us) := by
  induction ts using weightInduction with
  | nil =>
      rw [List.nil_append, found_semicolon, found_nil, leftOpen]
      rfl
  | cons t ts ih =>
      rw [List.cons_append, found_cons, found_cons syn r t ts, leftOpen_cons]
      have hround : LookEnd (.punct ';') t ts := look_end rfl t ts
      cases hround with
      | reaches depth h alone more =>
          rw [more, alone, h, found_nil, List.append_nil]
          cases depth with
          | zero =>
              rw [resume, if_pos rfl, collectTildeOperand]
              simp only [operandStep, if_true, List.append_nil]
              rw [found_semicolon]
          | succ depth =>
              rw [collected_open syn r (openAngles_of_openTilde h), resume,
                if_neg (Nat.succ_ne_zero depth)]
              have hmem : .punct ';'
                  ∈ ts ++ (collectTildeOperand (depth + 1) (.punct ';' :: us)).1 :=
                List.mem_append_right ts List.mem_cons_self
              rw [collected_semicolon syn r hmem]
              rfl
      | stays h more =>
          rw [more, h, ih _ (weight_rest t ts), List.append_assoc]
      | takes h alone more =>
          rw [more, alone, h, found_nil, List.append_nil, leftOpen]
          rfl

/-- After a brace the collector goes on. -/
theorem found_at_brace (stream us : TokenStream) (ts : TokenStream) :
    found syn r (ts ++ .group .brace stream :: us)
      = found syn r (ts ++ [.group .brace stream]) ++ found syn r us := by
  have hbrace : ∀ us, found syn r (.group .brace stream :: us)
      = found syn r stream ++ found syn r us := fun us => found_cons syn r _ us
  induction ts using weightInduction with
  | nil => rw [List.nil_append, List.nil_append, hbrace, hbrace, found_nil, List.append_nil]
  | cons t ts ih =>
      rw [List.cons_append, found_cons, List.cons_append, found_cons syn r t (ts ++ _)]
      have hround : LookEnd (.group .brace stream) t ts := look_end rfl t ts
      cases hround with
      | reaches depth h alone more =>
          rw [more, more, collectTildeOperand, collectTildeOperand]
          simp only [operandStep, List.append_nil]
          rw [hbrace, hbrace, found_nil, List.append_nil, List.append_assoc]
      | stays h more =>
          rw [more, more]
          simp only
          rw [ih _ (weight_rest t ts), List.append_assoc]
      | takes h alone more =>
          rw [more, more, found_nil, List.append_nil]

theorem resume_semicolon (depth : ℕ) (ts us : TokenStream) :
    found syn r (resume depth (ts ++ .punct ';' :: us))
      = found syn r (resume depth ts) ++ found syn r (resume (leftOpenFrom depth ts) us) := by
  by_cases hdepth : depth = 0
  · subst hdepth
    exact found_at_semicolon syn r us ts
  · rw [resume, if_neg hdepth, resume, if_neg hdepth, leftOpenFrom, if_neg hdepth]
    cases hopen : openAngles depth ts with
    | none =>
        rw [collect_closed hopen]
        exact found_at_semicolon syn r us _
    | some depth' =>
        rw [collect_open hopen, collect_all hopen, collectTildeOperand, found_nil]
        cases depth' with
        | zero => exact found_semicolon syn r us
        | succ depth' => rfl

theorem resume_brace (depth : ℕ) (ts stream us : TokenStream) :
    found syn r (resume depth (ts ++ .group .brace stream :: us))
      = found syn r (resume depth (ts ++ [.group .brace stream])) ++ found syn r us := by
  by_cases hdepth : depth = 0
  · subst hdepth
    exact found_at_brace syn r stream us ts
  · rw [resume, if_neg hdepth, resume, if_neg hdepth]
    cases hopen : openAngles depth ts with
    | none =>
        rw [collect_closed hopen, collect_closed hopen]
        exact found_at_brace syn r stream us _
    | some depth' =>
        rw [collect_open hopen, collect_open hopen]
        exact found_at_brace syn r stream us []

theorem leftOpenFrom_brace (depth : ℕ) (ts stream : TokenStream) :
    leftOpenFrom depth (ts ++ [.group .brace stream]) = 0 := by
  rw [leftOpenFrom]
  split
  · exact leftOpen_brace ts stream
  · cases hopen : openAngles depth ts with
    | none =>
        rw [openAngles_closed hopen, collect_closed hopen]
        exact leftOpen_brace _ stream
    | some depth' =>
        rw [openAngles_append hopen, collect_open hopen]
        exact leftOpen_brace [] stream

/-- What the collector finds, chunk by chunk. -/
def foundFrom : ℕ → List TokenStream → List TokenStream
  | _, [] => []
  | depth, chunk :: chunks =>
      found syn r (resume depth chunk) ++ foundFrom (leftOpenFrom depth chunk) chunks

theorem resume_nil (depth : ℕ) : resume depth [] = [] := by
  rw [resume]
  split <;> rfl

theorem leftOpenFrom_nil (depth : ℕ) : leftOpenFrom depth [] = depth := by
  rw [leftOpenFrom]
  split
  · next h =>
      subst h
      exact leftOpen.eq_1
  · rfl

/-- The collector finds in a body what it finds in its chunks. -/
theorem found_split (ts : TokenStream) : ∀ (cur : TokenStream) (depth : ℕ),
    found syn r (resume depth (cur ++ ts)) = foundFrom syn r depth (splitSemicolons cur ts) := by
  intro cur
  fun_induction splitSemicolons cur ts with
  | case1 cur => exact fun depth => by rw [foundFrom, foundFrom, List.append_nil, List.append_nil]
  | case2 cur ts ih =>
      intro depth
      rw [foundFrom, resume_semicolon, ← ih]
      rfl
  | case3 cur stream ts h ih =>
      intro depth
      rw [foundFrom, resume_brace, ← ih, leftOpenFrom_brace]
      rfl
  | case4 cur stream ts h ih =>
      intro depth
      rw [← ih, List.append_assoc]
      rfl
  | case5 cur t ts _ _ ih =>
      intro depth
      rw [← ih, List.append_assoc]
      rfl

theorem foundFrom_filter (chunks : List TokenStream) : ∀ depth,
    foundFrom syn r depth (chunks.filter fun c => !c.isEmpty) = foundFrom syn r depth chunks := by
  induction chunks with
  | nil => exact fun _ => rfl
  | cons chunk chunks ih =>
      intro depth
      cases chunk with
      | nil =>
          rw [foundFrom, resume_nil, leftOpenFrom_nil, found_nil]
          exact ih depth
      | cons t ts => exact congrArg (_ ++ ·) (ih _)

end Found

end IdEffect.ProcMacro
