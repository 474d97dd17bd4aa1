import IdEffect.ProcMacro.Lookups

set_option autoImplicit false

/-! # Does a body await: `effect_body_contains_await`

The walk goes through a body and the groups in it. With an `async` it reads the next token, and goes
past it if it is a group in braces, and past the dot of an `.await` that comes after those. So it
does not see an `.await` whose dot is read in this way, and goes into a block whose `async` is read
with another one; `Seen` is what it finds (`walkSees`). This is what is awaited outside of async
blocks unless it depends on such an `.await` or such a block (`contains_await_iff`). -/

namespace IdEffect.ProcMacro

/-! ## The walk -/

mutual

/-- The token is `~`, or a group with one in it. -/
def TokenTree.containsBind : TokenTree → Bool
  | .punct c => c == '~'
  | .group _ stream => effectBodyContainsBind stream
  | .ident _ | .str _ | .literal _ => false

def effectBodyContainsBind : List TokenTree → Bool
  | [] => false
  | t :: ts => t.containsBind || effectBodyContainsBind ts

end

def skipMove : TokenStream → TokenStream
  | .ident i :: ts => if i.is "move" then ts else .ident i :: ts
  | ts => ts

/-- A dot after the braces, and an `await` after the dot. -/
def skipAwait : TokenStream → TokenStream
  | .punct '.' :: .ident i :: ts => if i.is "await" then ts else .ident i :: ts
  | .punct '.' :: ts => ts
  | ts => ts

theorem weight_skipMove (ts : TokenStream) : streamWeight (skipMove ts) ≤ streamWeight ts := by
  fun_cases skipMove ts <;> simp [streamWeight]

theorem weight_of_skipMove {ts rest : TokenStream} {t : TokenTree} (h : skipMove ts = t :: rest) :
    t.weight + streamWeight rest ≤ streamWeight ts := by
  have hmove := weight_skipMove ts
  rwa [h, streamWeight] at hmove

theorem weight_skipAwait (ts : TokenStream) : streamWeight (skipAwait ts) ≤ streamWeight ts := by
  fun_cases skipAwait ts <;> simp [streamWeight]
  omega

def walk (prevDot : Bool) : TokenStream → Bool
  | [] => false
  | .ident i :: ts =>
      if i.is "await" && prevDot then true
      else if i.is "async" then
        match _h : skipMove ts with
        | .group .brace _ :: rest => walk false (skipAwait rest)
        | .group _ stream :: rest => walk false stream || walk false rest
        | _ :: rest => walk false rest
        | [] => false
      else walk false ts
  | .group _ stream :: ts => walk false stream || walk false ts
  | .punct c :: ts => walk (c == '.') ts
  | .str _ :: ts | .literal _ :: ts => walk false ts
  termination_by ts => streamWeight ts
  decreasing_by
    all_goals rw [streamWeight]
    case _ =>
      have hrest := weight_of_skipMove _h
      have hawait := weight_skipAwait rest
      have hpos := (TokenTree.ident i).weight_pos
      omega
    case _ =>
      have hrest := weight_of_skipMove _h
      rw [TokenTree.weight] at hrest
      omega
    case _ | _ =>
      have hrest := weight_of_skipMove _h
      have hpos := (TokenTree.ident i).weight_pos
      omega
    all_goals first
      | exact Nat.lt_add_of_pos_left (TokenTree.weight_pos _)
      | simp only [TokenTree.weight]; omega

def effectBodyContainsAwait (body : TokenStream) : Bool := walk false body

/-! ## Where things are -/

section Somewhere

variable (enters : TokenStream → Prop) (P : TokenStream → TokenStream → Prop)

/-- `P` holds of the tokens before a position, from the last one, and those after it. Groups are
    gone into, those in braces if what is before them says so. -/
inductive Somewhere : TokenStream → TokenStream → Prop
  | here {before ts : TokenStream} (h : P before ts) : Somewhere before ts
  | inside {before : TokenStream} {d : Delimiter} {stream ts : TokenStream}
      (henters : d = .brace → enters before) (h : Somewhere [] stream) :
      Somewhere before (.group d stream :: ts)
  | later {before : TokenStream} {t : TokenTree} {ts : TokenStream}
      (h : Somewhere (t :: before) ts) : Somewhere before (t :: ts)

variable {enters P}

theorem somewhere_nil {before : TokenStream} : Somewhere enters P before [] ↔ P before [] := by
  constructor
  · intro h
    cases h with
    | here h => exact h
  · exact .here

theorem somewhere_cons {before ts : TokenStream} {t : TokenTree} :
    Somewhere enters P before (t :: ts) ↔ P before (t :: ts)
      ∨ (∃ d stream, t = .group d stream ∧ (d = .brace → enters before)
        ∧ Somewhere enters P [] stream)
      ∨ Somewhere enters P (t :: before) ts := by
  constructor
  · intro h
    cases h with
    | here h => exact .inl h
    | inside henters h => exact .inr (.inl ⟨_, _, rfl, henters, h⟩)
    | later h => exact .inr (.inr h)
  · rintro (h | ⟨d, stream, rfl, henters, h⟩ | h)
    · exact .here h
    · exact .inside henters h
    · exact .later h

theorem somewhere_or {Q : TokenStream → TokenStream → Prop} {before ts : TokenStream} :
    Somewhere enters (fun b s => P b s ∨ Q b s) before ts
      ↔ Somewhere enters P before ts ∨ Somewhere enters Q before ts := by
  constructor
  · intro h
    induction h with
    | here h => exact h.imp .here .here
    | inside henters _ ih => exact ih.imp (.inside henters) (.inside henters)
    | later _ ih => exact ih.imp .later .later
  · rintro (h | h)
    · induction h with
      | here h => exact .here (.inl h)
      | inside henters _ ih => exact .inside henters ih
      | later _ ih => exact .later ih
    · induction h with
      | here h => exact .here (.inr h)
      | inside henters _ ih => exact .inside henters ih
      | later _ ih => exact .later ih

end Somewhere

def startsAwait : TokenStream → Bool
  | .punct '.' :: .ident i :: _ => i.is "await"
  | _ => false

/-- The last token before is `async`. -/
def afterAsync : TokenStream → Bool
  | .ident i :: _ => i.is "async"
  | _ => false

/-- What comes next is the block of an `async` or an `async move`, if it is a group in braces. -/
def opensBlock : TokenStream → Bool
  | .ident i :: before => i.is "async" || (i.is "move" && afterAsync before)
  | _ => false

/-- There is an `.await` outside of the braces of async blocks. -/
def AwaitsOutside (before ts : TokenStream) : Prop :=
  Somewhere (fun b => opensBlock b = false) (fun _ s => startsAwait s = true) before ts

/-! ## What the walk sees -/

/-- The next token is read with an `async` before it, which is not read with another one itself. -/
def readWithAsync : TokenStream → Bool
  | .ident i :: before =>
      if i.is "async" then !readWithAsync before
      else i.is "move" && afterAsync before && readWithAsync before
  | _ => false

/-- The last token before is the block of an `async`, as the walk reads it. -/
def afterBlock : TokenStream → Bool
  | .group .brace _ :: before => readWithAsync before
  | _ => false

/-- A dot that comes next is gone past. -/
def swallows (before : TokenStream) : Bool := readWithAsync before || afterBlock before

/-- There is an `.await` that the walk sees. -/
def Seen (before ts : TokenStream) : Prop :=
  Somewhere (fun b => readWithAsync b = false)
    (fun b s => startsAwait s = true ∧ swallows b = false) before ts

/-- The last token is a dot that the walk has seen. -/
def dotted : TokenStream → Bool
  | .punct '.' :: before => !swallows before
  | _ => false

def headAwait : TokenStream → Bool
  | .ident i :: _ => i.is "await"
  | _ => false

def headDot : TokenStream → Bool
  | .punct '.' :: _ => true
  | _ => false

@[simp]
theorem startsAwait_dot (ts : TokenStream) : startsAwait (.punct '.' :: ts) = headAwait ts := by
  unfold startsAwait headAwait
  split <;> simp_all

theorem startsAwait_of_not_dot {t : TokenTree} (h : t ≠ .punct '.') (ts : TokenStream) :
    startsAwait (t :: ts) = false := by
  unfold startsAwait
  split <;> simp_all

theorem seen_nil {before : TokenStream} : ¬ Seen before [] := by
  rw [Seen, somewhere_nil]
  simp [startsAwait]

theorem seen_dot {before ts : TokenStream} : Seen before (.punct '.' :: ts)
    ↔ (headAwait ts = true ∧ swallows before = false) ∨ Seen (.punct '.' :: before) ts := by
  rw [Seen, somewhere_cons]
  simp [Seen]

theorem seen_leaf {t : TokenTree} (hdot : t ≠ .punct '.') (hgroup : ∀ d s, t ≠ .group d s)
    {before ts : TokenStream} : Seen before (t :: ts) ↔ Seen (t :: before) ts := by
  rw [Seen, somewhere_cons]
  simp [Seen, startsAwait_of_not_dot hdot, hgroup]

theorem seen_group {d : Delimiter} {stream before ts : TokenStream} :
    Seen before (.group d stream :: ts)
      ↔ ((d = .brace → readWithAsync before = false) ∧ Seen [] stream)
        ∨ Seen (.group d stream :: before) ts := by
  rw [Seen, somewhere_cons, startsAwait_of_not_dot (by simp)]
  simp only [Bool.false_eq_true, false_and, false_or]
  refine or_congr_left ⟨?_, fun h => ⟨d, stream, rfl, h⟩⟩
  rintro ⟨d', stream', hgroup, h⟩
  cases hgroup
  exact h

/-! ## The walk, token by token -/

/-- The walk, with what comes after `async` and `move`. -/
def walkTaken : TokenStream → Bool
  | .group .brace _ :: rest => walk false (skipAwait rest)
  | .group _ stream :: rest => walk false stream || walk false rest
  | _ :: rest => walk false rest
  | [] => false

theorem walk_ident (prevDot : Bool) (i : Ident) (ts : TokenStream) :
    walk prevDot (.ident i :: ts) = if i.is "await" && prevDot then true
      else if i.is "async" then walkTaken (skipMove ts) else walk false ts := by
  rw [walk]
  split
  · rfl
  · split
    · generalize skipMove ts = us
      unfold walkTaken
      split <;> simp_all
    · rfl

theorem walk_group (prevDot : Bool) (d : Delimiter) (stream ts : TokenStream) :
    walk prevDot (.group d stream :: ts) = (walk false stream || walk false ts) := by
  rw [walk]

theorem walk_punct (prevDot : Bool) (c : Char) (ts : TokenStream) :
    walk prevDot (.punct c :: ts) = walk (c == '.') ts := by
  rw [walk]

/-- The walk of `ts` finds what there is to see, after whatever tokens; it is not asked about a dot
    that it goes past. -/
def WalkSees (ts : TokenStream) : Prop :=
  ∀ before, readWithAsync before = false → (afterBlock before = true → headDot ts = false) →
    (walk (dotted before) ts = true
      ↔ (dotted before = true ∧ headAwait ts = true) ∨ Seen before ts)

theorem WalkSees.start {ts : TokenStream} (h : WalkSees ts) :
    walk false ts = true ↔ Seen [] ts := by
  have hstart := h [] rfl (by simp [afterBlock])
  simpa [dotted] using hstart

/-- After a token that is no dot. -/
theorem WalkSees.after {ts before : TokenStream} (h : WalkSees ts) {t : TokenTree}
    (hdot : t ≠ .punct '.') (hread : readWithAsync (t :: before) = false)
    (hblock : afterBlock (t :: before) = false) :
    walk false ts = true ↔ Seen (t :: before) ts := by
  have hdotted : dotted (t :: before) = false := by
    unfold dotted
    split <;> simp_all
  have hafter := h (t :: before) hread (by simp [hblock])
  simpa [hdotted] using hafter

/-- After a dot that it goes past. -/
theorem WalkSees.afterDot {ts before : TokenStream} (h : WalkSees ts)
    (hswallows : swallows before = true) :
    walk false ts = true ↔ Seen before (.punct '.' :: ts) := by
  have hdotted : dotted (.punct '.' :: before) = false := by simp [dotted, hswallows]
  have hafter := h (.punct '.' :: before) rfl (by simp [afterBlock])
  rw [seen_dot]
  simpa [hdotted, hswallows] using hafter

theorem walk_afterBlock {before rest : TokenStream} (hblock : afterBlock before = true)
    (ih : ∀ us, streamWeight us ≤ streamWeight rest → WalkSees us) :
    walk false (skipAwait rest) = true ↔ Seen before rest := by
  have hswallows : swallows before = true := by simp [swallows, hblock]
  have hgroup : readWithAsync before = false ∧ dotted before = false := by
    unfold afterBlock at hblock
    split at hblock
    · exact ⟨rfl, rfl⟩
    · cases hblock
  unfold skipAwait
  split
  · next i us =>
      split
      · next hawait =>
          have hread : readWithAsync (.ident i :: .punct '.' :: before) = false := by
            have hname : i.name = "await" := by
              simp only [Ident.is, Bool.and_eq_true, beq_iff_eq] at hawait
              exact hawait.2
            simp [readWithAsync, Ident.is, hname]
          have hus := ih us (by simp only [streamWeight]; omega)
          rw [hus.after (by simp) hread rfl, seen_dot, seen_leaf (by simp) (by simp)]
          simp [hswallows]
      · exact (ih _ (by simp only [streamWeight]; omega)).afterDot hswallows
  · exact (ih _ (by simp only [streamWeight]; omega)).afterDot hswallows
  · next hnot =>
      have hdot : headDot rest = false := by
        unfold headDot
        split <;> simp_all
      have hrest := ih rest (Nat.le_refl _) before hgroup.1 fun _ => hdot
      simpa [hgroup.2] using hrest

theorem walkTaken_iff {before ts : TokenStream} (hread : readWithAsync before = true)
    (hident : ∀ i rest, ts = .ident i :: rest → readWithAsync (.ident i :: before) = false)
    (ih : ∀ us, streamWeight us < streamWeight ts → WalkSees us) :
    walkTaken ts = true ↔ Seen before ts := by
  have hswallows : swallows before = true := by simp [swallows, hread]
  cases ts with
  | nil => exact iff_of_false Bool.false_ne_true seen_nil
  | cons t rest =>
      have hpos := t.weight_pos
      have hrest : WalkSees rest := ih rest (by simp only [streamWeight]; omega)
      cases t with
      | ident i =>
          rw [seen_leaf (by simp) (by simp), ← hrest.after (by simp) (hident i rest rfl) rfl]
          rfl
      | str text | literal text =>
          rw [seen_leaf (by simp) (by simp), ← hrest.after (by simp) rfl rfl]
          rfl
      | punct c =>
          by_cases hc : c = '.'
          · subst hc
            exact hrest.afterDot hswallows
          · rw [seen_leaf (by simpa using hc) (by simp), ← hrest.after (by simpa using hc) rfl rfl]
            rfl
      | group d stream =>
          have hstream : WalkSees stream :=
            ih stream (by simp only [streamWeight, TokenTree.weight]; omega)
          have hother : ∀ d', d' ≠ .brace → (walkTaken (.group d' stream :: rest) = true
              ↔ Seen before (.group d' stream :: rest)) := by
            intro d' hd
            have hblock : afterBlock (.group d' stream :: before) = false := by
              unfold afterBlock
              split <;> simp_all
            have hwalk : walkTaken (.group d' stream :: rest)
                = (walk false stream || walk false rest) := by
              cases d' with
              | brace => exact absurd rfl hd
              | parenthesis | bracket | none => rfl
            rw [hwalk, Bool.or_eq_true, hstream.start, hrest.after (by simp) rfl hblock, seen_group]
            simp [hd]
          cases d with
          | parenthesis | bracket | none => exact hother _ (by simp)
          | brace =>
              have hblock : afterBlock (.group .brace stream :: before) = true := hread
              rw [seen_group, ← walk_afterBlock hblock fun us hus =>
                ih us (by simp only [streamWeight]; omega)]
              simp [walkTaken, hread]

/-- What comes after `async` is read with it, and after `move` too. -/
theorem walk_async {before ts : TokenStream} {i : Ident} (hasync : i.is "async" = true)
    (hread : readWithAsync (.ident i :: before) = true)
    (ih : ∀ us, streamWeight us ≤ streamWeight ts → WalkSees us) :
    walkTaken (skipMove ts) = true ↔ Seen (.ident i :: before) ts := by
  have hnext : ∀ j : Ident, j.is "move" = false →
      readWithAsync (.ident j :: .ident i :: before) = false := by
    intro j hj
    rw [readWithAsync, hread, hj]
    simp
  unfold skipMove
  split
  · next m us =>
      split
      · next hmove =>
          have hm : m.is "async" = false := by
            simp only [Ident.is, Bool.and_eq_true, beq_iff_eq] at hmove
            simp [Ident.is, hmove.2]
          have hmoved : readWithAsync (.ident m :: .ident i :: before) = true := by
            rw [readWithAsync, hread, afterAsync, hm, hmove, hasync]
            rfl
          rw [seen_leaf (by simp) (by simp)]
          refine walkTaken_iff hmoved (fun j rest _ => ?_) fun vs hvs => ih vs ?_
          · rw [readWithAsync, hmoved, afterAsync, hm]
            simp
          · simp only [streamWeight]
            omega
      · next hmove =>
          refine walkTaken_iff hread (fun j rest h => ?_) fun vs hvs => ih vs (Nat.le_of_lt hvs)
          obtain ⟨hj, -⟩ := List.cons.inj h
          cases hj
          exact hnext m (Bool.eq_false_iff.2 hmove)
  · next hnot =>
      exact walkTaken_iff hread (fun j rest h => absurd h (hnot j rest))
        fun vs hvs => ih vs (Nat.le_of_lt hvs)

/-- **The walk finds what it sees**, by the tokens it reads at once. -/
theorem walkSees (ts : TokenStream) : WalkSees ts := by
  induction ts using weightInduction with
  | nil =>
      intro before _ _
      rw [walk]
      simp [headAwait, seen_nil]
  | cons t ts ih =>
      intro before hread hblock
      have hpos := t.weight_pos
      have hts : WalkSees ts := ih ts (by simp only [streamWeight]; omega)
      cases t with
      | str text | literal text =>
          rw [seen_leaf (by simp) (by simp), ← hts.after (by simp) rfl rfl, walk]
          simp [headAwait]
      | punct c =>
          rw [walk_punct]
          by_cases hc : c = '.'
          · subst hc
            have hswallows : swallows before = false := by
              cases hafter : afterBlock before with
              | true => exact absurd (hblock hafter) (by simp [headDot])
              | false => simp [swallows, hread, hafter]
            have hnext := hts (.punct '.' :: before) rfl (by simp [afterBlock])
            rw [seen_dot]
            simpa [dotted, hswallows, headAwait] using hnext
          · have hc' : (c == '.') = false := by simpa using hc
            rw [hc', seen_leaf (by simpa using hc) (by simp),
              ← hts.after (by simpa using hc) rfl rfl]
            simp [headAwait]
      | group d stream =>
          have hstream : WalkSees stream :=
            ih stream (by simp only [streamWeight, TokenTree.weight]; omega)
          have hblock' : afterBlock (.group d stream :: before) = false := by
            unfold afterBlock
            split <;> simp_all
          rw [walk_group, Bool.or_eq_true, hstream.start, hts.after (by simp) rfl hblock',
            seen_group]
          simp [headAwait, hread]
      | ident i =>
          rw [walk_ident, seen_leaf (by simp) (by simp), headAwait]
          by_cases hawait : i.is "await" = true ∧ dotted before = true
          · simp [hawait.1, hawait.2]
          · have hnot : (i.is "await" && dotted before) = false := by
              simpa using hawait
            have hnot' : ¬ (dotted before = true ∧ i.is "await" = true) :=
              fun h => hawait ⟨h.2, h.1⟩
            rw [hnot, if_neg Bool.false_ne_true, or_iff_right hnot']
            cases hasync : i.is "async" with
            | false =>
                have hread' : readWithAsync (.ident i :: before) = false := by
                  simp [readWithAsync, hasync, hread]
                exact hts.after (by simp) hread' rfl
            | true =>
                have hread' : readWithAsync (.ident i :: before) = true := by
                  simp [readWithAsync, hasync, hread]
                exact walk_async hasync hread' fun us hus =>
                  ih us (by simp only [streamWeight]; omega)

/-! ## What it misses, and what it goes into -/

/-- An `.await` outside of async blocks, of which the walk sees the dot. -/
def SeenOutside (before ts : TokenStream) : Prop :=
  Somewhere (fun b => opensBlock b = false)
    (fun b s => startsAwait s = true ∧ swallows b = false) before ts

/-- An `.await` outside of async blocks, of which the walk goes past the dot. -/
def Swallowed (before ts : TokenStream) : Prop :=
  Somewhere (fun b => opensBlock b = false)
    (fun b s => startsAwait s = true ∧ swallows b = true) before ts

/-- An async block that the walk takes for something else, in which it sees an `.await`. -/
def Misread (before ts : TokenStream) : Prop :=
  Somewhere (fun b => opensBlock b = false)
    (fun b s => ∃ stream rest, s = .group .brace stream :: rest ∧ opensBlock b = true
      ∧ readWithAsync b = false ∧ Seen [] stream) before ts

theorem opensBlock_of_read {before : TokenStream} (h : readWithAsync before = true) :
    opensBlock before = true := by
  unfold readWithAsync at h
  split at h
  · next i before =>
      rw [opensBlock]
      split at h
      · next hasync => simp [hasync]
      · simp only [Bool.and_eq_true] at h
        simp [h.1.1, h.1.2]
  · cases h

theorem not_read {before : TokenStream} (h : opensBlock before = false) :
    readWithAsync before = false := by
  by_contra hread
  rw [Bool.not_eq_false] at hread
  rw [opensBlock_of_read hread] at h
  cases h

theorem awaitsOutside_iff (before ts : TokenStream) :
    AwaitsOutside before ts ↔ SeenOutside before ts ∨ Swallowed before ts := by
  have hdot : (fun (_ : TokenStream) (s : TokenStream) => startsAwait s = true)
      = fun b s => (startsAwait s = true ∧ swallows b = false)
        ∨ (startsAwait s = true ∧ swallows b = true) := by
    funext b s
    cases swallows b <;> simp
  rw [AwaitsOutside, hdot, somewhere_or]
  rfl

theorem seen_iff (before ts : TokenStream) :
    Seen before ts ↔ SeenOutside before ts ∨ Misread before ts := by
  constructor
  · intro h
    induction h with
    | here h => exact .inl (.here h)
    | later _ ih => exact ih.imp .later .later
    | @inside before d stream ts henters h ih =>
        by_cases hblock : d = .brace ∧ opensBlock before = true
        · obtain ⟨rfl, hopens⟩ := hblock
          exact .inr (.here ⟨stream, ts, rfl, hopens, henters rfl, h⟩)
        · have hout : d = .brace → opensBlock before = false :=
            fun hd => Bool.eq_false_iff.2 fun hopens => hblock ⟨hd, hopens⟩
          exact ih.imp (.inside hout) (.inside hout)
  · rintro (h | h)
    · induction h with
      | here h => exact .here h
      | later _ ih => exact .later ih
      | inside hout _ ih => exact .inside (fun hd => not_read (hout hd)) ih
    · induction h with
      | here h =>
          obtain ⟨stream, rest, rfl, -, hnot, h⟩ := h
          exact .inside (fun _ => hnot) h
      | later _ ih => exact .later ih
      | inside hout _ ih => exact .inside (fun hd => not_read (hout hd)) ih

/-- **The walk finds what is awaited outside of async blocks** if and only if it sees one of these
    itself, or misses some just when it goes into a block. -/
theorem contains_await_iff (body : TokenStream) :
    (effectBodyContainsAwait body = true ↔ AwaitsOutside [] body)
      ↔ SeenOutside [] body ∨ (Swallowed [] body ↔ Misread [] body) := by
  rw [effectBodyContainsAwait, (walkSees body).start, seen_iff, awaitsOutside_iff]
  tauto

end IdEffect.ProcMacro
