import IdEffect.ProcMacro.Awaits
import IdEffect.ProcMacro.Inferred
import IdEffect.ProcMacro.Operands

set_option autoImplicit false

/-! # The constructor of an effect: `expand.rs`

A body that binds or awaits becomes an `Effect::new_async`, any other an `Effect::new`. The
expansion of a body without a bind awaits only where the body does (`awaits_expandBlock`), so the
constructor is the right one if the walk finds what is awaited (`picks_iff`). -/

namespace IdEffect.ProcMacro

/-! ## The expansion -/

/-- `::core::compile_error!` with the message. -/
def compileErrorTokens (message : String) : TokenStream :=
  [.punct ':', .punct ':', word "core", .punct ':', .punct ':', word "compile_error", .punct '!',
    .group .brace [.str message]]

mutual

def Out.tokens : Out → TokenStream
  | .token t => [t]
  | .group d stream => [.group d (outTokens stream)]
  | .need _ stream => outTokens stream
  | .compileError message => compileErrorTokens message

def outTokens : List Out → TokenStream
  | [] => []
  | o :: os => o.tokens ++ outTokens os

end

mutual

/-- There is no error in it. -/
def Out.accepted : Out → Bool
  | .token _ => true
  | .group _ stream | .need _ stream => accepted stream
  | .compileError _ => false

def accepted : List Out → Bool
  | [] => true
  | o :: os => o.accepted && accepted os

end

def needsAsync (body : TokenStream) : Bool :=
  effectBodyContainsBind body || effectBodyContainsAwait body

/-- `move |binding|` -/
def closureHead (binding : TokenStream) : TokenStream :=
  [word "move", .punct '|'] ++ binding ++ [.punct '|']

/-- `::id_effect::Effect::new_async(move |binding| { ::id_effect::box_future(async move { … }) })`
-/
def newAsync (binding : TokenStream) (expanded : List Out) : List Out :=
  (pathTo "Effect" ++ [.punct ':', .punct ':', word "new_async"]).map .token
    ++ [.group .parenthesis ((closureHead binding).map .token
      ++ [.group .brace ((pathTo "box_future").map .token
        ++ [.group .parenthesis [.token (word "async"), .token (word "move"),
          .group .brace expanded]])])]

/-- `::id_effect::Effect::new(move |binding| { … })` -/
def newSync (binding : TokenStream) (expanded : List Out) : List Out :=
  (pathTo "Effect" ++ [.punct ':', .punct ':', word "new"]).map .token
    ++ [.group .parenthesis ((closureHead binding).map .token
      ++ [.group .brace expanded])]

/-- Both kinds of body, which differ in what is bound: the parameter, with its type if there is one,
    or `__effect_r: &mut ()`. -/
def expand (syn : Syn) (r : Ident) (binding body : TokenStream) : List Out :=
  if needsAsync body then newAsync binding (expandBlock syn r body)
  else newSync binding (expandBlock syn r body)

/-! ## Tokens of the expansion -/

theorem outTokens_append (os os' : List Out) :
    outTokens (os ++ os') = outTokens os ++ outTokens os' := by
  induction os with
  | nil => rfl
  | cons o os ih => rw [List.cons_append, outTokens, outTokens, ih, List.append_assoc]

theorem accepted_append (os os' : List Out) :
    accepted (os ++ os') = (accepted os && accepted os') := by
  induction os with
  | nil => rfl
  | cons o os ih => rw [List.cons_append, accepted, accepted, ih, Bool.and_assoc]

theorem containsBind_append (ts us : TokenStream) : effectBodyContainsBind (ts ++ us)
    = (effectBodyContainsBind ts || effectBodyContainsBind us) := by
  induction ts with
  | nil => rfl
  | cons t ts ih =>
      rw [List.cons_append, effectBodyContainsBind, effectBodyContainsBind, ih, Bool.or_assoc]

/-! ## Awaits in other places -/

/-- What ends in an `async` before does so after. -/
structure Follows (before before' : TokenStream) : Prop where
  async : afterAsync before = true → afterAsync before' = true
  block : opensBlock before = true → opensBlock before' = true

theorem Follows.of_false {before : TokenStream} (hasync : afterAsync before = false)
    (hblock : opensBlock before = false) (before' : TokenStream) : Follows before before' where
  async h := by simp [hasync] at h
  block h := by simp [hblock] at h

theorem Follows.cons {before before' : TokenStream} (h : Follows before before') (t : TokenTree) :
    Follows (t :: before) (t :: before') := by
  cases t with
  | ident i =>
      refine ⟨id, fun hblock => ?_⟩
      simp only [opensBlock, Bool.or_eq_true, Bool.and_eq_true] at hblock ⊢
      exact hblock.imp id (And.imp id h.async)
  | punct _ | str _ | literal _ | group _ _ => exact .of_false rfl rfl _

theorem awaits_mono {before before' ts : TokenStream} (hfollows : Follows before before')
    (h : AwaitsOutside before' ts) : AwaitsOutside before ts := by
  induction ts generalizing before before' with
  | nil => exact .here (somewhere_nil.1 h)
  | cons t ts ih =>
      rcases somewhere_cons.1 h with h | ⟨d, stream, rfl, hout, h⟩ | h
      · exact .here h
      · refine .inside (fun hd => ?_) h
        by_contra hblock
        rw [Bool.not_eq_false] at hblock
        rw [hfollows.block hblock] at hout
        cases hout hd
      · exact .later (ih (hfollows.cons t) h)

theorem awaits_append_left {before ts us : TokenStream} (h : AwaitsOutside before ts) :
    AwaitsOutside before (ts ++ us) := by
  induction h with
  | @here before ts h =>
      refine .here ?_
      unfold startsAwait at h
      split at h
      · exact h
      · cases h
  | inside hout h _ => exact .inside hout h
  | later _ ih => exact .later ih

theorem awaits_append_right {ts : TokenStream} : ∀ {before us : TokenStream},
    AwaitsOutside (ts.reverse ++ before) us → AwaitsOutside before (ts ++ us) := by
  induction ts with
  | nil => exact fun h => h
  | cons t ts ih =>
      intro before us h
      rw [List.reverse_cons, List.append_assoc] at h
      exact .later (ih h)

/-- What is awaited in a stream is awaited in one of two parts, unless it is cut at the dot. -/
theorem awaits_append {ts : TokenStream} : ∀ {before us : TokenStream},
    AwaitsOutside before (ts ++ us) → AwaitsOutside before ts
      ∨ AwaitsOutside (ts.reverse ++ before) us
      ∨ ts.getLast? = some (.punct '.') ∧ headAwait us = true := by
  induction ts with
  | nil => exact fun h => .inr (.inl h)
  | cons t ts ih =>
      intro before us h
      rcases somewhere_cons.1 h with h | ⟨d, stream, rfl, hout, h⟩ | h
      · obtain rfl : t = .punct '.' := by
          by_contra hdot
          rw [startsAwait_of_not_dot hdot] at h
          cases h
        rw [startsAwait_dot] at h
        cases ts with
        | nil => exact .inr (.inr ⟨rfl, h⟩)
        | cons u ts =>
            refine .inl (.here ?_)
            rw [startsAwait_dot]
            cases u with
            | ident i => exact h
            | punct _ | str _ | literal _ | group _ _ => cases h
      · exact .inl (.inside hout h)
      · rw [List.reverse_cons, List.append_assoc]
        rcases ih h with h | h | ⟨hlast, hawait⟩
        · exact .inl (.later h)
        · exact .inr (.inl h)
        · refine .inr (.inr ⟨?_, hawait⟩)
          cases ts with
          | nil => cases hlast
          | cons u ts => rwa [List.getLast?_cons_cons]

theorem awaits_leaf {t : TokenTree} (hdot : t ≠ .punct '.') (hgroup : ∀ d s, t ≠ .group d s)
    {before ts : TokenStream} :
    AwaitsOutside before (t :: ts) ↔ AwaitsOutside (t :: before) ts := by
  rw [AwaitsOutside, somewhere_cons]
  simp [AwaitsOutside, startsAwait_of_not_dot hdot, hgroup]

theorem awaits_nil {before : TokenStream} : ¬ AwaitsOutside before [] := by
  rw [AwaitsOutside, somewhere_nil]
  simp [startsAwait]

theorem awaits_group {d : Delimiter} {stream before ts : TokenStream} :
    AwaitsOutside before (.group d stream :: ts)
      ↔ ((d = .brace → opensBlock before = false) ∧ AwaitsOutside [] stream)
        ∨ AwaitsOutside (.group d stream :: before) ts := by
  rw [AwaitsOutside, somewhere_cons, startsAwait_of_not_dot (by simp)]
  simp only [Bool.false_eq_true, false_or]
  refine or_congr_left ⟨?_, fun h => ⟨d, stream, rfl, h⟩⟩
  rintro ⟨d', stream', hgroup, h⟩
  cases hgroup
  exact h

theorem follows_nil (before : TokenStream) : Follows [] before := .of_false rfl rfl before

/-! ## What a round copies -/

/-- What a round sees, and where it comes from. -/
inductive LookCase : TokenTree → TokenStream → Sight × TokenStream → Prop
  | require {i : Ident} {args rest : TokenStream} :
      LookCase (.ident i) (.punct '!' :: .group .parenthesis args :: rest)
        (.require (some args), rest)
  | requireNone {t : TokenTree} {ts rest : TokenStream} : LookCase t ts (.require none, rest)
  | tilde {ts : TokenStream} {seen : Sight × TokenStream} : LookCase (.punct '~') ts seen
  | group {d : Delimiter} {stream ts : TokenStream} :
      LookCase (.group d stream) ts (.group d stream, ts)
  | other {t : TokenTree} {ts : TokenStream} (hgroup : ∀ d s, t ≠ .group d s) :
      LookCase t ts (.other t, ts)

theorem look_case (t : TokenTree) (ts : TokenStream) : LookCase t ts (look t ts) := by
  unfold look
  split
  · split
    · split
      · exact .require
      · exact .requireNone
      · exact .requireNone
    · exact .other (by simp)
  · exact .tilde
  · exact .group
  · exact .other fun d s h => by simp_all

section Copied

variable {syn : Syn} {r : Ident}

theorem containsBind_needsLookup (key : TokenStream) :
    effectBodyContainsBind (needsLookup r key) = effectBodyContainsBind key := by
  simp [needsLookup, pathTo, word, containsBind_append, effectBodyContainsBind,
    TokenTree.containsBind]

/-- The lookup of a key awaits where the key does. -/
theorem awaits_needsLookup {before key : TokenStream}
    (h : AwaitsOutside before (needsLookup r key)) : AwaitsOutside [] key := by
  have hcut : needsLookup r key = (pathTo "Needs" ++ [.punct ':', .punct ':', .punct '<'])
      ++ (key ++ [.punct '>', .punct ':', .punct ':', word "need",
        .group .parenthesis [.ident r]]) := by
    simp [needsLookup]
  rw [hcut] at h
  rcases awaits_append h with h | h | ⟨hlast, -⟩
  · simp [pathTo, word, awaits_leaf, awaits_nil] at h
  · rcases awaits_append h with h | h | ⟨-, hawait⟩
    · exact awaits_mono (follows_nil _) h
    · simp [word, awaits_leaf, awaits_group, awaits_nil] at h
    · cases hawait
  · simp [pathTo] at hlast

theorem head_needsLookup (key : TokenStream) : ∃ rest,
    outTokens (expandTilde syn r (needsLookup r key)) = .punct ':' :: rest := by
  have hcut : needsLookup r key = .punct ':' :: (needsLookup r key).tail := by
    simp [needsLookup, pathTo]
  rw [hcut, expandTilde_cons]
  exact ⟨_, rfl⟩

theorem last_needsLookup (key : TokenStream) :
    (needsLookup r key).getLast? = some (.group .parenthesis [.ident r]) := by
  rw [needsLookup, List.getLast?_append_of_ne_nil _ (by simp)]
  rfl

/-- What comes out of a stream awaits nothing new. -/
structure Copies (ts out : TokenStream) : Prop where
  head : headAwait out = true → headAwait ts = true
  last : out.getLast? = some (.punct '.') → ts.getLast? = some (.punct '.')
  empty : out = [] → ts = []
  awaits : ∀ {before before'}, Follows before before' → AwaitsOutside before' out →
    AwaitsOutside before ts

/-- A token that is copied, or a group of which the inside is. -/
theorem Copies.cons {t u : TokenTree} {ts out : TokenStream} (h : Copies ts out)
    (hcopy : t = u ∧ (∀ d s, t ≠ .group d s)
      ∨ ∃ d stream stream', t = .group d stream ∧ u = .group d stream' ∧ Copies stream stream') :
    Copies (t :: ts) (u :: out) := by
  refine ⟨fun hhead => ?_, fun hlast => ?_, by simp, fun {before before'} hfollows hawaits => ?_⟩
  · obtain ⟨rfl, -⟩ | ⟨d, stream, stream', rfl, rfl, -⟩ := hcopy
    · cases t with
      | ident i => exact hhead
      | punct _ | str _ | literal _ | group _ _ => cases hhead
    · cases hhead
  · cases out with
    | nil =>
        obtain rfl := h.empty rfl
        obtain rfl : u = .punct '.' := Option.some.inj hlast
        obtain ⟨rfl, -⟩ | ⟨d, stream, stream', -, hgroup, -⟩ := hcopy
        · rfl
        · cases hgroup
    | cons v out =>
        rw [List.getLast?_cons_cons] at hlast
        cases ts with
        | nil => cases h.last hlast
        | cons w ts =>
            rw [List.getLast?_cons_cons]
            exact h.last hlast
  · obtain ⟨rfl, hleaf⟩ | ⟨d, stream, stream', rfl, rfl, hstream⟩ := hcopy
    · by_cases hdot : t = .punct '.'
      · subst hdot
        rcases somewhere_cons.1 hawaits with hawait | ⟨d, s, hgroup, -⟩ | hlater
        · rw [startsAwait_dot] at hawait
          refine .here ?_
          rw [startsAwait_dot]
          exact h.head hawait
        · cases hgroup
        · exact .later (h.awaits (hfollows.cons _) hlater)
      · rw [awaits_leaf hdot hleaf] at hawaits ⊢
        exact h.awaits (hfollows.cons t) hawaits
    · rw [awaits_group] at hawaits ⊢
      refine hawaits.imp (fun hinside => ⟨fun hd => ?_, ?_⟩) fun hlater => ?_
      · by_contra hblock
        rw [Bool.not_eq_false] at hblock
        have hout := hinside.1 hd
        rw [hfollows.block hblock] at hout
        cases hout
      · exact hstream.awaits (follows_nil _) hinside.2
      · exact h.awaits (.of_false rfl rfl _) hlater

theorem copies_nil : Copies [] [] := ⟨id, id, fun _ => rfl, fun _ h => absurd h awaits_nil⟩

/-- A key that is looked up. -/
theorem Copies.lookup {args rest out : TokenStream} {i : Ident} {lookup : TokenStream}
    (h : Copies rest out) (hlookup : Copies (needsLookup r args) lookup)
    (hhead : ∃ more, lookup = .punct ':' :: more) :
    Copies (.ident i :: .punct '!' :: .group .parenthesis args :: rest) (lookup ++ out) := by
  have hlast : lookup.getLast? ≠ some (.punct '.') := by
    intro hdot
    have hneeds := hlookup.last hdot
    rw [last_needsLookup] at hneeds
    cases hneeds
  obtain ⟨more, rfl⟩ := hhead
  refine ⟨by simp [headAwait], fun hdot => ?_, by simp,
    fun {before before'} hfollows hawaits => ?_⟩
  · cases out with
    | nil =>
        rw [List.append_nil] at hdot
        exact absurd hdot hlast
    | cons u out =>
        rw [List.getLast?_append_of_ne_nil _ (by simp)] at hdot
        have hrest := h.last hdot
        cases rest with
        | nil => cases hrest
        | cons v rest => simpa using hrest
  · rw [awaits_leaf (by simp) (by simp), awaits_leaf (by simp) (by simp), awaits_group]
    rcases awaits_append hawaits with hinside | hlater | ⟨hdot, -⟩
    · have hkey := hlookup.awaits ⟨id, id⟩ hinside
      exact .inl ⟨by simp, awaits_needsLookup hkey⟩
    · exact .inr (h.awaits (.of_false rfl rfl _) hlater)
    · exact absurd hdot hlast

/-- **The expansion of a stream without a bind** awaits where the stream does. -/
theorem copies_expandTilde {ts : TokenStream} (hfree : effectBodyContainsBind ts = false)
    (haccepted : accepted (expandTilde syn r ts) = true) :
    Copies ts (outTokens (expandTilde syn r ts)) := by
  induction ts using weightInduction with
  | nil =>
      rw [expandTilde]
      exact copies_nil
  | cons t ts ih =>
      have hcase : LookCase t ts (look t ts) := look_case t ts
      have hweight := weight_look t ts
      rw [expandTilde_cons] at haccepted ⊢
      rw [accepted, Bool.and_eq_true] at haccepted
      rw [outTokens]
      generalize look t ts = seen at hcase hweight haccepted ⊢
      simp only [effectBodyContainsBind, Bool.or_eq_false_iff] at hfree
      cases hcase with
      | requireNone => cases haccepted.1
      | tilde => cases hfree.1
      | other hgroup =>
          have hpos := t.weight_pos
          have hrest := ih ts (by simp only [streamWeight]; omega) hfree.2 haccepted.2
          exact hrest.cons (.inl ⟨rfl, hgroup⟩)
      | @group d stream ts =>
          simp only [Sight.inner, Sight.spare] at hweight
          have hrest := ih ts (by omega) hfree.2 haccepted.2
          have hstream := ih stream (by omega) hfree.1 haccepted.1
          exact hrest.cons (.inr ⟨d, stream, _, rfl, rfl, hstream⟩)
      | @require i args rest =>
          simp only [effectBodyContainsBind, TokenTree.containsBind, Bool.or_eq_false_iff] at hfree
          simp only [Sight.inner, Sight.spare, Option.getD] at hweight
          have hneeds := weight_needsLookup r args
          have hrest := ih rest (by omega) hfree.2.2.2 haccepted.2
          have hkey : expandSight syn r (.require (some args))
              = .need args (expandTilde syn r (needsLookup r args)) := by
            have hsome := haccepted.1
            rw [expandSight] at hsome ⊢
            split at hsome
            · rfl
            · cases hsome
            · cases hsome
          rw [hkey] at haccepted ⊢
          have hlookup := ih (needsLookup r args) (by omega)
            ((containsBind_needsLookup args).trans hfree.2.2.1) haccepted.1
          exact hrest.lookup hlookup (head_needsLookup args)

/-! ## Blocks -/

theorem chunk_free {cur ts : TokenStream} (hfree : effectBodyContainsBind (cur ++ ts) = false) :
    ∀ c ∈ splitSemicolons cur ts, effectBodyContainsBind c = false := by
  fun_induction splitSemicolons cur ts with
  | case1 cur => simpa using hfree
  | case2 cur ts ih =>
      simp only [containsBind_append, effectBodyContainsBind, Bool.or_eq_false_iff] at hfree ih ⊢
      simp only [List.mem_cons, forall_eq_or_imp]
      exact ⟨hfree.1, ih ⟨trivial, hfree.2.2⟩⟩
  | case3 cur stream ts hcond ih =>
      simp only [containsBind_append, effectBodyContainsBind, Bool.or_eq_false_iff] at hfree ih ⊢
      simp only [List.mem_cons, forall_eq_or_imp, containsBind_append, effectBodyContainsBind,
        Bool.or_eq_false_iff]
      exact ⟨⟨hfree.1, hfree.2.1, trivial⟩, ih ⟨trivial, hfree.2.2⟩⟩
  | case4 cur stream ts hcond ih =>
      refine ih ?_
      rwa [List.append_assoc]
  | case5 cur t ts hsemicolon hbrace ih =>
      refine ih ?_
      rwa [List.append_assoc]

/-- What is awaited in a chunk is awaited in the body. -/
theorem chunk_awaits {cur ts c before : TokenStream} (hc : c ∈ splitSemicolons cur ts)
    (hbefore : Follows before []) (h : AwaitsOutside [] c) : AwaitsOutside before (cur ++ ts) := by
  fun_induction splitSemicolons cur ts generalizing before with
  | case1 cur =>
      obtain rfl := List.mem_singleton.1 hc
      exact awaits_append_left (awaits_mono hbefore h)
  | case2 cur ts ih =>
      rcases List.mem_cons.1 hc with rfl | hc
      · exact awaits_append_left (awaits_mono hbefore h)
      · exact awaits_append_right (.later (ih hc (.of_false rfl rfl _)))
  | case3 cur stream ts hcond ih =>
      rcases List.mem_cons.1 hc with rfl | hc
      · have hleft : AwaitsOutside before ((cur ++ [.group .brace stream]) ++ ts) :=
          awaits_append_left (awaits_mono hbefore h)
        rwa [List.append_assoc] at hleft
      · exact awaits_append_right (.later (ih hc (.of_false rfl rfl _)))
  | case4 cur stream ts hcond ih =>
      have hnext := ih hc hbefore
      rwa [List.append_assoc] at hnext
  | case5 cur t ts hsemicolon hbrace ih =>
      have hnext := ih hc hbefore
      rwa [List.append_assoc] at hnext

theorem desugar_free {c : TokenStream} (hfree : effectBodyContainsBind c = false) :
    desugarIdentTildeBind c = c := by
  unfold desugarIdentTildeBind
  split
  · cases hfree
  · rfl

theorem parse_free {typePath : TokenStream → Bool} {c : TokenStream}
    (hfree : effectBodyContainsBind c = false) :
    parseBindStep typePath (desugarIdentTildeBind c) = none := by
  by_contra hsome
  obtain ⟨step, hstep⟩ := Option.ne_none_iff_exists'.1 hsome
  rw [desugar_free hfree] at hstep
  have hcase : ParseCase typePath c step := parse_case hstep
  cases hcase with
  | plain _ => cases hfree
  | @annotated _ ts hskip _ =>
      obtain ⟨before, hts⟩ := skipAnnotation_suffix ts 0
      rw [hskip] at hts
      simp [hts, effectBodyContainsBind, containsBind_append, TokenTree.containsBind] at hfree

/-- Without a bind there is nothing to group. -/
theorem plan_free {typePath : TokenStream → Bool} : ∀ {fuel : ℕ} {bound : List Ident}
    {chunks : List TokenStream}, chunks.length ≤ fuel →
    (∀ c ∈ chunks, effectBodyContainsBind c = false) →
    planFrom typePath fuel bound chunks
      = (chunks.filter fun c => !c.isEmpty).map .sequential := by
  intro fuel
  induction fuel with
  | zero =>
      intro bound chunks hlen _
      obtain rfl := List.eq_nil_of_length_eq_zero (Nat.le_zero.1 hlen)
      rfl
  | succ fuel ih =>
      intro bound chunks hlen hfree
      cases chunks with
      | nil => rfl
      | cons c rest =>
          have hparse : parseBindStep typePath (desugarIdentTildeBind c) = none :=
            parse_free (hfree c List.mem_cons_self)
          have hrest : ∀ bound, planFrom typePath fuel bound rest
              = (rest.filter fun c => !c.isEmpty).map .sequential :=
            fun bound => ih (Nat.le_of_succ_le_succ hlen)
              fun c hc => hfree c (List.mem_cons_of_mem _ hc)
          rw [planFrom_cons, slot, hparse]
          cases hempty : c.isEmpty with
          | true => simp [hempty, hrest]
          | false => cases hserial : isSerial c <;> simp [hempty, hrest]

/-- A statement awaits where its chunk does, and does not end in a dot. -/
theorem emit_free {c : TokenStream} (hfree : effectBodyContainsBind c = false)
    (haccepted : accepted (emit syn r (.sequential c)) = true) :
    (outTokens (emit syn r (.sequential c))).getLast? ≠ some (.punct '.')
      ∧ ∀ before, AwaitsOutside before (outTokens (emit syn r (.sequential c))) →
        AwaitsOutside [] c := by
  rw [emit, desugar_free hfree] at haccepted ⊢
  split
  · exact ⟨by simp [outTokens], fun before h => absurd h awaits_nil⟩
  · next hne =>
      rw [if_neg hne, accepted_append, Bool.and_eq_true] at haccepted
      have hcopies := copies_expandTilde hfree haccepted.1
      have hsemicolon : outTokens [.token (.punct ';')] = [.punct ';'] := rfl
      rw [outTokens_append, hsemicolon]
      refine ⟨by simp, fun before h => ?_⟩
      rcases awaits_append h with h | h | ⟨-, hawait⟩
      · exact hcopies.awaits (follows_nil before) h
      · simp [awaits_leaf, awaits_nil] at h
      · cases hawait

theorem tail_free {tail before : TokenStream} (hfree : effectBodyContainsBind tail = false)
    (haccepted : accepted (expandTail syn r tail) = true)
    (h : AwaitsOutside before (outTokens (expandTail syn r tail))) : AwaitsOutside [] tail := by
  have hok : ∀ value before, AwaitsOutside before (outTokens (resultOk value)) →
      AwaitsOutside [] (outTokens value) := by
    intro value before hvalue
    simp [resultOk, outTokens, Out.tokens, word, awaits_leaf, awaits_group, awaits_nil] at hvalue
    exact hvalue
  rw [expandTail] at haccepted h
  split at h
  · have hunit := hok _ _ h
    simp [outTokens, Out.tokens, awaits_group, awaits_nil] at hunit
  · next hne =>
      have hdirect : tryExpandTailAsIntoBindAwait syn r tail = none := by
        unfold tryExpandTailAsIntoBindAwait
        split
        · cases hfree
        · rfl
      rw [if_neg hne] at haccepted
      simp only [desugar_free hfree, hdirect, Option.getD_none] at haccepted h
      rw [resultOk, accepted_append, Bool.and_eq_true] at haccepted
      have hvalue : accepted (expandTilde syn r tail) = true := by
        simpa [accepted, Out.accepted] using haccepted.2
      exact (copies_expandTilde hfree hvalue).awaits ⟨id, id⟩ (hok _ _ h)

theorem statements_free {cs : List TokenStream} {tail : List Out} :
    ∀ {before : TokenStream}, (∀ c ∈ cs, effectBodyContainsBind c = false) →
    accepted ((cs.map .sequential).flatMap (emit syn r)) = true →
    AwaitsOutside before (outTokens ((cs.map .sequential).flatMap (emit syn r) ++ tail)) →
    (∃ c ∈ cs, AwaitsOutside [] c) ∨ ∃ before', AwaitsOutside before' (outTokens tail) := by
  induction cs with
  | nil => exact fun _ _ h => .inr ⟨_, h⟩
  | cons c cs ih =>
      intro before hfree haccepted h
      rw [List.map_cons, List.flatMap_cons] at haccepted h
      rw [accepted_append, Bool.and_eq_true] at haccepted
      obtain ⟨hlast, hawaits⟩ := emit_free (hfree c List.mem_cons_self) haccepted.1
      rw [List.append_assoc, outTokens_append] at h
      rcases awaits_append h with h | h | ⟨hdot, -⟩
      · exact .inl ⟨c, List.mem_cons_self, hawaits before h⟩
      · refine (ih (fun c hc => hfree c (List.mem_cons_of_mem _ hc)) haccepted.2 h).imp_left ?_
        rintro ⟨c, hc, hc'⟩
        exact ⟨c, List.mem_cons_of_mem _ hc, hc'⟩
      · exact absurd hdot hlast

/-- **The expansion of a body without a bind** awaits only where the body does. -/
theorem awaits_expandBlock {body before : TokenStream}
    (hfree : effectBodyContainsBind body = false)
    (haccepted : accepted (expandBlock syn r body) = true)
    (h : AwaitsOutside before (outTokens (expandBlock syn r body))) : AwaitsOutside [] body := by
  have hchunks : ∀ c ∈ splitSemicolons [] body, effectBodyContainsBind c = false :=
    chunk_free hfree
  have hchunk : ∀ c ∈ splitSemicolons [] body, AwaitsOutside [] c → AwaitsOutside [] body :=
    fun c hc hawaits => chunk_awaits hc ⟨id, id⟩ hawaits
  rw [expandBlock] at haccepted h
  generalize splitSemicolons [] body = chunks at hchunks hchunk haccepted h
  have hinit : ∀ c ∈ chunks.dropLast.filter (fun c => !c.isEmpty), c ∈ chunks :=
    fun c hc => List.dropLast_subset _ (List.mem_of_mem_filter hc)
  have hplan : planStatementChunks syn.typePath chunks.dropLast
      = (chunks.dropLast.filter fun c => !c.isEmpty).map .sequential :=
    plan_free (Nat.le_refl _) fun c hc => hchunks c (List.dropLast_subset _ hc)
  simp only [hplan, accepted_append, Bool.and_eq_true] at haccepted h
  rcases statements_free (fun c hc => hchunks c (hinit c hc)) haccepted.1 h with
    ⟨c, hc, hawaits⟩ | ⟨before', htail⟩
  · exact hchunk c (hinit c hc) hawaits
  · cases hlast : chunks.getLast? with
    | none =>
        rw [hlast] at htail haccepted
        exact absurd (tail_free rfl haccepted.2 htail) awaits_nil
    | some tail =>
        rw [hlast] at htail haccepted
        have hmem : tail ∈ chunks := List.mem_of_getLast? hlast
        exact hchunk tail hmem (tail_free (hchunks tail hmem) haccepted.2 htail)

end Copied

/-! ## The right constructor -/

/-- The walk is right about the body, and a body of which the expansion awaits outside of async
    blocks is not made an `Effect::new`, unless it is not accepted. -/
structure PicksConstructor (syn : Syn) (r : Ident) (binding body : TokenStream) : Prop where
  detects : effectBodyContainsAwait body = true ↔ AwaitsOutside [] body
  picks : accepted (expandBlock syn r body) = true →
    AwaitsOutside [] (outTokens (expandBlock syn r body)) →
    expand syn r binding body = newAsync binding (expandBlock syn r body)

/-- **The constructor is picked exactly when it must be** if and only if the walk sees what is
    awaited outside of async blocks, or misses some just when it goes into a block. -/
theorem picks_iff (syn : Syn) (r : Ident) (binding body : TokenStream) :
    PicksConstructor syn r binding body
      ↔ SeenOutside [] body ∨ (Swallowed [] body ↔ Misread [] body) := by
  rw [← contains_await_iff]
  refine ⟨PicksConstructor.detects, fun hdetects => ⟨hdetects, fun haccepted hawaits => ?_⟩⟩
  rw [expand, needsAsync]
  cases hbind : effectBodyContainsBind body with
  | true => rfl
  | false =>
      rw [hdetects.2 (awaits_expandBlock hbind haccepted hawaits)]
      rfl

/-- `let x = async { 1 }.await; x` -/
def blockAwaited : TokenStream :=
  [word "let", word "x", .punct '=', word "async", .group .brace [.literal "1"], .punct '.',
    word "await", .punct ';', word "x"]

/-- The dot after the block is gone past with it, and what awaits is not made async. -/
theorem block_awaited_missed :
    ¬ PicksConstructor wordSyn ⟨"r", false⟩ [word "r"] blockAwaited ∧
      expand wordSyn ⟨"r", false⟩ [word "r"] blockAwaited
        = newSync [word "r"] (expandBlock wordSyn ⟨"r", false⟩ blockAwaited) ∧
      AwaitsOutside [] (outTokens (expandBlock wordSyn ⟨"r", false⟩ blockAwaited)) := by
  have hmissed : effectBodyContainsAwait blockAwaited = false := by
    simp [effectBodyContainsAwait, blockAwaited, walk, word, Ident.is, skipMove, skipAwait]
  have hawaits : AwaitsOutside [] blockAwaited :=
    .later (.later (.later (.later (.later (.here rfl)))))
  refine ⟨fun h => ?_, ?_, ?_⟩
  · rw [h.detects.2 hawaits] at hmissed
    cases hmissed
  · rw [expand, needsAsync, hmissed]
    rfl
  · have hexpanded : ∃ rest, outTokens (expandBlock wordSyn ⟨"r", false⟩ blockAwaited)
        = blockAwaited.take 7 ++ rest := by
      simp [expandBlock, blockAwaited, splitSemicolons, isBlockStmtKeyword, planStatementChunks,
        planFrom, emit, word, isSerial, chunkHasSerialAttr, desugarIdentTildeBind, parseBindStep,
        Ident.is, expandTilde_cons, expandTilde, expandSight, look, outTokens, Out.tokens]
    obtain ⟨rest, hrest⟩ := hexpanded
    rw [hrest]
    exact .later (.later (.later (.later (.later (.here rfl)))))

end IdEffect.ProcMacro
