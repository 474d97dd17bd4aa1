import IdEffect.ProcMacro.EffectGraph

set_option autoImplicit false

/-! # What a plan is good for

A plan gives back the chunks, and its sets are of binds that have nothing to do with one another
(`Planned`). The planner cannot be blamed for the sizes of the sets, for what it puts into them, or
for an operand that mentions an earlier variable in the same spelling. Whether the rest is as it
should be can be told from the chunks: each bind is compared with those before it in the same four
of its stretch (`Apart`). -/

namespace IdEffect.ProcMacro

/-! ## The promise -/

/-- The bind as a chunk. -/
def BindStep.tokens (step : BindStep) : TokenStream :=
  word "let" :: .ident step.var :: .punct '=' :: .punct '~' :: step.operand

/-- What a plan has of a chunk. -/
inductive Part where
  | chunk (chunk : TokenStream)
  | step (step : BindStep)

def StmtPlan.parts : StmtPlan → List Part
  | .sequential chunk => [.chunk chunk]
  | .parallelSet steps => steps.map .step

section Planner

variable (typePath : TokenStream → Bool)

/-- A chunk is given back as it is, or as a bind, which it is after desugaring: neither serial nor
    of a capability key. -/
def GivesBack (chunk : TokenStream) : Part → Prop
  | .chunk c => c = chunk
  | .step step => desugarIdentTildeBind chunk = step.tokens ∧ isSerial chunk = false
      ∧ isCapabilityKeyOperand typePath step.operand = false

/-- The later bind neither binds the same name as the earlier one nor uses it. -/
def Independent (a b : BindStep) : Prop :=
  a.var.name ≠ "_" → a.var.name ≠ b.var.name ∧ usesName a.var.name b.operand = false

def StmtPlan.Sound : StmtPlan → Prop
  | .sequential _ => True
  | .parallelSet steps => (2 ≤ steps.length ∧ steps.length ≤ 4) ∧ steps.Pairwise Independent

/-- The plan gives back all chunks that are not empty, each once and in order, and what is run at
    once is independent. -/
structure Planned (chunks : List TokenStream) (plans : List StmtPlan) : Prop where
  complete : List.Forall₂ (GivesBack typePath) (chunks.filter fun c => !c.isEmpty)
    (plans.flatMap StmtPlan.parts)
  sound : ∀ plan ∈ plans, plan.Sound

/-! ## The condition -/

/-- `let name: Type = …` -/
def isAnnotated (chunk : TokenStream) : Bool :=
  match desugarIdentTildeBind chunk with
  | _ :: _ :: .punct ':' :: _ => true
  | _ => false

end Planner

/-- Neither bind has an annotation; the later one does not bind the same name, and does not use the
    earlier one's in a way that is not seen. -/
structure Separate (a b : Free) : Prop where
  before : isAnnotated a.chunk = false
  after : isAnnotated b.chunk = false
  apart : a.var.name ≠ "_" →
    a.var.name ≠ b.var.name ∧ hidesName a.var b.step.operand = false

/-- The binds at the end of a stretch that are in the same four as the next one. -/
def companions (stretch : List Free) : List Free :=
  stretch.drop (stretch.length / maxParallelBinds * maxParallelBinds)

/-- Each bind that may be grouped is separate from those before it in the same four of its stretch,
    which so far is `stretch`. -/
def Apart : List Free → List Slot → Prop
  | _, [] => True
  | stretch, .free f :: rest =>
      (∀ a ∈ companions stretch, Separate a f) ∧ Apart (stretch ++ [f]) rest
  | _, .gap :: rest | _, .alone _ :: rest => Apart [] rest

/-! ## What the pieces are -/

section Planner

variable {typePath : TokenStream → Bool}

/-- A bind that may be grouped. -/
structure Free.Ok (typePath : TokenStream → Bool) (f : Free) : Prop where
  serial : isSerial f.chunk = false
  parse : parseBindStep typePath (desugarIdentTildeBind f.chunk) = some f.step

/-- Binds that come one after the other, none of which visibly depends on an earlier one. -/
structure SetOk (typePath : TokenStream → Bool) (fs : List Free) : Prop where
  ok : ∀ f ∈ fs, f.Ok typePath
  free : fs.Pairwise fun a b => tokensReferenceIdent a.var b.step.operand = false

theorem chunks_cut (chunks : List TokenStream) : ∀ (bound : List Ident) (fs : List Free),
    (cut fs (slots typePath bound chunks)).flatMap Piece.chunks
      = fs.map Free.chunk ++ chunks.filter fun c => !c.isEmpty := by
  have hwaiting : ∀ fs : List Free, (waiting fs).flatMap Piece.chunks = fs.map Free.chunk := by
    intro fs
    cases fs with
    | nil => rfl
    | cons f fs => exact List.append_nil _
  induction chunks with
  | nil => exact fun _ fs => (hwaiting fs).trans (List.append_nil _).symm
  | cons chunk rest ih =>
      intro bound fs
      have hcase : SlotCase typePath bound chunk _ := slot_case bound chunk
      rw [slots]
      generalize slot typePath bound chunk = s at hcase
      cases hcase with
      | gap h =>
          subst h
          rw [cut, List.flatMap_append, hwaiting, ih]
          rfl
      | alone h =>
          rw [cut, List.flatMap_append, hwaiting, List.flatMap_cons, ih,
            List.filter_cons_of_pos (by simpa using h)]
          rfl
      | free h _ _ _ =>
          rw [List.filter_cons_of_pos (by simpa using h), cut]
          split
          · rw [List.flatMap_cons, ih, Piece.chunks, List.map_append]
            simp
          · rw [ih, List.map_append, List.append_assoc]
            rfl

theorem setOk_nil : SetOk typePath [] := ⟨fun _ h => absurd h List.not_mem_nil, List.Pairwise.nil⟩

theorem cut_ok (chunks : List TokenStream) : ∀ (bound : List Ident) (fs : List Free),
    SetOk typePath fs → fs.length < maxParallelBinds → (∀ f ∈ fs, f.var ∈ bound) →
    ∀ gs, .set gs ∈ cut fs (slots typePath bound chunks) →
      gs ≠ [] ∧ gs.length ≤ maxParallelBinds ∧ SetOk typePath gs := by
  have hwaiting : ∀ {fs gs : List Free}, SetOk typePath fs → fs.length < maxParallelBinds →
      .set gs ∈ waiting fs → gs ≠ [] ∧ gs.length ≤ maxParallelBinds ∧ SetOk typePath gs := by
    intro fs gs hok hlen hmem
    cases fs with
    | nil => cases hmem
    | cons f fs =>
        obtain rfl := Piece.set.inj (List.mem_singleton.1 hmem)
        exact ⟨by simp, Nat.le_of_lt hlen, hok⟩
  induction chunks with
  | nil => exact fun _ fs hok hlen _ gs hmem => hwaiting hok hlen hmem
  | cons chunk rest ih =>
      intro bound fs hok hlen hbound gs hmem
      have hcase : SlotCase typePath bound chunk _ := slot_case bound chunk
      have hb : ∀ f, slot typePath bound chunk = .free f → boundBy typePath chunk = [f.var] :=
        fun f h => boundBy_of_free h
      rw [slots] at hmem
      generalize slot typePath bound chunk = s at hcase hmem hb
      cases hcase with
      | gap h =>
          rw [cut] at hmem
          rcases List.mem_append.1 hmem with hmem | hmem
          · exact hwaiting hok hlen hmem
          · exact ih _ [] setOk_nil (by decide) (fun _ h => by cases h) gs hmem
      | alone h =>
          rw [cut] at hmem
          rcases List.mem_append.1 hmem with hmem | hmem
          · exact hwaiting hok hlen hmem
          · rcases List.mem_cons.1 hmem with heq | hmem
            · cases heq
            · exact ih _ [] setOk_nil (by decide) (fun _ h => by cases h) gs hmem
      | @free step h hserial hparse hfree =>
          have hok' : SetOk typePath (fs ++ [⟨chunk, step⟩]) := by
            refine ⟨fun f hf => ?_, ?_⟩
            · rcases List.mem_append.1 hf with hf | hf
              · exact hok.ok f hf
              · obtain rfl := List.mem_singleton.1 hf
                exact ⟨hserial, hparse⟩
            · refine List.pairwise_append.2
                ⟨hok.free, List.pairwise_singleton _ _, fun a ha b hb => ?_⟩
              obtain rfl := List.mem_singleton.1 hb
              exact Bool.eq_false_iff.2 (List.any_eq_false.1 hfree a.var (hbound a ha))
          rw [cut] at hmem
          split at hmem
          · next hfull =>
              rcases List.mem_cons.1 hmem with heq | hmem
              · obtain rfl := Piece.set.inj heq
                refine ⟨by simp, ?_, hok'⟩
                exact Nat.le_of_eq (List.length_append.trans hfull)
              · exact ih _ [] setOk_nil (by decide) (fun _ h => by cases h) gs hmem
          · next hfull =>
              refine ih _ _ hok' ?_ (fun f hf => ?_) gs hmem
              · rw [List.length_append, List.length_singleton]
                omega
              · rw [hb _ rfl]
                rcases List.mem_append.1 hf with hf | hf
                · exact List.mem_append_left _ (hbound f hf)
                · exact List.mem_append_right _
                      (List.mem_singleton.1 hf ▸ List.mem_singleton_self _)

/-! ## One set -/

/-- A bind, with an annotation or without. -/
inductive ParseCase (typePath : TokenStream → Bool) : TokenStream → BindStep → Prop
  | plain {step : BindStep} (hkey : isCapabilityKeyOperand typePath step.operand = false) :
      ParseCase typePath step.tokens step
  | annotated {step : BindStep} {ts : TokenStream}
      (hskip : skipAnnotation 0 ts = .punct '=' :: .punct '~' :: step.operand)
      (hkey : isCapabilityKeyOperand typePath step.operand = false) :
      ParseCase typePath (word "let" :: .ident step.var :: .punct ':' :: ts) step

theorem parse_case {chunk : TokenStream} {step : BindStep}
    (h : parseBindStep typePath chunk = some step) : ParseCase typePath chunk step := by
  unfold parseBindStep at h
  split at h
  · cases h
  · split at h
    · next letKw var rest _ =>
        split at h
        · next hlet =>
            obtain rfl : letKw = ⟨"let", false⟩ := by
              obtain ⟨name, raw⟩ := letKw
              simpa [Ident.is, and_comm] using hlet
            split at h
            · next operand hrest =>
                split at h
                · cases h
                · next hkey =>
                    obtain rfl := Option.some.inj h
                    rw [Bool.not_eq_true] at hkey
                    split at hrest
                    · exact @ParseCase.annotated _ ⟨var, operand⟩ _ hrest hkey
                    · rw [hrest]
                      exact @ParseCase.plain _ ⟨var, operand⟩ hkey
            · cases h
        · cases h
    · cases h

theorem ParseCase.key {chunk : TokenStream} {step : BindStep} (h : ParseCase typePath chunk step) :
    isCapabilityKeyOperand typePath step.operand = false := by
  cases h with
  | plain hkey => exact hkey
  | annotated _ hkey => exact hkey

/-- What a bind that was parsed gives back: all of its chunk, unless there was an annotation. -/
theorem Free.Ok.givesBack_iff {f : Free} (h : f.Ok typePath) :
    GivesBack typePath f.chunk (.step f.step) ↔ isAnnotated f.chunk = false := by
  have hcase : ParseCase typePath _ f.step := parse_case h.parse
  rw [GivesBack, isAnnotated]
  generalize desugarIdentTildeBind f.chunk = chunk at hcase
  cases hcase with
  | plain hkey => exact iff_of_true ⟨rfl, h.serial, hkey⟩ rfl
  | annotated _ _ =>
      refine iff_of_false (fun hback => ?_) Bool.noConfusion
      injection hback.1 with _ htail
      injection htail with _ htail
      injection htail with hcolon _
      cases hcolon

/-- A set is of at least two, or is a chunk. -/
theorem set_plan (f g : Free) (fs : List Free) :
    (Piece.set (f :: g :: fs)).plan = .parallelSet ((f :: g :: fs).map Free.step) := rfl

theorem pairwise_separate {fs : List Free} (hlen : 2 ≤ fs.length) (hok : SetOk typePath fs) :
    fs.Pairwise Separate
      ↔ (∀ f ∈ fs, isAnnotated f.chunk = false) ∧ (fs.map Free.step).Pairwise Independent := by
  have huses : ∀ a ∈ fs, ∀ b ∈ fs, tokensReferenceIdent a.var b.step.operand = false →
      (Independent a.step b.step ↔ (a.var.name ≠ "_" →
        a.var.name ≠ b.var.name ∧ hidesName a.var b.step.operand = false)) := by
    intro a _ b _ hsee
    have huse : usesName a.var.name b.step.operand = hidesName a.var b.step.operand := by
      rw [usesName_eq, hsee, Bool.false_or]
    rw [← huse]
    rfl
  rw [List.pairwise_map]
  constructor
  · intro hsep
    refine ⟨?_, (hsep.and hok.free).imp_of_mem
      fun ha hb h => (huses _ ha _ hb h.2).2 h.1.apart⟩
    match fs, hlen, hsep with
    | f :: g :: fs, _, hsep =>
        have hall : ∀ b ∈ g :: fs, Separate f b := (List.pairwise_cons.1 hsep).1
        intro b hb
        rcases List.mem_cons.1 hb with rfl | hb
        · exact (hall g List.mem_cons_self).before
        · exact (hall b hb).after
  · rintro ⟨hplain, hindep⟩
    exact (hindep.and hok.free).imp_of_mem fun ha hb h =>
      ⟨hplain _ ha, hplain _ hb, (huses _ ha _ hb h.2).1 h.1⟩

/-- A set is as it should be if its binds are separate, one of another. -/
theorem set_iff {fs : List Free} (hne : fs ≠ []) (hlen : fs.length ≤ maxParallelBinds)
    (hok : SetOk typePath fs) :
    List.Forall₂ (GivesBack typePath) (fs.map Free.chunk) (Piece.set fs).plan.parts
      ∧ (Piece.set fs).plan.Sound ↔ fs.Pairwise Separate := by
  match fs, hne, hlen, hok with
  | [f], _, _, _ => exact iff_of_true ⟨.cons rfl .nil, trivial⟩ (List.pairwise_singleton _ _)
  | f :: g :: fs, _, hlen, hok =>
      have hback : List.Forall₂ (GivesBack typePath) ((f :: g :: fs).map Free.chunk)
          ((Piece.set (f :: g :: fs)).plan.parts)
            ↔ ∀ x ∈ f :: g :: fs, isAnnotated x.chunk = false := by
        rw [show (Piece.set (f :: g :: fs)).plan.parts
          = ((f :: g :: fs).map Free.step).map .step from rfl, List.map_map,
          List.forall₂_map_left_iff, List.forall₂_map_right_iff, List.forall₂_same]
        exact forall₂_congr fun x hx => (hok.ok x hx).givesBack_iff
      have hsound : (Piece.set (f :: g :: fs)).plan.Sound
          ↔ ((f :: g :: fs).map Free.step).Pairwise Independent := by
        refine and_iff_right ⟨Nat.le_add_left 2 _, ?_⟩
        rw [List.length_map]
        exact hlen
      rw [hback, hsound, pairwise_separate (Nat.le_add_left 2 _) hok]

/-! ## All sets -/

theorem companions_append (stretch : List Free) (f : Free) :
    companions (stretch ++ [f])
      = if (companions stretch).length + 1 = maxParallelBinds then []
        else companions stretch ++ [f] := by
  have hlen : (companions stretch).length = stretch.length % 4 := by
    rw [companions, List.length_drop, maxParallelBinds]
    omega
  rw [hlen, companions, companions, List.length_append, List.length_singleton, maxParallelBinds]
  split
  · next h =>
      refine List.drop_eq_nil_of_le ?_
      rw [List.length_append, List.length_singleton]
      omega
  · next h =>
      have hdiv : (stretch.length + 1) / 4 = stretch.length / 4 := by omega
      rw [hdiv, List.drop_append_of_le_length (by omega)]

/-- The sets are of separate binds if each bind is separate from those before it in the same four.
-/
theorem apart_iff (l : List Slot) : ∀ stretch : List Free,
    (∀ fs, .set fs ∈ cut (companions stretch) l → fs.Pairwise Separate)
      ↔ (companions stretch).Pairwise Separate ∧ Apart stretch l := by
  have hwaiting : ∀ gs : List Free,
      (∀ fs, .set fs ∈ waiting gs → fs.Pairwise Separate) ↔ gs.Pairwise Separate := by
    intro gs
    cases gs with
    | nil => simp [waiting]
    | cons g gs => simp [waiting]
  induction l with
  | nil => exact fun stretch => (hwaiting _).trans (and_true _).symm.to_iff
  | cons s rest ih =>
      intro stretch
      have hrest : (∀ fs, .set fs ∈ cut [] rest → fs.Pairwise Separate) ↔ Apart [] rest :=
        (ih []).trans (and_iff_right List.Pairwise.nil)
      cases s with
      | gap =>
          rw [cut, Apart, ← hwaiting, ← hrest]
          simp only [List.mem_append, or_imp, forall_and]
      | alone chunk =>
          rw [cut, Apart, ← hwaiting, ← hrest]
          simp only [List.mem_append, List.mem_cons, reduceCtorEq, false_or, or_imp, forall_and]
      | free f =>
          have hpairwise : (companions stretch ++ [f]).Pairwise Separate
              ↔ (companions stretch).Pairwise Separate
                ∧ ∀ a ∈ companions stretch, Separate a f := by
            simp [List.pairwise_append]
          have hnext := ih (stretch ++ [f])
          rw [companions_append] at hnext
          rw [cut, Apart, ← and_assoc, ← hpairwise]
          split
          · next hfull =>
              rw [if_pos hfull] at hnext
              simp only [List.mem_cons, or_imp, forall_and, Piece.set.injEq, forall_eq, hnext,
                List.Pairwise.nil, true_and]
          · next hfull =>
              rw [if_neg hfull] at hnext
              exact hnext

theorem forall₂_flatMap {α β γ : Type} {R : β → γ → Prop} {f : α → List β} {g : α → List γ}
    (h : ∀ a, (f a).length = (g a).length) (l : List α) :
    List.Forall₂ R (l.flatMap f) (l.flatMap g) ↔ ∀ a ∈ l, List.Forall₂ R (f a) (g a) := by
  induction l with
  | nil => simp
  | cons a l ih =>
      rw [List.flatMap_cons, List.flatMap_cons, List.forall_mem_cons, ← ih]
      refine ⟨fun hall => ⟨?_, ?_⟩, fun hall => List.rel_append hall.1 hall.2⟩
      · have htake := List.forall₂_take_append _ _ _ hall
        rwa [← h a, List.take_left] at htake
      · have hdrop := List.forall₂_drop_append _ _ _ hall
        rwa [← h a, List.drop_left] at hdrop

theorem Piece.length_parts (p : Piece) : p.chunks.length = p.plan.parts.length := by
  match p with
  | .alone _ | .set [] | .set [_] => rfl
  | .set (_ :: _ :: _) => simp [Piece.chunks, Piece.plan, StmtPlan.parts]

/-- **The plan is as it should be if and only if the binds of each set are separate.** -/
theorem planned_iff_apart (chunks : List TokenStream) :
    Planned typePath chunks (planStatementChunks typePath chunks)
      ↔ Apart [] (slots typePath [] chunks) := by
  let pieces := cut [] (slots typePath [] chunks)
  have hchunks : pieces.flatMap Piece.chunks = chunks.filter fun c => !c.isEmpty :=
    chunks_cut chunks [] []
  have hsets : ∀ fs, .set fs ∈ pieces →
      fs ≠ [] ∧ fs.length ≤ maxParallelBinds ∧ SetOk typePath fs :=
    cut_ok chunks [] [] setOk_nil (by decide) fun _ h => absurd h List.not_mem_nil
  have hpieces : Planned typePath chunks (pieces.map Piece.plan) ↔ ∀ p ∈ pieces,
      List.Forall₂ (GivesBack typePath) p.chunks p.plan.parts ∧ p.plan.Sound := by
    rw [forall₂_and, ← forall₂_flatMap Piece.length_parts, hchunks]
    refine ⟨fun h => ⟨?_, fun p hp => h.sound _ (List.mem_map_of_mem hp)⟩, fun h => ⟨?_, ?_⟩⟩
    · have hcomplete := h.complete
      rwa [List.flatMap_map] at hcomplete
    · rw [List.flatMap_map]
      exact h.1
    · intro plan hplan
      obtain ⟨p, hp, rfl⟩ := List.mem_map.1 hplan
      exact h.2 p hp
  have hapart : Apart [] (slots typePath [] chunks)
      ↔ ∀ fs, .set fs ∈ pieces → fs.Pairwise Separate :=
    ((apart_iff _ []).trans (and_iff_right List.Pairwise.nil)).symm
  rw [plan_eq_cut, hapart]
  refine hpieces.trans ⟨fun h fs hfs => ?_, fun h p hp => ?_⟩
  · obtain ⟨hne, hlen, hok⟩ := hsets fs hfs
    exact (set_iff hne hlen hok).1 (h _ hfs)
  · cases p with
    | alone chunk => exact ⟨.cons rfl .nil, trivial⟩
    | set fs =>
        obtain ⟨hne, hlen, hok⟩ := hsets fs hp
        exact (set_iff hne hlen hok).2 (h fs hp)

end Planner

/-- `let a = ~ f(); let b = ~ g(format!("…"));`, where the string captures `a` -/
def capturing : List TokenStream :=
  [[word "let", word "a", .punct '=', .punct '~', word "f", .group .parenthesis []],
    [word "let", word "b", .punct '=', .punct '~', word "g", .group .parenthesis
      [word "format", .punct '!', .group .parenthesis [.str "\x7ba\x7d"]]]]

/-- A name that is captured by a format string is not seen: the bind that uses it is run at the same
    time as the one that binds it. -/
theorem captured_missed : ¬ Planned (fun _ => false) capturing
    (planStatementChunks (fun _ => false) capturing) := by
  intro h
  have hindep : (capturing.filterMap (parseBindStep fun _ => false)).Pairwise Independent :=
    (h.sound (.parallelSet (capturing.filterMap (parseBindStep fun _ => false)))
      List.mem_cons_self).2
  have huse := (List.pairwise_cons.1 hindep).1 _ List.mem_cons_self
  exact Bool.noConfusion (huse (by decide)).2

end IdEffect.ProcMacro
