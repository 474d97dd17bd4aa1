import IdEffect.ProcMacro.InferCaps

set_option autoImplicit false

/-! # Keys and lookups

Where the keys stand that the expansion looks up, and those that are collected (`places`). -/

namespace IdEffect.ProcMacro

/-! ## Lookups in the expansion -/

mutual

/-- The keys that are looked up. -/
def Out.lookups : Out → List TokenStream
  | .token _ | .compileError _ => []
  | .group _ stream => lookups stream
  | .need key stream => key :: lookups stream

def lookups : List Out → List TokenStream
  | [] => []
  | o :: os => o.lookups ++ lookups os

end

theorem lookups_append (os os' : List Out) : lookups (os ++ os') = lookups os ++ lookups os' := by
  induction os with
  | nil => rfl
  | cons o os ih => rw [List.cons_append, lookups, lookups, ih, List.append_assoc]

theorem lookups_tokens (ts : TokenStream) : lookups (ts.map .token) = [] := by
  induction ts with
  | nil => rfl
  | cons t ts ih => exact ih

theorem lookups_capIntoBind (r : Ident) (operand : List Out) :
    lookups (capIntoBind r operand) = lookups operand := by
  simp [capIntoBind, lookups_append, lookups_tokens, lookups, Out.lookups]

/-! ## Places -/

/-- Who finds a key. -/
inductive View where
  | both
  | expansion
  | collector
  deriving DecidableEq, Repr

abbrev Place : Type := View × TokenStream

/-- The keys that the expansion looks up. -/
def expanded (ps : List Place) : List TokenStream :=
  (ps.filter (·.1 != .collector)).map Prod.snd

def collected (ps : List Place) : List TokenStream :=
  (ps.filter (·.1 != .expansion)).map Prod.snd

/-- What the places are inside of something that only the expansion goes into. -/
def hidden (ps : List Place) : List Place := (expanded ps).map (.expansion, ·)

theorem expanded_map (keys : List TokenStream) :
    expanded (keys.map (View.expansion, ·)) = keys := by
  induction keys with
  | nil => rfl
  | cons key keys ih => exact congrArg (key :: ·) ih

theorem collected_map (keys : List TokenStream) :
    collected (keys.map (View.expansion, ·)) = [] := by
  induction keys with
  | nil => rfl
  | cons key keys ih => exact ih

theorem expanded_hidden (ps : List Place) : expanded (hidden ps) = expanded ps := expanded_map _

theorem collected_hidden (ps : List Place) : collected (hidden ps) = [] := collected_map _

theorem collected_both (key : TokenStream) (ps : List Place) :
    collected ((.both, key) :: hidden ps) = [key] :=
  congrArg (key :: ·) (collected_hidden ps)

theorem expanded_both (key : TokenStream) (ps : List Place) :
    expanded ((.both, key) :: hidden ps) = key :: expanded ps :=
  congrArg (key :: ·) (expanded_hidden ps)

theorem expanded_append (ps ps' : List Place) :
    expanded (ps ++ ps') = expanded ps ++ expanded ps' := by
  rw [expanded, List.filter_append, List.map_append]
  rfl

theorem collected_append (ps ps' : List Place) :
    collected (ps ++ ps') = collected ps ++ collected ps' := by
  rw [collected, List.filter_append, List.map_append]
  rfl

section Places

variable (syn : Syn) (r : Ident)

/-- The keys that stand in a stream, with who finds them there. -/
def places : TokenStream → List Place
  | [] => []
  | t :: ts =>
      match _h : look t ts with
      | (.require none, rest) => places rest
      | (.require (some args), rest) =>
          (if (syn.parseType args).isSome then
              if syn.exprComma args then [(.collector, args)]
              else (.both, args) :: hidden (places (needsLookup r args))
            else []) ++ places rest
      | (.tilde operand, rest) =>
          (if isCapabilityKeyOperand syn.typePath operand then
              (.both, operand) :: hidden (places (needsLookup r operand))
            else hidden (places operand)) ++ places rest
      | (.group _ stream, rest) => places stream ++ places rest
      | (.other _, rest) => places rest
  termination_by ts => streamWeight ts
  decreasing_by
    all_goals have hlook := weight_look t ts
    all_goals simp only [_h, Sight.inner, Sight.spare, Option.getD] at hlook
    case _ => omega
    case _ => exact Nat.lt_trans (weight_needsLookup r args) (by omega)
    case _ => omega
    case _ => exact Nat.lt_trans (weight_needsLookup r operand) (by omega)
    all_goals omega

/-- The keys in what a round has seen. -/
def sightPlaces : Sight → List Place
  | .require none | .other _ => []
  | .require (some args) =>
      if (syn.parseType args).isSome then
        if syn.exprComma args then [(.collector, args)]
        else (.both, args) :: hidden (places syn r (needsLookup r args))
      else []
  | .tilde operand =>
      if isCapabilityKeyOperand syn.typePath operand then
        (.both, operand) :: hidden (places syn r (needsLookup r operand))
      else hidden (places syn r operand)
  | .group _ stream => places syn r stream

theorem places_cons (t : TokenTree) (ts : TokenStream) :
    places syn r (t :: ts)
      = sightPlaces syn r (look t ts).1 ++ places syn r (look t ts).2 := by
  rw [places]
  generalize look t ts = seen
  obtain ⟨sight, rest⟩ := seen
  cases sight with
  | require args =>
      cases args with
      | none => rfl
      | some args => rfl
  | tilde operand | group d stream | other u => rfl

/-- Induction over what the loops go through. -/
theorem weightInduction {P : TokenStream → Prop} (nil : P [])
    (cons : ∀ t ts, (∀ us, streamWeight us < streamWeight (t :: ts) → P us) → P (t :: ts))
    (ts : TokenStream) : P ts := by
  induction hn : streamWeight ts using Nat.strongRecOn generalizing ts with
  | ind n ih =>
      subst hn
      cases ts with
      | nil => exact nil
      | cons t ts => exact cons t ts fun us hus => ih _ hus us rfl

theorem weight_rest (t : TokenTree) (ts : TokenStream) :
    streamWeight (look t ts).2 < streamWeight (t :: ts) := by
  have := weight_look t ts
  omega

/-- **What the expansion looks up** stands where it looks. -/
theorem lookups_expandTilde (ts : TokenStream) :
    lookups (expandTilde syn r ts) = expanded (places syn r ts) := by
  induction ts using weightInduction with
  | nil =>
      rw [expandTilde, places]
      rfl
  | cons t ts ih =>
      have hsight : (expandSight syn r (look t ts).1).lookups
          = expanded (sightPlaces syn r (look t ts).1) := by
        have hlook := weight_look t ts
        generalize (look t ts).1 = sight at hlook
        cases sight with
        | other u => rfl
        | group d stream =>
            simp only [Sight.inner, Sight.spare] at hlook
            exact ih stream (by omega)
        | require args =>
            cases args with
            | none => rfl
            | some args =>
                have hneeds := weight_needsLookup r args
                simp only [Sight.inner, Sight.spare, Option.getD] at hlook
                rw [expandSight, sightPlaces, RequireArgs.parse]
                cases syn.exprComma args with
                | true =>
                    cases syn.exprCommaType args <;> cases (syn.parseType args).isSome <;> rfl
                | false =>
                    cases (syn.parseType args).isSome with
                    | false => rfl
                    | true =>
                        exact (congrArg (args :: ·) (ih _ (by omega))).trans
                          (expanded_both args _).symm
        | tilde operand =>
            have hneeds := weight_needsLookup r operand
            simp only [Sight.inner, Sight.spare] at hlook
            rw [expandSight, sightPlaces]
            split
            · exact (congrArg (operand :: ·) (ih _ (by omega))).trans
                (expanded_both operand _).symm
            · rw [Out.lookups, lookups_append, lookups_capIntoBind, ih operand (by omega),
                expanded_hidden]
              exact List.append_nil _
      rw [expandTilde_cons, lookups, places_cons, expanded_append, hsight,
        ih _ (weight_rest t ts)]

/-- The collector goes on after what a round has seen. -/
theorem collectKeysRecursive_cons (keys : List TokenStream) (t : TokenTree) (ts : TokenStream) :
    collectKeysRecursive syn keys (t :: ts)
      = collectKeysRecursive syn
          (match (look t ts).1 with
            | .require (some args) =>
                if (syn.parseType args).isSome then pushUniqueKey keys args else keys
            | .tilde operand =>
                if isCapabilityKeyOperand syn.typePath operand then pushUniqueKey keys operand
                else keys
            | .group _ stream => collectKeysRecursive syn keys stream
            | .require none | .other _ => keys) (look t ts).2 := by
  rw [collectKeysRecursive]
  generalize look t ts = seen
  obtain ⟨sight, rest⟩ := seen
  cases sight with
  | require args =>
      cases args with
      | none => rfl
      | some args =>
          simp only
          split <;> rfl
  | tilde operand =>
      simp only
      split
      · next hkey =>
          have hsome : (syn.parseType operand).isSome = true := by
            simp only [isCapabilityKeyOperand, Syn.typePath, Bool.and_eq_true, beq_iff_eq] at hkey
            rw [hkey.2]
            rfl
          rw [if_pos hsome]
      · rfl
  | group d stream | other u => rfl

/-- **What is collected** are the names of the keys that stand where the collector looks. -/
theorem mem_collectKeysRecursive (ts : TokenStream) : ∀ (keys : List TokenStream) (name : String),
    name ∈ (collectKeysRecursive syn keys ts).map keyName
      ↔ name ∈ keys.map keyName ∨ name ∈ (collected (places syn r ts)).map keyName := by
  induction ts using weightInduction with
  | nil =>
      intro keys name
      rw [collectKeysRecursive, places]
      exact (or_iff_left List.not_mem_nil).symm
  | cons t ts ih =>
      intro keys name
      have hlook := weight_look t ts
      have hrest := weight_rest t ts
      rw [collectKeysRecursive_cons, places_cons, collected_append, List.map_append,
        List.mem_append, ih _ hrest, ← or_assoc]
      refine or_congr_left ?_
      generalize (look t ts).1 = sight at hlook
      cases sight with
      | other u => exact (or_iff_left List.not_mem_nil).symm
      | group d stream =>
          simp only [Sight.inner, Sight.spare] at hlook
          exact ih stream (by omega) keys name
      | require args =>
          cases args with
          | none => exact (or_iff_left List.not_mem_nil).symm
          | some args =>
              rw [sightPlaces]
              simp only
              split
              · rw [mem_pushUniqueKey]
                refine or_congr_right ?_
                split
                · exact List.mem_singleton.symm
                · rw [collected_both]
                  exact List.mem_singleton.symm
              · exact (or_iff_left List.not_mem_nil).symm
      | tilde operand =>
          rw [sightPlaces]
          simp only
          split
          · rw [mem_pushUniqueKey, collected_both]
            exact or_congr_right List.mem_singleton.symm
          · rw [collected_hidden]
            exact (or_iff_left List.not_mem_nil).symm

end Places

end IdEffect.ProcMacro
