import IdEffect.ProcMacro.Expand

set_option autoImplicit false

/-! # Inferring the capabilities of a body: `infer_caps.rs`

The keys are collected from the body as it is written, and checked against the ones that the type of
the environment lists. Keys are compared by their text. -/

namespace IdEffect.ProcMacro

/-! ## Collecting -/

/-- `type_key_name` -/
def keyName (key : TokenStream) : String := streamText [' '] key

def pushUniqueKey (keys : List TokenStream) (key : TokenStream) : List TokenStream :=
  if keys.any fun k => keyName k == keyName key then keys else keys ++ [key]

/-- The keys that are found, after those that have been found already. -/
def collectKeysRecursive (syn : Syn) (keys : List TokenStream) : TokenStream → List TokenStream
  | [] => keys
  | t :: ts =>
      match _h : look t ts with
      | (.require none, rest) => collectKeysRecursive syn keys rest
      | (.require (some args), rest) =>
          if (syn.parseType args).isSome then
            collectKeysRecursive syn (pushUniqueKey keys args) rest
          else collectKeysRecursive syn keys rest
      | (.tilde operand, rest) =>
          if isCapabilityKeyOperand syn.typePath operand then
            if (syn.parseType operand).isSome then
              collectKeysRecursive syn (pushUniqueKey keys operand) rest
            else collectKeysRecursive syn keys rest
          else collectKeysRecursive syn keys rest
      | (.group _ stream, rest) =>
          collectKeysRecursive syn (collectKeysRecursive syn keys stream) rest
      | (.other _, rest) => collectKeysRecursive syn keys rest
  termination_by ts => streamWeight ts
  decreasing_by
    all_goals have hlook := weight_look t ts
    all_goals simp only [_h, Sight.inner, Sight.spare, Option.getD] at hlook
    all_goals omega

def collectCapabilityKeys (syn : Syn) (body : TokenStream) : List TokenStream :=
  collectKeysRecursive syn [] body

/-! ## Environment types -/

/-- A type in the tuple of a `CapList`, with what is in the angles if its last segment is
    `Cap<…>`. -/
structure TupleElem where
  tokens : TokenStream
  cap : Option TokenStream

inductive GenericArgument where
  | tuple (elems : List TupleElem)
  | other

inductive PathArguments where
  | angleBracketed (args : List GenericArgument)
  | other

inductive EnvType where
  | unit
  | path (segments : List (Ident × PathArguments))
  | other

inductive CapsError where
  | expectedCaps
  | notCapsOrUnit
  | expectedCapList
  | notInferred
  | notListed (key : TokenStream)

/-- The texts of the errors, given how a key is printed. -/
def CapsError.message (print : TokenStream → String) : CapsError → String
  | .expectedCaps => "effect!: expected `caps!(…)` environment type"
  | .notCapsOrUnit => "effect!: closure environment must be `caps!(…)` or `()`"
  | .expectedCapList => "effect!: expected `CapList<(…,)>`"
  | .notInferred =>
      "effect!: closure environment must be `|r: &mut caps!(…)|` or inferred `|r|`"
  | .notListed key =>
      "effect!: `" ++ print key ++ "` is not listed in the closure environment type"

def unwrapCapServiceType (elem : TupleElem) : TokenStream := elem.cap.getD elem.tokens

def extractKeysFromEnvTy : EnvType → Except CapsError (List TokenStream)
  | .unit => .ok []
  | .path segments =>
      match segments.getLast? with
      | none => .error .expectedCaps
      | some (ident, args) =>
          if ident.is "Env" then .ok []
          else if !ident.is "CapList" then .error .notCapsOrUnit
          else
            match args with
            | .angleBracketed (.tuple elems :: _) => .ok (elems.map unwrapCapServiceType)
            | _ => .error .expectedCapList
  | .other => .error .notInferred

def validateExplicitCaps (envTy : EnvType) (bodyKeys : List TokenStream) : Except CapsError Unit :=
  if bodyKeys.isEmpty then .ok ()
  else
    match extractKeysFromEnvTy envTy with
    | .error e => .error e
    | .ok explicit =>
        match bodyKeys.find? fun key => !(explicit.map keyName).contains (keyName key) with
        | some key => .error (.notListed key)
        | none => .ok ()

/-- A type that lists capabilities is accepted if it lists all keys of the body. -/
theorem validate_ok_iff {envTy : EnvType} {explicit : List TokenStream}
    (h : extractKeysFromEnvTy envTy = .ok explicit) (bodyKeys : List TokenStream) :
    validateExplicitCaps envTy bodyKeys = .ok ()
      ↔ ∀ key ∈ bodyKeys, keyName key ∈ explicit.map keyName := by
  rw [validateExplicitCaps]
  split
  · next hempty =>
      rw [List.isEmpty_iff] at hempty
      subst hempty
      exact iff_of_true rfl fun _ hkey => absurd hkey List.not_mem_nil
  · rw [h]
    simp only
    split
    · next key hfind =>
        have hkey := List.find?_some hfind
        refine iff_of_false (fun h => by cases h) fun hall => ?_
        have hmem := hall key (List.mem_of_find?_eq_some hfind)
        simp [hmem] at hkey
    · next hfind =>
        refine iff_of_true rfl fun key hkey => ?_
        have hnot := List.find?_eq_none.1 hfind key hkey
        simpa using hnot

/-! ## What the names of the collected keys are -/

theorem mem_pushUniqueKey (keys : List TokenStream) (key : TokenStream) (name : String) :
    name ∈ (pushUniqueKey keys key).map keyName
      ↔ name ∈ keys.map keyName ∨ name = keyName key := by
  rw [pushUniqueKey]
  split
  · next hany =>
      obtain ⟨k, hk, hname⟩ := List.any_eq_true.1 hany
      rw [beq_iff_eq] at hname
      refine ⟨Or.inl, fun h => h.elim id ?_⟩
      rintro rfl
      exact hname ▸ List.mem_map_of_mem hk
  · rw [List.map_append, List.mem_append]
    exact or_congr_right List.mem_singleton

end IdEffect.ProcMacro
