import IdEffect.Capability.GraphBuild

set_option autoImplicit false

/-! # Running an application: `capability/run.rs`

`run_with` collects the shutdown hooks of the providers in the order in which they are given, builds
the environment, checks that it has what the application asks for, runs the application and then
calls the hooks in the reverse of the order in which they were collected. It returns before that
step if a build fails or a capability is missing, so that what was built by then is never shut down;
and the order it follows is not that of the build. -/

namespace IdEffect.Capability

variable {Key : Type} [DecidableEq Key] {Val : Key → Type} {A E : Type}

open CapabilityGraph (asStored config db dbAndConfig)

inductive CapabilityError (Key : Type) where
  | missing (id : CapabilityId Key)
deriving DecidableEq

inductive RunError (Key E : Type) where
  | planner (e : CapabilityPlannerError String)
  | capability (e : CapabilityError Key)
  | effect (e : E)
deriving DecidableEq

/-- `Env::try_get`. -/
def tryGet (env : Env Val) (key : Key) : Except (CapabilityError Key) (Val key) :=
  match env.lookup key with
  | none => .error (.missing ⟨key, none⟩)
  | some cell => .ok cell.value

/-- `CapKeys::verify_all`, for the keys of the application. The other sets of capabilities have no
    keys to check. -/
def verifyAll (env : Env Val) : List Key → Except (CapabilityError Key) Unit
  | [] => .ok ()
  | key :: keys =>
      match tryGet env key with
      | .error e => .error e
      | .ok _ => verifyAll env keys

/-- What `run_with` returns and what it did: the positions of the providers it built, and the calls
    of `on_shutdown`, in their order. -/
structure Outcome (Val : Key → Type) (A E : Type) where
  result : Except (RunError Key E) A
  built : List ℕ
  shutdowns : List (ℕ × Sigma Val)

/-- The hooks are those of the positions in the second list; every `Provider` has one. -/
def buildEnvWithHooks (iter : Iteration String) (debug : CapabilityId Key → String)
    (providers : List (Provider Val)) : Option (CapabilityGraph.Building Val × List ℕ) :=
  (CapabilityGraph.build iter debug providers).map fun b => (b, List.range providers.length)

/-- The hook of a provider: `on_shutdown` is called if the provider has recorded an output. -/
def shutdown (nodes : List (Provider Val)) (hook : ℕ) : Option (ℕ × Sigma Val) :=
  nodes[hook]?.bind fun p => p.output.map fun value => (hook, ⟨p.spec.key, value⟩)

def runWith (iter : Iteration String) (debug : CapabilityId Key → String)
    (providers : List (Provider Val)) (caps : List Key) (app : Env Val → Except E A) :
    Option (Outcome Val A E) :=
  (buildEnvWithHooks iter debug providers).map fun (b, hooks) =>
    match b.result with
    -- the `?` of the build: the hooks are dropped
    | .error e => ⟨.error (.planner e), b.built.map (·.1), []⟩
    | .ok env =>
        match verifyAll env caps with
        -- the `?` of the check, after everything was built
        | .error e => ⟨.error (.capability e), b.built.map (·.1), []⟩
        | .ok () =>
            -- the hooks run whether the application failed or not
            ⟨(app env).mapError .effect, b.built.map (·.1),
              hooks.reverse.filterMap (shutdown b.nodes)⟩

/-! ## Shutting down what was built -/

/-- Each provider that was built is shut down once, no other is, and dependents come first. -/
structure ShutsDown (providers : List (Provider Val)) (o : Outcome Val A E) : Prop where
  once : ∀ i, (o.shutdowns.map (·.1)).count i = if i ∈ o.built then 1 else 0
  dependentsFirst : ∀ (i j : ℕ) (p q : Provider Val), providers[i]? = some p →
    providers[j]? = some q → i ≠ j → q.spec.provides ∈ p.spec.requires → i ∈ o.built →
      j ∈ o.built → (o.shutdowns.map (·.1)).idxOf i < (o.shutdowns.map (·.1)).idxOf j

/-- There is no plan, nothing in it, or the build of its first provider fails. -/
def NothingBuilt (iter : Iteration String) (debug : CapabilityId Key → String)
    (providers : List (Provider Val)) : Prop :=
  ∀ idx rest p, CapabilityGraph.plan iter debug providers = some (.ok (idx :: rest)) →
    providers[idx]? = some p → ∃ e, p.buildNode idx ∅ = .error e

/-- No provider is listed before another whose capability it requires. -/
def Listed (providers : List (Provider Val)) : Prop :=
  ∀ (i j : ℕ) (p q : Provider Val), providers[i]? = some p → providers[j]? = some q → i ≠ j →
    q.spec.provides ∈ p.spec.requires → j < i

/-- The run gets to the end. -/
structure Completes (iter : Iteration String) (debug : CapabilityId Key → String)
    (providers : List (Provider Val)) (caps : List Key) : Prop where
  builds : ∃ b env, CapabilityGraph.build iter debug providers = some b ∧ b.result = .ok env
  provided : ∀ key ∈ caps, ∃ p ∈ providers, p.spec.key = key

section lemmas

variable {env : Env Val} {providers : List (Provider Val)} {caps : List Key}

theorem verifyAll_eq_ok : verifyAll env caps = .ok () ↔ ∀ key ∈ caps, key ∈ env := by
  induction caps with
  | nil => simp [verifyAll]
  | cons key caps ih =>
      rw [verifyAll, tryGet, List.forall_mem_cons, ← ih, ← AList.lookup_isSome]
      cases env.lookup key <;> simp

theorem idxOf_reverse_range {n i : ℕ} (hi : i < n) :
    (List.range n).reverse.idxOf i = n - 1 - i := by
  induction n with
  | zero => omega
  | succ n ih =>
      rw [List.range_succ, List.reverse_append, List.reverse_singleton, List.singleton_append,
        List.idxOf_cons]
      by_cases heq : n = i
      · simp [heq]
      · rw [ih (by omega), beq_false_of_ne heq, cond_false]
        omega

omit [DecidableEq Key] in
/-- After a build that came through, every hook has an output to shut down. -/
theorem shutdowns_eq {nodes : List (Provider Val)} {n : ℕ}
    (h : ∀ i < n, ∃ p, nodes[i]? = some p ∧ p.output.isSome) :
    ((List.range n).reverse.filterMap (shutdown nodes)).map (·.1) = (List.range n).reverse := by
  have hhook : ∀ i ∈ (List.range n).reverse, (shutdown nodes i).map (·.1) = some i := by
    intro i hi
    rw [List.mem_reverse, List.mem_range] at hi
    obtain ⟨p, hp, hout⟩ := h i hi
    obtain ⟨value, hvalue⟩ := Option.isSome_iff_exists.1 hout
    rw [shutdown, hp, Option.bind_some, hvalue, Option.map_some, Option.map_some]
  rw [List.map_filterMap, List.filterMap_congr hhook, List.filterMap_some]

omit [DecidableEq Key] in
/-- Shutting down in reverse from the last position is right for providers that are listed in an
    order in which they could be built. -/
theorem shutsDown_reverse_iff {o : Outcome Val A E}
    (hshut : o.shutdowns.map (·.1) = (List.range providers.length).reverse)
    (hbuilt : o.built.Perm (List.range providers.length)) :
    ShutsDown providers o ↔ Listed providers := by
  have hmem : ∀ (i : ℕ) (p : Provider Val), providers[i]? = some p →
      i < providers.length ∧ i ∈ o.built := by
    intro i p hp
    obtain ⟨hlt, -⟩ := List.getElem?_eq_some_iff.1 hp
    exact ⟨hlt, hbuilt.mem_iff.2 (List.mem_range.2 hlt)⟩
  constructor
  · intro h i j p q hp hq hne hreq
    have hlt := h.dependentsFirst i j p q hp hq hne hreq (hmem i p hp).2 (hmem j q hq).2
    rw [hshut, idxOf_reverse_range (hmem i p hp).1, idxOf_reverse_range (hmem j q hq).1] at hlt
    omega
  · intro h
    refine ⟨fun i => ?_, fun i j p q hp hq hne hreq _ _ => ?_⟩
    · rw [hshut, (List.nodup_reverse.2 List.nodup_range).count]
      simp only [List.mem_reverse, hbuilt.mem_iff]
    · have hlt := h i j p q hp hq hne hreq
      have hi := (hmem i p hp).1
      rw [hshut, idxOf_reverse_range hi, idxOf_reverse_range (hmem j q hq).1]
      omega

omit [DecidableEq Key] in
/-- If nothing is shut down, nothing may have been built. -/
theorem shutsDown_none_iff {o : Outcome Val A E} (hshut : o.shutdowns = []) :
    ShutsDown providers o ↔ o.built = [] := by
  constructor
  · intro h
    refine List.eq_nil_iff_forall_not_mem.2 fun i hi => ?_
    have hone := h.once i
    rw [hshut, if_pos hi] at hone
    cases hone
  · intro h
    refine ⟨fun i => ?_, fun i _ _ _ _ _ _ _ hi => ?_⟩
    · rw [hshut, h]
      rfl
    · rw [h] at hi
      cases hi

/-- The loop has built something unless its first build fails. -/
theorem built_eq_nil_iff {iter : Iteration String} {debug : CapabilityId Key → String}
    {b : CapabilityGraph.Building Val}
    (h : CapabilityGraph.build iter debug providers = some b) :
    b.built.map (·.1) = [] ↔ NothingBuilt iter debug providers := by
  rw [CapabilityGraph.build, CapabilityGraph.buildFrom] at h
  rcases CapabilityGraph.plan_cases iter debug providers with
    ⟨order, hplan, -, -⟩ | ⟨e, hplan⟩
  · rw [hplan] at h
    cases order with
    | nil =>
        cases h
        refine ⟨fun _ idx rest p hplan' _ => ?_, fun _ => rfl⟩
        rw [hplan] at hplan'
        cases hplan'
    | cons idx rest =>
        obtain ⟨node, hnode, ⟨e, herr, rfl⟩ | ⟨value, shared, b', hok, -, rfl⟩⟩ :=
          CapabilityGraph.buildLoop_cons h
        · refine ⟨fun _ idx' rest' p hplan' hp => ?_, fun _ => rfl⟩
          rw [hplan] at hplan'
          cases hplan'
          rw [hnode] at hp
          cases hp
          exact ⟨e, herr⟩
        · refine ⟨fun hnil => absurd hnil (List.cons_ne_nil _ _), fun hnothing => ?_⟩
          obtain ⟨e, herr⟩ := hnothing idx rest node hplan hnode
          rw [hok] at herr
          cases herr
  · rw [hplan] at h
    cases h
    refine ⟨fun _ idx rest p hplan' _ => ?_, fun _ => rfl⟩
    rw [hplan] at hplan'
    cases hplan'

/-- The check of the capabilities is passed if there is a provider for each. -/
theorem verifyAll_build {iter : Iteration String} {debug : CapabilityId Key → String}
    {b : CapabilityGraph.Building Val} (h : CapabilityGraph.build iter debug providers = some b)
    (hok : b.result = .ok env) :
    verifyAll env caps = .ok () ↔ ∀ key ∈ caps, ∃ p ∈ providers, p.spec.key = key := by
  obtain ⟨order, hloop, hperm, -⟩ := CapabilityGraph.build_ok h hok
  have hkeys : ∀ key, key ∈ env ↔ ∃ p ∈ providers, p.spec.key = key := by
    intro key
    rw [CapabilityGraph.buildLoop_keys hloop rfl hok]
    constructor
    · rintro (hempty | ⟨i, -, spec, hspec, hkey⟩)
      · cases hempty
      · rw [List.getElem?_map, Option.map_eq_some_iff] at hspec
        obtain ⟨p, hp, rfl⟩ := hspec
        exact ⟨p, List.mem_of_getElem? hp, hkey⟩
    · rintro ⟨p, hp, hkey⟩
      obtain ⟨i, hi⟩ := List.mem_iff_getElem?.1 hp
      obtain ⟨hlt, -⟩ := List.getElem?_eq_some_iff.1 hi
      refine Or.inr ⟨i, hperm.mem_iff.2 (List.mem_range.2 hlt), p.spec, ?_, hkey⟩
      rw [List.getElem?_map, hi, Option.map_some]
  rw [verifyAll_eq_ok]
  exact forall₂_congr fun key _ => hkeys key

end lemmas

section runs

variable {iter : Iteration String} {debug : CapabilityId Key → String}
  {providers : List (Provider Val)} {caps : List Key} {app : Env Val → Except E A}
  {b : CapabilityGraph.Building Val} {env : Env Val}

theorem runWith_of_build_error {e : CapabilityPlannerError String}
    (h : CapabilityGraph.build iter debug providers = some b) (herr : b.result = .error e) :
    runWith iter debug providers caps app =
      some ⟨.error (.planner e), b.built.map (·.1), []⟩ := by
  simp only [runWith, buildEnvWithHooks, h, Option.map_some, herr]

theorem runWith_of_missing {e : CapabilityError Key}
    (h : CapabilityGraph.build iter debug providers = some b) (hok : b.result = .ok env)
    (hcheck : verifyAll env caps = .error e) :
    runWith iter debug providers caps app =
      some ⟨.error (.capability e), b.built.map (·.1), []⟩ := by
  simp only [runWith, buildEnvWithHooks, h, Option.map_some, hok, hcheck]

theorem runWith_of_verified (h : CapabilityGraph.build iter debug providers = some b)
    (hok : b.result = .ok env) (hcheck : verifyAll env caps = .ok ()) :
    runWith iter debug providers caps app =
      some ⟨(app env).mapError .effect, b.built.map (·.1),
        (List.range providers.length).reverse.filterMap (shutdown b.nodes)⟩ := by
  simp only [runWith, buildEnvWithHooks, h, Option.map_some, hok, hcheck]

/-- A run that stops before the application shuts down what it built only if that is nothing. -/
theorem shutsDown_of_stopped {o : Outcome Val A E}
    (h : CapabilityGraph.build iter debug providers = some b) (hshut : o.shutdowns = [])
    (hbuilt : o.built = b.built.map (·.1)) (hnot : ¬ Completes iter debug providers caps) :
    ShutsDown providers o ↔ NothingBuilt iter debug providers ∨
      Completes iter debug providers caps ∧ Listed providers := by
  rw [shutsDown_none_iff hshut, hbuilt, built_eq_nil_iff h]
  exact ⟨Or.inl, fun hor => hor.resolve_right fun hand => hnot hand.1⟩

/-- **Shutdown.** What was built is shut down, once and dependents first, exactly if nothing was
    built, or the run gets past the builds and the check of the capabilities and the providers are
    listed with their requirements before them. -/
theorem shutsDown_iff (iter : Iteration String) (debug : CapabilityId Key → String)
    (providers : List (Provider Val)) (caps : List Key) (app : Env Val → Except E A) :
    ∃ o, runWith iter debug providers caps app = some o ∧
      (ShutsDown providers o ↔ NothingBuilt iter debug providers ∨
        Completes iter debug providers caps ∧ Listed providers) := by
  obtain ⟨b, hbuild⟩ := CapabilityGraph.build_isSome iter debug providers
  cases hok : b.result with
  | error e =>
      -- a build failed, and the hooks are dropped
      refine ⟨_, runWith_of_build_error hbuild hok, shutsDown_of_stopped hbuild rfl rfl ?_⟩
      rintro ⟨⟨b', env, hb', hok'⟩, -⟩
      rw [hbuild] at hb'
      cases hb'
      rw [hok] at hok'
      cases hok'
  | ok env =>
      have hverify : verifyAll env caps = .ok () ↔
          ∀ key ∈ caps, ∃ p ∈ providers, p.spec.key = key := verifyAll_build hbuild hok
      cases hcheck : verifyAll env caps with
      | error e =>
          -- a capability is missing, and the hooks are dropped here too
          refine ⟨_, runWith_of_missing hbuild hok hcheck, shutsDown_of_stopped hbuild rfl rfl ?_⟩
          rintro ⟨-, hprovided⟩
          rw [hverify.2 hprovided] at hcheck
          cases hcheck
      | ok =>
          obtain ⟨order, hloop, hperm, -⟩ := CapabilityGraph.build_ok hbuild hok
          rw [← CapabilityGraph.buildLoop_built hloop hok] at hperm
          have hout : ∀ i < providers.length, ∃ p, b.nodes[i]? = some p ∧ p.output.isSome := by
            intro i hi
            have hmem := hperm.mem_iff.2 (List.mem_range.2 hi)
            rw [CapabilityGraph.buildLoop_built hloop hok] at hmem
            exact CapabilityGraph.buildLoop_output hloop hok (Or.inl hmem)
          refine ⟨_, runWith_of_verified hbuild hok hcheck, ?_⟩
          rw [shutsDown_reverse_iff (shutdowns_eq hout) hperm]
          constructor
          · intro hlisted
            exact Or.inr ⟨⟨⟨b, env, hbuild, hok⟩, hverify.1 hcheck⟩, hlisted⟩
          · rintro (hnothing | ⟨-, hlisted⟩)
            · -- nothing was built because there was nothing to build
              rw [(built_eq_nil_iff hbuild).2 hnothing] at hperm
              have hlen := hperm.length_eq
              rw [List.length_range] at hlen
              intro i j p q hp
              rw [List.eq_nil_of_length_eq_zero hlen.symm] at hp
              cases hp
            · exact hlisted

end runs

/-! ## What is not shut down in order -/

/-- A database that fails to start. -/
def brokenDb : ProviderSpec fun _ : Bool => ℕ where
  key := true
  providerId := "db"
  requires := [⟨false, none⟩]
  capName := "Db"
  provide := fun _ => .error ⟨"db", "refused"⟩

/-- **Shutdown goes wrong.** A database listed before its configuration outlives it, and a
    configuration that was built is not shut down if the database fails to start. -/
theorem shutdown_missed :
    (∃ o, runWith asStored (fun _ => "") dbAndConfig [] (fun _ => .ok ()) = some o ∧
      o.shutdowns.map (·.1) = [1, 0] ∧
        ¬ ShutsDown dbAndConfig (o : Outcome (fun _ => ℕ) Unit Unit)) ∧
    ∃ o, runWith asStored (fun _ => "") [⟨config, none, none⟩, ⟨brokenDb, none, none⟩] []
        (fun _ => .ok ()) = some o ∧
      o.built = [0] ∧ o.shutdowns = [] ∧
        ¬ ShutsDown [⟨config, none, none⟩, ⟨brokenDb, none, none⟩]
          (o : Outcome (fun _ => ℕ) Unit Unit) := by
  constructor
  · refine ⟨_, rfl, rfl, fun h => ?_⟩
    have hlt := h.dependentsFirst 0 1 ⟨db, none, none⟩ ⟨config, none, none⟩ rfl rfl (by decide)
      (by decide) (by decide) (by decide)
    exact absurd hlt (by decide)
  · refine ⟨_, rfl, rfl, rfl, fun h => ?_⟩
    exact absurd (h.once 0) (by decide)

end IdEffect.Capability
