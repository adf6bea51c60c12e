import ShapeLang.Modules.LoaderSound

/-!
# Loads that fail

A source is cached before its imports are loaded, and stays cached when one of them fails: the next
load of it succeeds from the cache. A manifest that is refused returns between the push and the pop
of the loading stack, and leaves there its import string. Only a load that fails by itself, before
it caches anything or opens a manifest, leaves the loader as it was.
-/

namespace ShapeLang.Modules

open ShapeLang.Lib

inductive LoadErrorKind where
  | notFound | unreadable | parse | compile | manifest | circularDependency
  deriving DecidableEq

def LoadError.kind : LoadError → LoadErrorKind
  | .relativeNotFound _ _ | .relativeWithoutContext _ | .moduleNotFound _ => .notFound
  | .unreadable _ => .unreadable
  | .parse _ _ => .parse
  | .compile _ => .compile
  | .manifest _ => .manifest
  | .circularDependency _ => .circularDependency

section

variable {Program Module : Type} (front : Frontend Program Module) (resolvers : Resolvers)

/-- What a call `n` that has failed with `e` leaves of the loader: the loading stack as it was;
every module that the call has cached with all its imports loaded; a retry that fails in the same
way; and a retry that succeeds wherever the files have been repaired so that the call would have. -/
structure CleanFailure (fuel : Nat) (cache cache' : ModuleCache Module) (n : Request)
    (e : LoadError) : Prop where
  stack : cache'.loadingStack = cache.loadingStack
  dependencies : ∀ p m, cache'.get p = some m → cache.get p = none → ∃ context,
    CompiledFrom front resolvers (p, context) m ∧
      ∀ n', Imports front resolvers (p, context) n' → (cache'.get n'.1).isSome
  retry : ∃ e' after, loadModuleWithContext front resolvers fuel cache' n.1 n.2 = some (.error e', after) ∧
    e'.kind = e.kind
  repaired : ∀ resolvers' fuel' m after,
    loadModuleWithContext front resolvers' fuel' cache n.1 n.2 = some (.ok m, after) →
      ∃ after', loadModuleWithContext front resolvers' fuel' cache' n.1 n.2 = some (.ok m, after')

/-- The call is refused as circular, or resolves to nothing, or to a source that does not parse or
compile. -/
def FailsItself (cache : ModuleCache Module) (n : Request) : Prop :=
  cache.checkCircularDependency n.1 = .ok () → ∀ artifact, n.resolve resolvers = .ok artifact →
    artifact.code.source?.isSome ∧ ∃ e, moduleOf front n.1 artifact = .error e

end

section

variable {Program Module : Type} {front : Frontend Program Module} {resolvers : Resolvers}

theorem ModuleCache.popLoading_pushLoading (cache : ModuleCache Module) (p : String) :
    (cache.pushLoading p).popLoading = cache := by
  unfold ModuleCache.pushLoading ModuleCache.popLoading
  rw [List.dropLast_concat]

/-! ## Nothing leaves the cache -/

variable {cache : ModuleCache Module}

theorem loadDependencies_grows {load : ModuleCache Module → String → Loading Module Module}
    (hload : ∀ cache dep out, load cache dep = some out → Grows cache out.2) {deps : List String}
    {out : Except LoadError Unit × ModuleCache Module} (h : loadDependencies load deps cache = some out) :
    Grows cache out.2 := by
  induction deps generalizing cache with
  | nil =>
    obtain rfl := Option.some.inj h
    exact fun _ hp => hp
  | cons dep deps ih =>
    rw [loadDependencies] at h
    cases hdep : load cache dep with
    | none =>
      rw [hdep] at h
      cases h
    | some first =>
      obtain ⟨result, cache'⟩ := first
      have hgrows := hload cache dep _ hdep
      rw [hdep] at h
      cases result with
      | error e =>
        obtain rfl := Option.some.inj h
        exact hgrows
      | ok m => exact fun p hp => ih h p (hgrows p hp)

variable {p : String} {load : ModuleCache Module → String → Option Path → Loading Module Module}
  {cache' : ModuleCache Module} {artifact : ResolvedModuleArtifact} {context : Option Path}
  {result : Except LoadError Module}

theorem moduleOf_of_source {text : String} (hsource : artifact.code.source? = some text) :
    moduleOf front p artifact = match front.parse text with
      | .error message => .error (.parse p message)
      | .ok program =>
        (front.compileModule p artifact.originPath artifact.origin program).mapError .compile := by
  unfold moduleOf
  cases hcode : artifact.code with
  | source _ | both _ _ =>
    rw [hcode] at hsource
    obtain rfl := Option.some.inj hsource
    rfl
  | compiled _ | contentAddressed _ =>
    rw [hcode] at hsource
    cases hsource

/-- What loading a source does: it fails by itself and leaves the cache alone, or it has cached the
module. -/
theorem loadSource_cases
    (hload : ∀ cache p context out, load cache p context = some out → Grows cache out.2)
    {text : String} (hsource : artifact.code.source? = some text)
    (h : loadModuleFromSourceArtifact front load cache p text artifact context = some
      (result, cache')) :
    (∃ e, moduleOf front p artifact = .error e ∧ result = .error e ∧ cache' = cache) ∨
      ∃ m, moduleOf front p artifact = .ok m ∧ Grows (cache.insert p m) cache' := by
  rw [moduleOf_of_source hsource]
  unfold loadModuleFromSourceArtifact at h
  -- a text that does not parse or compile leaves nothing behind
  cases hparse : front.parse text with
  | error message =>
    rw [hparse] at h
    obtain ⟨rfl, rfl⟩ := Prod.mk.inj (Option.some.inj h)
    exact Or.inl ⟨_, rfl, rfl, rfl⟩
  | ok program =>
    rw [hparse] at h
    dsimp only at h ⊢
    cases hcompile : front.compileModule p artifact.originPath artifact.origin program with
    | error message =>
      rw [hcompile] at h
      obtain ⟨rfl, rfl⟩ := Prod.mk.inj (Option.some.inj h)
      exact Or.inl ⟨_, rfl, rfl, rfl⟩
    | ok m =>
      rw [hcompile] at h
      dsimp only at h
      -- the module is cached before its imports are loaded, so it stays whatever becomes of them
      refine Or.inr ⟨m, rfl, ?_⟩
      cases hdeps : loadDependencies (fun cache dep => load cache dep (moduleDir artifact context))
          (front.extractDependencies program) (cache.insert p m) with
      | none =>
        rw [hdeps] at h
        cases h
      | some out =>
        have hgrows := loadDependencies_grows (fun cache dep out => hload cache dep _ out) hdeps
        rw [hdeps] at h
        obtain ⟨loaded, after⟩ := out
        cases loaded with
        | error e =>
          obtain ⟨-, rfl⟩ := Prod.mk.inj (Option.some.inj h)
          exact hgrows
        | ok u =>
          obtain ⟨-, rfl⟩ := Prod.mk.inj (Option.some.inj h)
          exact hgrows

/-- What loading an artifact does; a manifest that is refused leaves its string on the stack. -/
theorem loadArtifact_cases
    (hload : ∀ cache p context out, load cache p context = some out → Grows cache out.2)
    (h : loadArtifact front load cache p artifact context = some (result, cache')) :
    (∃ e, moduleOf front p artifact = .error e ∧ result = .error e ∧
      ((artifact.code.source?.isSome ∧ cache' = cache) ∨
        (artifact.code.source? = none ∧ cache' = cache.pushLoading p))) ∨
      ∃ m, moduleOf front p artifact = .ok m ∧ Grows cache cache' ∧ (cache'.get p).isSome := by
  -- the stack is no part of what is cached
  have hinsert : ∀ m, Grows ((cache.pushLoading p).insert p m) cache' → Grows cache cache' ∧
      (cache'.get p).isSome := by
    intro m hgrows
    refine ⟨fun q hq => hgrows q (Grows.insert (cache.pushLoading p) p m q hq), hgrows p ?_⟩
    rw [show ((cache.pushLoading p).insert p m).get p = some m from AList.lookup_insert _]
    rfl
  have hsourceCase : ∀ text, artifact.code.source? = some text →
      (loadModuleFromSourceArtifact front load (cache.pushLoading p) p text artifact context).map
        (fun r => (r.1, r.2.popLoading)) = some (result, cache') →
      (∃ e, moduleOf front p artifact = .error e ∧ result = .error e ∧
        ((artifact.code.source?.isSome ∧ cache' = cache) ∨
          (artifact.code.source? = none ∧ cache' = cache.pushLoading p))) ∨
        ∃ m, moduleOf front p artifact = .ok m ∧ Grows cache cache' ∧ (cache'.get p).isSome := by
    intro text hsource hmap
    obtain ⟨⟨loaded, after⟩, hload', hpair⟩ := Option.map_eq_some_iff.mp hmap
    obtain ⟨rfl, rfl⟩ := Prod.mk.inj hpair
    rcases loadSource_cases hload hsource hload' with ⟨e, hmodule, hresult, rfl⟩ | ⟨m, hmodule, hgrows⟩
    · have hisSome : artifact.code.source?.isSome = true := by
        rw [hsource]
        rfl
      exact Or.inl ⟨e, hmodule, hresult, Or.inl ⟨hisSome, cache.popLoading_pushLoading p⟩⟩
    · exact Or.inr ⟨m, hmodule, hinsert m hgrows⟩
  unfold loadArtifact at h
  cases hcode : artifact.code with
  | source text =>
    rw [hcode] at h
    have hsource : artifact.code.source? = some text := by rw [hcode]; rfl
    exact hcode ▸ hsourceCase text hsource h
  | both text bytes =>
    rw [hcode] at h
    have hsource : artifact.code.source? = some text := by rw [hcode]; rfl
    exact hcode ▸ hsourceCase text hsource h
  | compiled bytes =>
    rw [hcode] at h
    obtain ⟨-, rfl⟩ := Prod.mk.inj (Option.some.inj h)
    refine Or.inr ⟨front.compiledModule p artifact.origin, ?_, hinsert _ fun _ hq => hq⟩
    unfold moduleOf
    rw [hcode]
  | contentAddressed bytes =>
    rw [hcode] at h
    dsimp only at h
    have hmodule : moduleOf front p artifact = (front.openManifest p artifact.origin bytes).mapError
        .manifest := by
      unfold moduleOf
      rw [hcode]
    rw [hmodule]
    cases hopen : front.openManifest p artifact.origin bytes with
    | error message =>
      rw [hopen] at h
      obtain ⟨rfl, rfl⟩ := Prod.mk.inj (Option.some.inj h)
      exact Or.inl ⟨_, rfl, rfl, Or.inr ⟨rfl, rfl⟩⟩
    | ok m =>
      rw [hopen] at h
      obtain ⟨-, rfl⟩ := Prod.mk.inj (Option.some.inj h)
      exact Or.inr ⟨m, rfl, hinsert m fun _ hq => hq⟩

theorem load_grows {fuel : Nat} {out : Except LoadError Module × ModuleCache Module}
    (h : loadModuleWithContext front resolvers fuel cache p context = some out) : Grows cache out.2 := by
  induction fuel generalizing cache p context out with
  | zero => cases h
  | succ fuel ih =>
    rw [loadModuleWithContext] at h
    split at h
    · obtain rfl := Option.some.inj h
      exact fun _ hq => hq
    · split at h
      · obtain rfl := Option.some.inj h
        exact fun _ hq => hq
      · split at h
        · obtain rfl := Option.some.inj h
          exact fun _ hq => hq
        · obtain ⟨result, cache'⟩ := out
          rcases loadArtifact_cases (fun cache p context out => ih) h
            with ⟨e, -, -, hrest⟩ | ⟨m, -, hgrows, -⟩
          · rcases hrest with ⟨-, rfl⟩ | ⟨-, rfl⟩
            · exact fun _ hq => hq
            · exact fun _ hq => hq
          · exact hgrows

/-! ## What a failed load leaves -/

/-- The ways a load can fail. -/
theorem load_error_cases {fuel : Nat} {n : Request} {e : LoadError}
    (h : loadModuleWithContext front resolvers fuel cache n.1 n.2 = some (.error e, cache')) :
    (FailsItself front resolvers cache n ∧ cache' = cache) ∨
      (cache.checkCircularDependency n.1 = .ok () ∧ ∃ artifact, n.resolve resolvers = .ok artifact ∧
        ((artifact.code.source? = none ∧ cache' = cache.pushLoading n.1) ∨
          ∃ m, moduleOf front n.1 artifact = .ok m ∧ (cache'.get n.1).isSome)) := by
  cases fuel with
  | zero => cases h
  | succ fuel =>
    -- the cycle check, the cache, the resolvers, and then the artifact
    rw [loadModuleWithContext] at h
    split at h
    · rename_i hcheck
      obtain ⟨-, rfl⟩ := Prod.mk.inj (Option.some.inj h)
      refine Or.inl ⟨fun hok => ?_, rfl⟩
      rw [hcheck] at hok
      cases hok
    · rename_i hcheck
      split at h
      · cases (Prod.mk.inj (Option.some.inj h)).1
      · split at h
        · rename_i hresolve
          obtain ⟨-, rfl⟩ := Prod.mk.inj (Option.some.inj h)
          refine Or.inl ⟨fun _ artifact hartifact => ?_, rfl⟩
          unfold Request.resolve at hartifact
          rw [hresolve] at hartifact
          cases hartifact
        · rename_i artifact hresolve
          rcases loadArtifact_cases (fun _ _ _ _ => load_grows) h
            with ⟨e', hmodule, -, hrest⟩ | ⟨m, hmodule, -, hcached⟩
          -- a source fails and leaves the stack as it was; a manifest fails and leaves its name on
          -- it
          · rcases hrest with ⟨hsource, rfl⟩ | ⟨hmanifest, hstack⟩
            · refine Or.inl ⟨fun _ other hother => ?_, rfl⟩
              obtain rfl : artifact = other := Except.ok.inj (hresolve.symm.trans hother)
              exact ⟨hsource, e', hmodule⟩
            · exact Or.inr ⟨hcheck, artifact, hresolve, Or.inl ⟨hmanifest, hstack⟩⟩
          · exact Or.inr ⟨hcheck, artifact, hresolve, Or.inr ⟨m, hmodule, hcached⟩⟩

/-- A load that fails leaves a clean loader exactly when it fails by itself. -/
theorem failed_load_clean_iff {fuel : Nat} {cache cache' : ModuleCache Module} {n : Request} {e : LoadError}
    (h : loadModuleWithContext front resolvers fuel cache n.1 n.2 = some (.error e, cache')) :
    CleanFailure front resolvers fuel cache cache' n e ↔ FailsItself front resolvers cache n := by
  rcases load_error_cases h with ⟨hself, rfl⟩ | ⟨hcheck, artifact, hresolve, hrest⟩
  · refine iff_of_true ⟨rfl, fun p m hafter hbefore => ?_, ⟨e, cache', h, rfl⟩, ?_⟩ hself
    · rw [hbefore] at hafter
      cases hafter
    · exact fun _ _ _ after hload => ⟨after, hload⟩
  · refine iff_of_false (fun hclean => ?_) fun hself => ?_
    · rcases hrest with ⟨-, rfl⟩ | ⟨m, -, hcached⟩
      · -- the string that a manifest has left on the stack
        have hlength := congrArg List.length hclean.stack
        exact absurd hlength (by simp [ModuleCache.pushLoading])
      · -- with the stack as it was, the retry is served from the cache
        obtain ⟨e', after, hretry, -⟩ := hclean.retry
        obtain ⟨m', hm'⟩ := Option.isSome_iff_exists.mp hcached
        have hcheck' : cache'.checkCircularDependency n.1 = .ok () := by
          unfold ModuleCache.checkCircularDependency at hcheck ⊢
          rw [hclean.stack]
          exact hcheck
        cases fuel with
        | zero => cases h
        | succ fuel =>
          rw [loadModuleWithContext, hcheck', hm'] at hretry
          cases (Prod.mk.inj (Option.some.inj hretry)).1
    · obtain ⟨hsource, e', hmodule'⟩ := hself hcheck artifact hresolve
      rcases hrest with ⟨hmanifest, -⟩ | ⟨m, hmodule, -⟩
      · rw [hmanifest] at hsource
        cases hsource
      · rw [hmodule] at hmodule'
        cases hmodule'

end

/-- A file that imports a module which is not there. -/
def danglingFiles : List (Path × String) := [(["a", "main.shape"], "from gone use f")]

/-- A module that is not there, asked for by itself. -/
theorem failed_load_clean_gone :
    ∃ cache, loadModuleWithContext wordFrontend (filesOnly danglingFiles) 1 .new "gone" none =
        some (.error (.moduleNotFound "gone"), cache) ∧
      CleanFailure wordFrontend (filesOnly danglingFiles) 1 .new cache ("gone", none)
        (.moduleNotFound "gone") := by
  have hresult :
      (loadModuleWithContext wordFrontend (filesOnly danglingFiles) 1 .new "gone" none).map
      Prod.fst =
      some (.error (.moduleNotFound "gone")) := by decide +kernel
  obtain ⟨⟨result, cache⟩, hload, rfl⟩ := Option.map_eq_some_iff.mp hresult
  have hresolve : Request.resolve (filesOnly danglingFiles) ("gone", none) = .error
      (.moduleNotFound "gone") := by
    decide +kernel
  refine ⟨cache, hload, (failed_load_clean_iff hload).mpr fun _ artifact hartifact => ?_⟩
  rw [hresolve] at hartifact
  cases hartifact

/-- A bundle whose only module has a manifest that is refused. -/
def refusedManifest : Resolvers :=
  { filesOnly [] with bundle := AList.insert "lib" (.contentAddressed [0]) ∅ }

/-- The importer of a missing module is served from the cache when it is loaded again; and the third
load of a module with a refused manifest is called circular. -/
theorem failed_loads_not_clean :
    ¬(∀ (Program Module : Type) (front : Frontend Program Module) (resolvers : Resolvers) (fuel : Nat)
      (cache cache' : ModuleCache Module) (n : Request) (e : LoadError),
      loadModuleWithContext front resolvers fuel cache n.1 n.2 = some (.error e, cache') →
        CleanFailure front resolvers fuel cache cache' n e) ∧
    (loadAll wordFrontend refusedManifest 1 [("lib", none), ("lib", none), ("lib", none)] .new).map
      Prod.fst =
      some [.error (.manifest "no manifest"), .error (.manifest "no manifest"),
        .error (.circularDependency "lib -> lib -> lib")] := by
  refine ⟨fun h => ?_, by decide +kernel⟩
  have hresult : (loadModuleWithContext wordFrontend (filesOnly danglingFiles) 2 .new "./main"
    (some ["a"])).map
      Prod.fst = some (.error (.moduleNotFound "gone")) := by decide +kernel
  have htwice : ((loadModuleWithContext wordFrontend (filesOnly danglingFiles) 2 .new "./main"
    (some ["a"])).bind
      fun out => (loadModuleWithContext wordFrontend (filesOnly danglingFiles) 2 out.2 "./main"
        (some ["a"])).map
        Prod.fst) = some (.ok ("./main", ["from", "gone", "use", "f"])) := by decide +kernel
  obtain ⟨⟨result, cache⟩, hload, rfl⟩ := Option.map_eq_some_iff.mp hresult
  obtain ⟨e', after, hretry, -⟩ := (h _ _ _ _ _ _ cache ("./main", some ["a"]) _ hload).retry
  rw [hload, Option.bind_some, hretry] at htwice
  cases htwice

end ShapeLang.Modules
