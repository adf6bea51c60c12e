import ShapeLang.Lib.Fallible
import ShapeLang.Modules.Loader

/-!
# What a session of loads returns

The cache and the loading stack know a module by its import string. In a session in which each
string means one artifact wherever it is imported, a load returns the module of its own file
and reports a cycle only where the files form one. A relative string that two directories give
different meanings breaks both.
-/

namespace ShapeLang.Modules

open ShapeLang.Lib Relation

section

variable {Program Module : Type} (front : Frontend Program Module) (resolvers : Resolvers)

/-! ## Files, imports and requests -/

/-- An import string and the directory it is imported from. -/
abbrev Request := String × Option Path

def Request.resolve (n : Request) : Except LoadError ResolvedModuleArtifact :=
  resolvers.resolveModuleArtifactWithContext n.1 n.2

def ModuleCode.source? : ModuleCode → Option String
  | .source text | .both text _ => some text
  | .compiled _ | .contentAddressed _ => none

/-- The module that an artifact compiles to under an import string. -/
def moduleOf (modulePath : String) (artifact : ResolvedModuleArtifact) : Except LoadError Module :=
  match artifact.code with
  | .source text | .both text _ =>
      match front.parse text with
      | .error message => .error (.parse modulePath message)
      | .ok program =>
          (front.compileModule modulePath artifact.originPath artifact.origin program).mapError .compile
  | .compiled _ => .ok (front.compiledModule modulePath artifact.origin)
  | .contentAddressed bytes => (front.openManifest modulePath artifact.origin bytes).mapError .manifest

/-- The module compiled from what the request resolves to. -/
def CompiledFrom (n : Request) (m : Module) : Prop :=
  ∃ artifact, n.resolve resolvers = .ok artifact ∧ moduleOf front n.1 artifact = .ok m

/-- The source that `n` resolves to imports `n'`. -/
def Imports (n n' : Request) : Prop :=
  ∃ artifact text program, n.resolve resolvers = .ok artifact ∧ artifact.code.source? = some text ∧
    front.parse text = .ok program ∧ n'.1 ∈ front.extractDependencies program ∧
    n'.2 = moduleDir artifact n.2

/-- The import relation between the files that are asked for. -/
def FileImports (requested : Request → Prop) (a b : ResolvedModuleArtifact) : Prop :=
  ∃ n n' : Request, (requested n ∧ n.resolve resolvers = .ok a) ∧ Imports front resolvers n n' ∧
    requested n' ∧ n'.resolve resolvers = .ok b

def ImportCycle (requested : Request → Prop) : Prop :=
  ∃ a, TransGen (FileImports front resolvers requested) a a

/-- What the calls of a session ask for, directly or through imports. -/
inductive Requested (calls : List Request) : Request → Prop where
  | call {n} : n ∈ calls → Requested calls n
  | imported {n n'} : Requested calls n → Imports front resolvers n n' → Requested calls n'

/-- The requests of the session mean one artifact for each import string, and no manifest is refused. -/
structure Consistent (requested : Request → Prop) : Prop where
  relative : ∀ {p c c'}, requested (p, c) → requested (p, c') → isRelative p = true →
    Request.resolve resolvers (p, c) = Request.resolve resolvers (p, c')
  manifests : ∀ {n artifact bytes}, requested n → n.resolve resolvers = .ok artifact →
    artifact.code = .contentAddressed bytes → ∃ m, front.openManifest n.1 artifact.origin bytes = .ok m

end

section

variable {Program Module : Type} {front : Frontend Program Module} {resolvers : Resolvers}
  {requested : Request → Prop}

variable {p : String}

theorem Consistent.resolve_eq (h : Consistent front resolvers requested) {c c' : Option Path}
    (hc : requested (p, c)) (hc' : requested (p, c')) :
    Request.resolve resolvers (p, c) = Request.resolve resolvers (p, c') := by
  cases hrelative : isRelative p with
  | true => exact h.relative hc hc' hrelative
  | false => exact Resolvers.resolve_context_free hrelative c c'

variable {cycle : String}

theorem resolveModulePath_ne_circular {tree : FileTree} {paths : SearchPaths} {c : Option Path} :
    resolveModulePathWithContext tree paths p c ≠ .error (.circularDependency cycle) := by
  unfold resolveModulePathWithContext
  split
  · unfold resolveRelative
    split
    · nofun
    · split <;> nofun
  · split <;> nofun

variable {n : Request}

theorem resolve_ne_circular :
    n.resolve resolvers ≠ .error (.circularDependency cycle) := by
  unfold Request.resolve Resolvers.resolveModuleArtifactWithContext
  split
  · nofun
  split
  · nofun
  split
  · nofun
  intro h
  rcases Fallible.bind_eq_error.mp h with h | ⟨file, -, h⟩
  · exact resolveModulePath_ne_circular h
  · revert h
    split <;> nofun

/-! ## Cycles -/

variable {nodes : List Request}

theorem fileImports_of_chain {x : Request} {a b : ResolvedModuleArtifact}
    (hchain : List.IsChain (Imports front resolvers) (x :: nodes ++ [n]))
    (hnodes : ∀ y ∈ nodes, requested y ∧ ∃ artifact, y.resolve resolvers = .ok artifact)
    (ha : requested x ∧ x.resolve resolvers = .ok a) (hb : requested n ∧ n.resolve resolvers = .ok b) :
    TransGen (FileImports front resolvers requested) a b := by
  induction nodes generalizing x a with
  | nil =>
    have himports : Imports front resolvers x n := by simpa using hchain
    exact .single ⟨x, n, ha, himports, hb⟩
  | cons y nodes ih =>
    obtain ⟨himports, hrest⟩ := List.isChain_cons_cons.mp hchain
    obtain ⟨hy, artifact, hartifact⟩ := hnodes y List.mem_cons_self
    exact .head ⟨x, y, ha, himports, hy, hartifact⟩
      (ih hrest (fun z hz => hnodes z (List.mem_cons_of_mem _ hz)) ⟨hy, hartifact⟩)

/-- What the loading stack stands for: requests of the session, each importing the next one. -/
structure Stacked (resolvers : Resolvers) (front : Frontend Program Module) (requested : Request → Prop)
    (stack : List String) (nodes : List Request) (n : Request) : Prop where
  strings : stack = nodes.map Prod.fst
  chain : List.IsChain (Imports front resolvers) (nodes ++ [n])
  requested : ∀ y ∈ nodes, requested y
  resolved : ∀ y ∈ nodes, ∃ artifact, y.resolve resolvers = .ok artifact

variable {stack : List String}

theorem Stacked.importCycle (h : Stacked resolvers front requested stack nodes n)
    (hconsistent : Consistent front resolvers requested) (hn : requested n) (hmem : n.1 ∈ stack) :
    ImportCycle front resolvers requested := by
  rw [h.strings] at hmem
  obtain ⟨y, hy, hstring⟩ := List.mem_map.mp hmem
  obtain ⟨before, after, rfl⟩ := List.append_of_mem hy
  obtain ⟨a, ha⟩ := h.resolved y hy
  -- the string on the stack and the string asked for mean the same file
  have hsame : n.resolve resolvers = .ok a := by
    obtain ⟨p, c⟩ := y
    obtain ⟨q, d⟩ := n
    obtain rfl : p = q := hstring
    rw [← ha]
    exact hconsistent.resolve_eq hn (h.requested _ hy)
  have hchain : List.IsChain (Imports front resolvers) (y :: after ++ [n]) := by
    have hall := h.chain
    rw [List.append_assoc] at hall
    exact (List.isChain_append.mp hall).2.1
  have hnodes : ∀ z : Request, z ∈ after →
      requested z ∧ ∃ artifact, z.resolve resolvers = .ok artifact := by
    intro z hz
    have hmem : z ∈ before ++ y :: after := List.mem_append_right before (List.mem_cons_of_mem y hz)
    exact ⟨h.requested z hmem, h.resolved z hmem⟩
  exact ⟨a, fileImports_of_chain hchain hnodes ⟨h.requested y hy, ha⟩ ⟨hn, hsame⟩⟩

/-! ## One load -/

variable (front resolvers requested) in
/-- Every cached module is the one of some request of the session. -/
def CacheSound (cache : ModuleCache Module) : Prop :=
  ∀ p m, cache.get p = some m → ∃ c, requested (p, c) ∧ CompiledFrom front resolvers (p, c) m

variable (front resolvers requested) in
/-- What a call leaves behind, and what its errors mean. -/
structure Kept {α : Type} (stack : List String) (out : Except LoadError α × ModuleCache Module) : Prop where
  stack : out.2.loadingStack = stack
  cache : CacheSound front resolvers requested out.2
  circular : ∀ cycle, out.1 = .error (.circularDependency cycle) → ImportCycle front resolvers requested

variable (front resolvers requested) in
structure Served (stack : List String) (n : Request)
    (out : Except LoadError Module × ModuleCache Module) : Prop
    extends Kept front resolvers requested stack out where
  module : ∀ m, out.1 = .ok m → CompiledFrom front resolvers n m

variable {cache : ModuleCache Module}

theorem CacheSound.insert (h : CacheSound front resolvers requested cache) {m : Module} (hn : requested n)
    (hm : CompiledFrom front resolvers n m) :
    CacheSound front resolvers requested (cache.insert n.1 m) := by
  intro p m' hget
  rcases lookup_insert_eq_some hget with ⟨rfl, rfl⟩ | hold
  · exact ⟨n.2, hn, hm⟩
  · exact h p m' hold

theorem checkCircularDependency_eq {e : LoadError} (h : cache.checkCircularDependency p = .error e) :
    p ∈ cache.loadingStack := by
  unfold ModuleCache.checkCircularDependency at h
  split at h
  · assumption
  · cases h

variable {deps : List String}

/-- The imports of one file, each of them served. -/
theorem loadDependencies_kept {load : ModuleCache Module → String → Loading Module Module}
    {dir : Option Path}
    (hload : ∀ dep ∈ deps, ∀ {cache out}, CacheSound front resolvers requested cache →
      cache.loadingStack = stack → load cache dep = some out →
      Served front resolvers requested stack (dep, dir) out)
    {out : Except LoadError Unit × ModuleCache Module}
    (hcache : CacheSound front resolvers requested cache) (hstack : cache.loadingStack = stack)
    (h : loadDependencies load deps cache = some out) :
    Kept front resolvers requested stack out := by
  induction deps generalizing cache with
  | nil =>
    obtain rfl := Option.some.inj h
    exact ⟨hstack, hcache, nofun⟩
  | cons dep deps ih =>
    rw [loadDependencies] at h
    -- the first import that fails ends the loop, with what it has left in the cache
    match hfirst : load cache dep with
    | none =>
      rw [hfirst] at h
      cases h
    | some (.error e, cache') =>
      rw [hfirst] at h
      obtain rfl := Option.some.inj h
      have hserved := hload dep List.mem_cons_self hcache hstack hfirst
      exact ⟨hserved.stack, hserved.cache, fun cycle he => hserved.circular cycle
        (by rw [Except.error.inj he])⟩
    | some (.ok m, cache') =>
      rw [hfirst] at h
      have hserved := hload dep List.mem_cons_self hcache hstack hfirst
      exact ih (fun d hd => hload d (List.mem_cons_of_mem _ hd)) hserved.cache hserved.stack h

variable {text : String} {artifact : ResolvedModuleArtifact}

theorem moduleOf_source {program : Program} {m : Module} (hsource : artifact.code.source? = some text)
    (hparse : front.parse text = .ok program)
    (hcompile : front.compileModule p artifact.originPath artifact.origin program = .ok m) :
    moduleOf front p artifact = .ok m := by
  unfold moduleOf
  cases hcode : artifact.code with
  | source text' =>
    rw [hcode] at hsource
    obtain rfl := Option.some.inj hsource
    simp only [hparse, hcompile, Except.mapError]
  | both text' bytes =>
    rw [hcode] at hsource
    obtain rfl := Option.some.inj hsource
    simp only [hparse, hcompile, Except.mapError]
  | compiled bytes =>
    rw [hcode] at hsource
    cases hsource
  | contentAddressed bytes =>
    rw [hcode] at hsource
    cases hsource

variable {load : ModuleCache Module → String → Option Path → Loading Module Module}
  {out : Except LoadError Module × ModuleCache Module}

/-- A source: compiled and cached first, then its imports from its own directory. -/
theorem loadSource_served
    (hload : ∀ {n'}, Imports front resolvers n n' → ∀ {cache out},
      CacheSound front resolvers requested cache → cache.loadingStack = stack →
      load cache n'.1 n'.2 = some out → Served front resolvers requested stack n' out)
    (hn : requested n) (hresolve : n.resolve resolvers = .ok artifact)
    (hsource : artifact.code.source? = some text)
    (hcache : CacheSound front resolvers requested cache) (hstack : cache.loadingStack = stack)
    (h : loadModuleFromSourceArtifact front load cache n.1 text artifact n.2 = some out) :
    Served front resolvers requested stack n out := by
  unfold loadModuleFromSourceArtifact at h
  -- neither a parse error nor a compile error touches the cache
  cases hparse : front.parse text with
  | error message =>
    rw [hparse] at h
    obtain rfl := Option.some.inj h
    exact ⟨⟨hstack, hcache, nofun⟩, nofun⟩
  | ok program =>
    rw [hparse] at h
    cases hcompile : front.compileModule n.1 artifact.originPath artifact.origin program with
    | error message =>
      simp only [hcompile] at h
      obtain rfl := Option.some.inj h
      exact ⟨⟨hstack, hcache, nofun⟩, nofun⟩
    | ok m =>
      simp only [hcompile] at h
      -- the module that goes into the cache is the one of the file
      have hm : CompiledFrom front resolvers n m :=
        ⟨artifact, hresolve, moduleOf_source hsource hparse hcompile⟩
      -- the imports are requested from the directory of the file
      have hdeps : ∀ dep ∈ front.extractDependencies program, ∀ {cache out},
          CacheSound front resolvers requested cache → cache.loadingStack = stack →
          load cache dep (moduleDir artifact n.2) = some out →
          Served front resolvers requested stack (dep, moduleDir artifact n.2) out := by
        intro dep hdep cache' out' hcache' hstack' hout
        exact hload ⟨artifact, text, program, hresolve, hsource, hparse, hdep, rfl⟩ hcache' hstack' hout
      match hloop : loadDependencies (fun cache dep => load cache dep (moduleDir artifact n.2))
          (front.extractDependencies program) (cache.insert n.1 m) with
      | none =>
        rw [hloop] at h
        cases h
      | some (.error e, cache') =>
        rw [hloop] at h
        obtain rfl := Option.some.inj h
        have hkept := loadDependencies_kept hdeps (hcache.insert hn hm) hstack hloop
        exact ⟨⟨hkept.stack, hkept.cache, fun cycle he => hkept.circular cycle
          (by rw [Except.error.inj he])⟩, nofun⟩
      | some (.ok (), cache') =>
        rw [hloop] at h
        obtain rfl := Option.some.inj h
        have hkept := loadDependencies_kept hdeps (hcache.insert hn hm) hstack hloop
        refine ⟨⟨hkept.stack, hkept.cache, nofun⟩, fun m' hm' => ?_⟩
        obtain rfl := Except.ok.inj hm'
        exact hm

/-- The push and the pop around an artifact leave the stack as it was. -/
theorem Served.pop (h : Served front resolvers requested (stack ++ [p]) n out) :
    Served front resolvers requested stack n (out.1, out.2.popLoading) where
  stack := by
    show out.2.loadingStack.dropLast = stack
    rw [h.stack, List.dropLast_concat]
  cache := h.cache
  circular := h.circular
  module := h.module

theorem loadArtifact_served (hconsistent : Consistent front resolvers requested)
    (hload : ∀ {n'}, Imports front resolvers n n' → ∀ {cache' out},
      CacheSound front resolvers requested cache' → cache'.loadingStack = cache.loadingStack ++
      [n.1] → load cache' n'.1 n'.2 = some out → Served front resolvers requested
      (cache.loadingStack ++ [n.1]) n' out)
    (hn : requested n) (hresolve : n.resolve resolvers = .ok artifact)
    (hcache : CacheSound front resolvers requested cache)
    (h : loadArtifact front load cache n.1 artifact n.2 = some out) :
    Served front resolvers requested cache.loadingStack n out := by
  have hpush : CacheSound front resolvers requested (cache.pushLoading n.1) := hcache
  have hmodule : ∀ {m}, moduleOf front n.1 artifact = .ok m →
      Served front resolvers requested cache.loadingStack n
        (.ok m, ((cache.pushLoading n.1).insert n.1 m).popLoading) := by
    intro m hm
    have hm' : CompiledFrom front resolvers n m := ⟨artifact, hresolve, hm⟩
    have hserved : Served front resolvers requested (cache.loadingStack ++ [n.1]) n
        (.ok m, (cache.pushLoading n.1).insert n.1 m) :=
      ⟨⟨rfl, hpush.insert hn hm', nofun⟩, fun m' heq => Except.ok.inj heq ▸ hm'⟩
    exact hserved.pop
  unfold loadArtifact at h
  cases hcode : artifact.code with
  | source text =>
    simp only [hcode, Option.map_eq_some_iff] at h
    obtain ⟨out', hout, rfl⟩ := h
    exact (loadSource_served hload hn hresolve (by rw [hcode]; rfl) hpush rfl hout).pop
  | both text bytes =>
    simp only [hcode, Option.map_eq_some_iff] at h
    obtain ⟨out', hout, rfl⟩ := h
    exact (loadSource_served hload hn hresolve (by rw [hcode]; rfl) hpush rfl hout).pop
  | compiled bytes =>
    simp only [hcode] at h
    obtain rfl := Option.some.inj h
    exact hmodule (by rw [moduleOf, hcode])
  | contentAddressed bytes =>
    -- the manifest is accepted, so the stack is popped
    obtain ⟨m, hm⟩ := hconsistent.manifests hn hresolve hcode
    simp only [hcode, hm] at h
    obtain rfl := Option.some.inj h
    exact hmodule (by rw [moduleOf, hcode]; simp only [hm, Except.mapError])

/-- The stack of the imports of `n`. -/
theorem Stacked.push {n' : Request} (h : Stacked resolvers front requested stack nodes n) (hn : requested n)
    (hresolve : n.resolve resolvers = .ok artifact) (himports : Imports front resolvers n n') :
    Stacked resolvers front requested (stack ++ [n.1]) (nodes ++ [n]) n' where
  strings := by rw [h.strings, List.map_append, List.map_singleton]
  chain := by
    rw [List.isChain_append]
    refine ⟨h.chain, List.isChain_singleton _, ?_⟩
    intro x hx y hy
    rw [List.getLast?_append, List.getLast?_singleton] at hx
    obtain rfl := Option.some.inj hx
    obtain rfl := Option.some.inj hy
    exact himports
  requested := by
    intro y hy
    rcases List.mem_append.mp hy with hy | hy
    · exact h.requested y hy
    · rw [List.mem_singleton.mp hy]
      exact hn
  resolved := by
    intro y hy
    rcases List.mem_append.mp hy with hy | hy
    · exact h.resolved y hy
    · rw [List.mem_singleton.mp hy]
      exact ⟨artifact, hresolve⟩

variable {fuel : Nat}

theorem load_served (hconsistent : Consistent front resolvers requested)
    (hclosed : ∀ {n n'}, requested n → Imports front resolvers n n' → requested n') (hn : requested n)
    (hcache : CacheSound front resolvers requested cache)
    (hstacked : Stacked resolvers front requested cache.loadingStack nodes n)
    (h : loadModuleWithContext front resolvers fuel cache n.1 n.2 = some out) :
    Served front resolvers requested cache.loadingStack n out := by
  -- on the depth of the imports; the stack grows by one string at each level
  induction fuel generalizing cache nodes n out with
  | zero => cases h
  | succ fuel ih =>
    rw [loadModuleWithContext] at h
    cases hcheck : cache.checkCircularDependency n.1 with
    | error e =>
      simp only [hcheck] at h
      obtain rfl := Option.some.inj h
      refine ⟨⟨rfl, hcache, fun cycle _ => ?_⟩, nofun⟩
      exact hstacked.importCycle hconsistent hn (checkCircularDependency_eq hcheck)
    | ok u =>
      cases hget : cache.get n.1 with
      | some m =>
        simp only [hcheck, hget] at h
        obtain rfl := Option.some.inj h
        refine ⟨⟨rfl, hcache, nofun⟩, fun m' hm' => ?_⟩
        obtain rfl := Except.ok.inj hm'
        -- cached for another directory, in which the string means the same
        obtain ⟨c, hc, artifact, hresolve, hm⟩ := hcache n.1 m hget
        exact ⟨artifact, (hconsistent.resolve_eq hn hc).trans hresolve, hm⟩
      | none =>
        cases hresolve : n.resolve resolvers with
        | error e =>
          have hresolve' : resolvers.resolveModuleArtifactWithContext n.1 n.2 = .error e := hresolve
          simp only [hcheck, hget, hresolve'] at h
          obtain rfl := Option.some.inj h
          refine ⟨⟨rfl, hcache, fun cycle he => ?_⟩, nofun⟩
          rw [Except.error.inj he] at hresolve
          exact absurd hresolve resolve_ne_circular
        | ok artifact =>
          have hresolve' : resolvers.resolveModuleArtifactWithContext n.1 n.2 = .ok artifact := hresolve
          simp only [hcheck, hget, hresolve'] at h
          refine loadArtifact_served hconsistent ?_ hn hresolve hcache h
          intro n' himports cache' out' hcache' hstack' hout
          have hstacked' := hstacked.push hn hresolve himports
          rw [← hstack'] at hstacked' ⊢
          exact ih (hclosed hn himports) hcache' hstacked' hout

/-! ## A session -/

variable {calls : List Request} {cache' : ModuleCache Module}

theorem loadAll_served (hconsistent : Consistent front resolvers requested)
    (hclosed : ∀ {n n'}, requested n → Imports front resolvers n n' → requested n')
    {results : List (Except LoadError Module)} (hcalls : ∀ n ∈ calls, requested n)
    (hcache : CacheSound front resolvers requested cache) (hstack : cache.loadingStack = [])
    (h : loadAll front resolvers fuel calls cache = some (results, cache')) :
    CacheSound front resolvers requested cache' ∧
      List.Forall₂ (fun n r => (∀ m, r = .ok m → CompiledFrom front resolvers n m) ∧
        ∀ cycle, r = .error (.circularDependency cycle) → ImportCycle front resolvers requested)
        calls results := by
  induction calls generalizing cache results cache' with
  | nil =>
    obtain ⟨rfl, rfl⟩ := Prod.mk.inj (Option.some.inj h)
    exact ⟨hcache, .nil⟩
  | cons n calls ih =>
    obtain ⟨p, c⟩ := n
    rw [loadAll] at h
    obtain ⟨⟨r, cache₁⟩, hfirst, h⟩ := Option.bind_eq_some_iff.mp h
    obtain ⟨⟨results, cache₂⟩, hrest, h⟩ := Option.bind_eq_some_iff.mp h
    obtain ⟨rfl, rfl⟩ := Prod.mk.inj (Option.some.inj h)
    have hn : requested (p, c) := hcalls (p, c) List.mem_cons_self
    -- between two calls the loading stack is empty
    have hstacked : Stacked resolvers front requested cache.loadingStack [] (p, c) :=
      ⟨hstack, List.isChain_singleton _, nofun, nofun⟩
    have hserved := load_served hconsistent hclosed hn hcache hstacked hfirst
    obtain ⟨hsound, hresults⟩ := ih (fun x hx => hcalls x (List.mem_cons_of_mem _ hx)) hserved.cache
      (hserved.stack.trans hstack) hrest
    exact ⟨hsound, .cons ⟨hserved.module, hserved.circular⟩ hresults⟩

/-! ## Every load returns

A string is cached before its imports are loaded, so a load is at most as deep as there are strings left. -/

def openPaths (paths : Finset String) (cache : ModuleCache Module) : Finset String :=
  paths.filter fun p => (cache.get p).isNone

def Grows (cache cache' : ModuleCache Module) : Prop :=
  ∀ p, (cache.get p).isSome → (cache'.get p).isSome

theorem Grows.insert (cache : ModuleCache Module) (p : String) (m : Module) :
    Grows cache (cache.insert p m) := by
  intro q hq
  show ((cache.moduleCache.insert p m).lookup q).isSome
  by_cases hpq : q = p
  · rw [hpq, AList.lookup_insert]
    rfl
  · rw [AList.lookup_insert_ne hpq]
    exact hq

theorem Grows.openPaths_subset (h : Grows cache cache') (paths : Finset String) :
    openPaths paths cache' ⊆ openPaths paths cache := by
  intro p hp
  obtain ⟨hmem, hopen⟩ := Finset.mem_filter.mp hp
  refine Finset.mem_filter.mpr ⟨hmem, ?_⟩
  rw [Option.isNone_iff_eq_none] at hopen ⊢
  by_contra hcached
  have hsome := h p (Option.isSome_iff_ne_none.mpr hcached)
  rw [hopen] at hsome
  cases hsome

variable {paths : Finset String}

theorem openPaths_insert_lt (m : Module) (hp : p ∈ paths) (hopen : cache.get p = none) :
    (openPaths paths (cache.insert p m)).card < (openPaths paths cache).card := by
  apply Finset.card_lt_card
  refine Finset.ssubset_iff_subset_ne.mpr ⟨(Grows.insert cache p m).openPaths_subset paths, fun heq => ?_⟩
  have hmem : p ∈ openPaths paths cache := Finset.mem_filter.mpr ⟨hp, by rw [hopen]; rfl⟩
  rw [← heq] at hmem
  have hnone := (Finset.mem_filter.mp hmem).2
  have hget : (cache.insert p m).get p = some m := AList.lookup_insert _
  rw [hget] at hnone
  cases hnone

theorem loadDependencies_returns {load : ModuleCache Module → String → Loading Module Module}
    {start : ModuleCache Module}
    (hload : ∀ dep ∈ deps, ∀ {cache}, Grows start cache → ∃ out, load cache dep = some out ∧
      Grows cache out.2)
    (hcache : Grows start cache) :
    ∃ out, loadDependencies load deps cache = some out ∧ Grows start out.2 := by
  induction deps generalizing cache with
  | nil => exact ⟨_, rfl, hcache⟩
  | cons dep deps ih =>
    obtain ⟨⟨r, cache'⟩, hout, hgrows⟩ := hload dep List.mem_cons_self hcache
    have hcache' : Grows start cache' := fun p hp => hgrows p (hcache p hp)
    rw [loadDependencies, hout]
    cases r with
    | error e => exact ⟨_, rfl, hcache'⟩
    | ok m => exact ih (fun d hd => hload d (List.mem_cons_of_mem _ hd)) hcache'

theorem loadSource_returns (hresolve : n.resolve resolvers = .ok artifact)
    (hsource : artifact.code.source? = some text)
    (hload : ∀ {n'} (m : Module), Imports front resolvers n n' → ∀ {cache'}, Grows
      (cache.insert n.1 m) cache' → ∃ out, load cache' n'.1 n'.2 = some out ∧ Grows cache' out.2) :
    ∃ out, loadModuleFromSourceArtifact front load cache n.1 text artifact n.2 = some out ∧
      Grows cache out.2 := by
  unfold loadModuleFromSourceArtifact
  cases hparse : front.parse text with
  | error message => exact ⟨_, rfl, fun p hp => hp⟩
  | ok program =>
    cases hcompile : front.compileModule n.1 artifact.originPath artifact.origin program with
    | error message =>
      simp only [hcompile]
      exact ⟨_, rfl, fun p hp => hp⟩
    | ok m =>
      simp only [hcompile]
      -- each import is loaded from a cache that has grown by the module itself
      have hdeps : ∀ dep ∈ front.extractDependencies program, ∀ {cache'}, Grows
          (cache.insert n.1 m) cache' →
          ∃ out, load cache' dep (moduleDir artifact n.2) = some out ∧ Grows cache' out.2 := by
        intro dep hdep cache' hgrows
        have himports : Imports front resolvers n (dep, moduleDir artifact n.2) :=
          ⟨artifact, text, program, hresolve, hsource, hparse, hdep, rfl⟩
        exact hload m himports hgrows
      obtain ⟨⟨r, cache'⟩, hloop, hgrows⟩ := loadDependencies_returns hdeps fun p hp => hp
      have hkept : Grows cache cache' := fun p hp => hgrows p (Grows.insert cache n.1 m p hp)
      rw [hloop]
      cases r with
      | error e => exact ⟨_, rfl, hkept⟩
      | ok u => exact ⟨_, rfl, hkept⟩

theorem load_returns
    (hclosed : ∀ {n n' : Request}, n.1 ∈ paths → Imports front resolvers n n' → n'.1 ∈ paths)
    (hn : n.1 ∈ paths) (hfuel : (openPaths paths cache).card < fuel) :
    ∃ out, loadModuleWithContext front resolvers fuel cache n.1 n.2 = some out ∧ Grows cache out.2 := by
  induction fuel generalizing cache n with
  | zero => exact absurd hfuel (Nat.not_lt_zero _)
  | succ fuel ih =>
    rw [loadModuleWithContext]
    cases hcheck : cache.checkCircularDependency n.1 with
    | error e => exact ⟨_, rfl, fun p hp => hp⟩
    | ok u =>
      cases hget : cache.get n.1 with
      | some m => exact ⟨_, rfl, fun p hp => hp⟩
      | none =>
        cases hresolve : n.resolve resolvers with
        | error e =>
          have hresolve' : resolvers.resolveModuleArtifactWithContext n.1 n.2 = .error e := hresolve
          simp only [hresolve']
          exact ⟨_, rfl, fun p hp => hp⟩
        | ok artifact =>
          have hresolve' : resolvers.resolveModuleArtifactWithContext n.1 n.2 = .ok artifact := hresolve
          simp only [hresolve']
          -- with the string cached there is one open string less for the imports
          have hload : ∀ {n'} (m : Module), Imports front resolvers n n' → ∀ {cache'},
              Grows ((cache.pushLoading n.1).insert n.1 m) cache' →
              ∃ out, loadModuleWithContext front resolvers fuel cache' n'.1 n'.2 = some out ∧
                Grows cache' out.2 := by
            intro n' m himports cache' hgrows
            have hless : (openPaths paths ((cache.pushLoading n.1).insert n.1 m)).card <
                (openPaths paths cache).card :=
              openPaths_insert_lt m hn hget
            have hle : (openPaths paths cache').card ≤
                (openPaths paths ((cache.pushLoading n.1).insert n.1 m)).card :=
              Finset.card_le_card (hgrows.openPaths_subset paths)
            exact ih (hclosed hn himports) (by omega)
          have hinsert : ∀ m, Grows cache ((cache.pushLoading n.1).insert n.1 m).popLoading :=
            fun m => Grows.insert cache n.1 m
          unfold loadArtifact
          cases hcode : artifact.code with
          | source text =>
            obtain ⟨out, hout, hgrows⟩ := loadSource_returns hresolve (by rw [hcode]; rfl) hload
            exact ⟨(out.1, out.2.popLoading), by simp only [hout, Option.map_some], hgrows⟩
          | both text bytes =>
            obtain ⟨out, hout, hgrows⟩ := loadSource_returns hresolve (by rw [hcode]; rfl) hload
            exact ⟨(out.1, out.2.popLoading), by simp only [hout, Option.map_some], hgrows⟩
          | compiled bytes => exact ⟨_, rfl, hinsert _⟩
          | contentAddressed bytes =>
            cases hopen : front.openManifest n.1 artifact.origin bytes with
            | error message =>
              simp only [hopen]
              exact ⟨_, rfl, fun p hp => hp⟩
            | ok m =>
              simp only [hopen]
              exact ⟨_, rfl, hinsert m⟩

theorem loadAll_returns
    (hclosed : ∀ {n n' : Request}, n.1 ∈ paths → Imports front resolvers n n' → n'.1 ∈ paths)
    (hcalls : ∀ n ∈ calls, n.1 ∈ paths) (hfuel : paths.card < fuel) (cache : ModuleCache Module) :
    ∃ out, loadAll front resolvers fuel calls cache = some out := by
  induction calls generalizing cache with
  | nil => exact ⟨_, rfl⟩
  | cons n calls ih =>
    obtain ⟨p, c⟩ := n
    have hopen : (openPaths paths cache).card < fuel :=
      lt_of_le_of_lt (Finset.card_le_card (Finset.filter_subset _ _)) hfuel
    have hn : ((p, c) : Request).1 ∈ paths := hcalls (p, c) List.mem_cons_self
    obtain ⟨⟨r, cache₁⟩, hfirst, -⟩ := load_returns hclosed hn hopen
    obtain ⟨⟨results, cache₂⟩, hrest⟩ := ih (fun x hx => hcalls x (List.mem_cons_of_mem _ hx)) cache₁
    refine ⟨(r :: results, cache₂), ?_⟩
    rw [loadAll]
    simp only [hfirst, hrest, Option.bind_eq_bind, Option.bind_some]

variable (front resolvers) in
/-- The sources that some string can resolve to. -/
def Resolvers.sources : List String :=
  resolvers.tree.files.map Prod.snd ++
    (resolvers.extension.entries ++ resolvers.bundle.entries ++ resolvers.embeddedStdlib.entries).filterMap
      fun entry => entry.2.source?

variable (front resolvers) in
/-- The strings that a session can ask for. -/
def importable (calls : List Request) : Finset String :=
  (calls.map Prod.fst ++ resolvers.sources.flatMap fun text =>
    match front.parse text with
    | .ok program => front.extractDependencies program
    | .error _ => []).toFinset

theorem mem_sources (hresolve : n.resolve resolvers = .ok artifact)
    (hsource : artifact.code.source? = some text) :
    text ∈ resolvers.sources := by
  have hentry : ∀ {code}, ⟨n.1, code⟩ ∈ resolvers.extension.entries ++ resolvers.bundle.entries ++
      resolvers.embeddedStdlib.entries → code.source? = some text → text ∈ resolvers.sources := by
    intro code hmem htext
    exact List.mem_append_right _ (List.mem_filterMap.mpr ⟨⟨n.1, code⟩, hmem, htext⟩)
  unfold Request.resolve Resolvers.resolveModuleArtifactWithContext at hresolve
  -- through the resolvers in their order
  split at hresolve
  · rename_i code hlookup
    obtain rfl := Except.ok.inj hresolve
    exact hentry (List.mem_append_left _ (List.mem_append_left _ (AList.mem_lookup_iff.mp hlookup))) hsource
  split at hresolve
  · rename_i code hlookup
    obtain rfl := Except.ok.inj hresolve
    exact hentry (List.mem_append_left _
      (List.mem_append_right _ (AList.mem_lookup_iff.mp hlookup))) hsource
  split at hresolve
  · rename_i code hlookup
    obtain rfl := Except.ok.inj hresolve
    exact hentry (List.mem_append_right _ (AList.mem_lookup_iff.mp hlookup)) hsource
  obtain ⟨file, -, hread⟩ := Fallible.bind_eq_ok.mp hresolve
  split at hread
  · rename_i text' hfile
    obtain rfl := Except.ok.inj hread
    obtain rfl := Option.some.inj hsource
    obtain ⟨entry, hfind, rfl⟩ := Option.map_eq_some_iff.mp hfile
    exact List.mem_append_left _ (List.mem_map_of_mem (List.mem_of_find?_eq_some hfind))
  · cases hread

theorem Imports.mem_importable {n' : Request} (h : Imports front resolvers n n') (calls : List Request) :
    n'.1 ∈ importable front resolvers calls := by
  obtain ⟨artifact, text, program, hresolve, hsource, hparse, hdep, -⟩ := h
  refine List.mem_toFinset.mpr
    (List.mem_append_right _ (List.mem_flatMap.mpr ⟨text, mem_sources hresolve hsource, ?_⟩))
  simpa only [hparse] using hdep

/-- No session runs forever: the files are finitely many. -/
theorem session_returns (front : Frontend Program Module) (resolvers : Resolvers) (calls : List Request) :
    ∃ fuel out, loadAll front resolvers fuel calls (.new : ModuleCache Module) = some out := by
  refine ⟨(importable front resolvers calls).card + 1, loadAll_returns ?_ ?_ (Nat.lt_succ_self _) _⟩
  · exact fun _ himports => himports.mem_importable calls
  · exact fun n hn => List.mem_toFinset.mpr (List.mem_append_left _ (List.mem_map_of_mem hn))

/-! ## The session as a whole -/

/-- In a session in which no relative string has two meanings and no manifest is refused, every
successful call returns the module of the file its own request resolves to, every import of a loaded
module that is in the cache is the module of its own file, and a circular import is reported only
where files that the session asks for import each other in a circle. The session returns. -/
theorem session_loads_own_files (front : Frontend Program Module) (resolvers : Resolvers)
    (calls : List Request)
    (hconsistent : Consistent front resolvers (Requested front resolvers calls)) :
    (∃ fuel out, loadAll front resolvers fuel calls .new = some out) ∧
    ∀ fuel results cache, loadAll front resolvers fuel calls .new = some (results, cache) →
      List.Forall₂ (fun n r => (∀ m, r = .ok m → CompiledFrom front resolvers n m) ∧
        ∀ cycle, r = .error (.circularDependency cycle) →
          ImportCycle front resolvers (Requested front resolvers calls)) calls results ∧
      ∀ n, Requested front resolvers calls n → ∀ m, cache.get n.1 = some m →
        CompiledFrom front resolvers n m := by
  refine ⟨session_returns front resolvers calls, fun fuel results cache h => ?_⟩
  have hnew : CacheSound front resolvers (Requested front resolvers calls) (.new : ModuleCache Module) := by
    intro p m hget
    have hnone : (ModuleCache.new : ModuleCache Module).get p = none := AList.lookup_empty p
    rw [hnone] at hget
    cases hget
  obtain ⟨hsound, hresults⟩ := loadAll_served hconsistent .imported (fun n hn => .call hn) hnew rfl h
  refine ⟨hresults, fun n hn m hget => ?_⟩
  obtain ⟨c, hc, artifact, hresolve, hm⟩ := hsound n.1 m hget
  exact ⟨artifact, (hconsistent.resolve_eq hn hc).trans hresolve, hm⟩

end

/-! ## Two directories -/

/-- The strings after `from`, in the order of the file. -/
def fromStrings : List String → List String
  | "from" :: modulePath :: rest => modulePath :: fromStrings rest
  | _ :: rest => fromStrings rest
  | [] => []

/-- A front end for files of words. -/
def wordFrontend : Frontend (List String) (String × List String) where
  parse text := .ok (splitAtChar ' ' text)
  extractDependencies := fromStrings
  compileModule modulePath _ _ program := .ok (modulePath, program)
  compiledModule modulePath _ := (modulePath, [])
  openManifest _ _ _ := .error "no manifest"

def filesOnly (files : List (Path × String)) : Resolvers where
  extension := ∅
  bundle := ∅
  embeddedStdlib := ∅
  paths := ⟨["std"], [["lib"]], ∅⟩
  tree := ⟨files⟩

def projectFiles : List (Path × String) :=
  [(["a", "main.shape"], "from util use f"), (["lib", "util.shape"], "fn f"),
    (["a", "helper.shape"], "fn f"), (["b", "helper.shape"], "fn g")]

theorem resolve_main : Request.resolve (filesOnly projectFiles) ("./main", some ["a"]) =
    .ok ⟨.source "from util use f", some ["a", "main.shape"], .filesystem⟩ := by
  decide +kernel

theorem resolve_util : Request.resolve (filesOnly projectFiles) ("util", some ["a"]) =
    .ok ⟨.source "fn f", some ["lib", "util.shape"], .filesystem⟩ := by
  decide +kernel

theorem resolve_helper : Request.resolve (filesOnly projectFiles) ("./helper", some ["b"]) =
    .ok ⟨.source "fn g", some ["b", "helper.shape"], .filesystem⟩ := by
  decide +kernel

theorem requested_main {n : Request}
    (h : Requested wordFrontend (filesOnly projectFiles) [("./main", some ["a"])] n) :
    n = ("./main", some ["a"]) ∨ n = ("util", some ["a"]) := by
  induction h with
  | call hn => exact Or.inl (List.mem_singleton.mp hn)
  | @imported n n' _ himports ih =>
    obtain ⟨artifact, text, program, hresolve, hsource, hparse, hdep, hdir⟩ := himports
    rcases ih with rfl | rfl
    · rw [resolve_main] at hresolve
      obtain rfl := Except.ok.inj hresolve
      obtain rfl := Option.some.inj hsource
      obtain rfl := Except.ok.inj hparse
      have hwords : wordFrontend.extractDependencies (splitAtChar ' ' "from util use f") =
          ["util"] := by decide +kernel
      rw [hwords] at hdep
      exact Or.inr (Prod.ext (List.mem_singleton.mp hdep) hdir)
    · rw [resolve_util] at hresolve
      obtain rfl := Except.ok.inj hresolve
      obtain rfl := Option.some.inj hsource
      obtain rfl := Except.ok.inj hparse
      have hwords : wordFrontend.extractDependencies (splitAtChar ' ' "fn f") = [] := by decide +kernel
      rw [hwords] at hdep
      cases hdep

theorem consistent_main : Consistent wordFrontend (filesOnly projectFiles)
    (Requested wordFrontend (filesOnly projectFiles) [("./main", some ["a"])]) := by
  refine ⟨?_, ?_⟩
  · intro p c c' hc hc' _
    rcases requested_main hc with h | h <;> rcases requested_main hc' with h' | h'
    all_goals
      obtain ⟨rfl, rfl⟩ := Prod.mk.inj h
      obtain ⟨hp, rfl⟩ := Prod.mk.inj h'
      rfl
  · intro n artifact bytes hn hresolve hcode
    rcases requested_main hn with rfl | rfl
    · rw [resolve_main] at hresolve
      obtain rfl := Except.ok.inj hresolve
      cases hcode
    · rw [resolve_util] at hresolve
      obtain rfl := Except.ok.inj hresolve
      cases hcode

/-- A session that loads `a/main.shape` and the library module it imports. -/
theorem session_loads_own_files_main :
    ∃ cache, loadAll wordFrontend (filesOnly projectFiles) 3 [("./main", some ["a"])] .new =
        some ([.ok ("./main", ["from", "util", "use", "f"])], cache) ∧
      CompiledFrom wordFrontend (filesOnly projectFiles) ("./main", some ["a"])
        ("./main", ["from", "util", "use", "f"]) := by
  have hresults :
      (loadAll wordFrontend (filesOnly projectFiles) 3 [("./main", some ["a"])] .new).map Prod.fst =
      some [.ok ("./main", ["from", "util", "use", "f"])] := by decide +kernel
  obtain ⟨⟨results, cache⟩, hload, rfl⟩ := Option.map_eq_some_iff.mp hresults
  refine ⟨cache, hload, ?_⟩
  cases ((session_loads_own_files _ _ _ consistent_main).2 3 _ cache hload).1 with
  | cons hfirst _ => exact hfirst.1 _ rfl

/-- `./helper` from `a` and then from `b`: the second call returns the module of `a`. -/
theorem second_directory_served_first :
    ¬∀ (Program Module : Type) (front : Frontend Program Module) (resolvers : Resolvers)
      (calls : List Request)
      (fuel : Nat) (results : List (Except LoadError Module)) (cache : ModuleCache Module),
      loadAll front resolvers fuel calls .new = some (results, cache) →
      List.Forall₂ (fun n r => (∀ m, r = .ok m → CompiledFrom front resolvers n m) ∧
        ∀ cycle, r = .error (.circularDependency cycle) →
          ImportCycle front resolvers (Requested front resolvers calls)) calls results := by
  intro h
  have hresults :
      (loadAll wordFrontend (filesOnly projectFiles) 1
      [("./helper", some ["a"]), ("./helper", some ["b"])]
      .new).map Prod.fst = some [.ok ("./helper", ["fn", "f"]), .ok ("./helper", ["fn", "f"])] :=
        by decide +kernel
  obtain ⟨⟨results, cache⟩, hload, rfl⟩ := Option.map_eq_some_iff.mp hresults
  cases h _ _ _ _ _ _ _ _ hload with
  | cons _ hrest =>
    cases hrest with
    | cons hsecond _ =>
      obtain ⟨artifact, hresolve, hmodule⟩ := hsecond.1 _ rfl
      rw [resolve_helper] at hresolve
      obtain rfl := Except.ok.inj hresolve
      revert hmodule
      decide +kernel

end ShapeLang.Modules
