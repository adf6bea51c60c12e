import ShapeLang.Modules.Resolution

/-!
# The module loader

`load_module_with_context`: the loading stack is checked for the import string, then the cache is
asked for it, and only then is it resolved from the importing directory. A source is compiled and
cached before its imports are loaded from its own directory.

The parser, the collection of the exports and the check of a manifest are parameters. Loading is
recursive through the imports of a file; `fuel` bounds how deep. The blobs of a content-addressed
module, which are registered under keys that are no import strings, are left out.
-/

namespace ShapeLang.Modules

open ShapeLang.Lib

/-- What the loader uses to make a module of a resolved artifact. -/
structure Frontend (Program Module : Type) where
  parse : String → Except String Program
  /-- `extract_dependencies`: the import strings in the order of the file. -/
  extractDependencies : Program → List String
  /-- `compile_module` of the annotated program, for an import string and the origin of the artifact. -/
  compileModule : String → Option Path → ModuleArtifactOrigin → Program → Except String Module
  compiledModule : String → ModuleArtifactOrigin → Module
  /-- The manifest deserialized, its integrity and its signature checked, and its exports registered. -/
  openManifest : String → ModuleArtifactOrigin → List UInt8 → Except String Module

structure ModuleCache (Module : Type) where
  moduleCache : HashMap String Module
  loadingStack : List String

namespace ModuleCache

variable {Module : Type}

def new : ModuleCache Module := ⟨∅, []⟩

def get (cache : ModuleCache Module) (modulePath : String) : Option Module :=
  cache.moduleCache.lookup modulePath

/-- The error, if the import string is being loaded. The module on top of the stack may import itself. -/
def checkCircularDependency (cache : ModuleCache Module) (modulePath : String) : Except LoadError Unit :=
  if modulePath ∈ cache.loadingStack then
    if cache.loadingStack.getLast? = some modulePath ∧ cache.loadingStack.count modulePath = 1 then .ok ()
    else .error (.circularDependency (" -> ".intercalate cache.loadingStack ++ " -> " ++ modulePath))
  else .ok ()

def pushLoading (cache : ModuleCache Module) (modulePath : String) : ModuleCache Module :=
  { cache with loadingStack := cache.loadingStack ++ [modulePath] }

def popLoading (cache : ModuleCache Module) : ModuleCache Module :=
  { cache with loadingStack := cache.loadingStack.dropLast }

def insert (cache : ModuleCache Module) (modulePath : String) (module : Module) : ModuleCache Module :=
  { cache with moduleCache := cache.moduleCache.insert modulePath module }

end ModuleCache

section

variable {Program Module : Type} (front : Frontend Program Module) (resolvers : Resolvers)

/-- A result with the cache after it; `none` when the fuel is used up. -/
abbrev Loading (Module α : Type) := Option (Except LoadError α × ModuleCache Module)

/-- The imports one after the other, up to the first error. -/
def loadDependencies {Module : Type} (load : ModuleCache Module → String → Loading Module Module) :
    List String → ModuleCache Module → Loading Module Unit
  | [], cache => some (.ok (), cache)
  | dep :: deps, cache =>
      match load cache dep with
      | none => none
      | some (.error e, cache) => some (.error e, cache)
      | some (.ok _, cache) => loadDependencies load deps cache

/-- The directory from which the imports of an artifact are resolved. -/
def moduleDir (artifact : ResolvedModuleArtifact) (context : Option Path) : Option Path :=
  match artifact.originPath with
  | some file => some file.dropLast
  | none => context

def loadModuleFromSourceArtifact (load : ModuleCache Module → String → Option Path → Loading Module Module)
    (cache : ModuleCache Module) (modulePath : String) (text : String) (artifact : ResolvedModuleArtifact)
    (context : Option Path) : Loading Module Module :=
  match front.parse text with
  | .error message => some (.error (.parse modulePath message), cache)
  | .ok program =>
      let dependencies := front.extractDependencies program
      match front.compileModule modulePath artifact.originPath artifact.origin program with
      | .error message => some (.error (.compile message), cache)
      | .ok module =>
          let cache := cache.insert modulePath module
          match loadDependencies (fun cache dep => load cache dep (moduleDir artifact context))
            dependencies cache with
          | none => none
          | some (.error e, cache) => some (.error e, cache)
          | some (.ok (), cache) => some (.ok module, cache)

/-- What a resolved artifact is loaded to. -/
def loadArtifact (load : ModuleCache Module → String → Option Path → Loading Module Module)
    (cache : ModuleCache Module) (modulePath : String) (artifact : ResolvedModuleArtifact)
    (context : Option Path) :
    Loading Module Module :=
  let cache := cache.pushLoading modulePath
  match artifact.code with
  | .source text | .both text _ =>
      (loadModuleFromSourceArtifact front load cache modulePath text artifact context).map fun r =>
        (r.1, r.2.popLoading)
  | .compiled _ =>
      let module := front.compiledModule modulePath artifact.origin
      some (.ok module, (cache.insert modulePath module).popLoading)
  | .contentAddressed bytes =>
      match front.openManifest modulePath artifact.origin bytes with
      -- these errors return at once and leave the string on the loading stack
      | .error message => some (.error (.manifest message), cache)
      | .ok module => some (.ok module, (cache.insert modulePath module).popLoading)

def loadModuleWithContext : Nat → ModuleCache Module → String → Option Path → Loading Module Module
  | 0, _, _, _ => none
  | fuel + 1, cache, modulePath, context =>
      match cache.checkCircularDependency modulePath with
      | .error e => some (.error e, cache)
      | .ok () =>
      match cache.get modulePath with
      | some module => some (.ok module, cache)
      | none =>
      match resolvers.resolveModuleArtifactWithContext modulePath context with
      | .error e => some (.error e, cache)
      | .ok artifact =>
          loadArtifact front (loadModuleWithContext fuel) cache modulePath artifact context

/-- The calls of a session, with their results. -/
def loadAll (fuel : Nat) : List (String × Option Path) → ModuleCache Module →
    Option (List (Except LoadError Module) × ModuleCache Module)
  | [], cache => some ([], cache)
  | (modulePath, context) :: calls, cache => do
      let (result, cache) ← loadModuleWithContext front resolvers fuel cache modulePath context
      let (results, cache) ← loadAll fuel calls cache
      some (result :: results, cache)

end

end ShapeLang.Modules
