import ShapeLang.Lib.Postorder
import ShapeLang.Packages.Registry

/-!
# The dependency resolver

The entries of `[dependencies]` become packages on disk. Path and git dependencies are followed
breadth first through the manifests of the packages they lead to; version requirements met on the
way go to the registry solver. The packages found are then checked for cycles and sorted,
dependencies first.

The file system and the `git` command are a parameter (`Host`). Its state changes only when `git`
runs, so the state is passed on from call to call. As in the registry solver a `HashOrder` fixes the
order of every walk over a map.
-/

namespace ShapeLang.Packages

open ShapeLang.Lib

/-! ## Data -/

/-- What the resolver reads of a `shape.toml`. -/
structure ShapeProject where
  version : String
  dependencies : HashMap String DependencySpec

/-- What it reads of a `.shapec` file. -/
structure PackageBundle where
  version : String
  bundleKind : String
  dependencies : HashMap String String

/-- The world outside: paths, files and the `git` command. -/
structure Host (W : Type) where
  join : String → String → String
  withExtension : String → String → String
  parent : String → Option String
  isAbsolute : String → Bool
  canonicalize : W → String → Except String String
  pathExists : W → String → Bool
  isDir : W → String → Bool
  /-- The file at a path, read and parsed as a manifest. -/
  readProject : W → String → Option ShapeProject
  readBundle : W → String → Except String PackageBundle
  /-- The index directory at a path. -/
  registryFiles : W → String → HashMap String (Except String RegistryIndexFile)
  sha256Hex : String → String
  createDirAll : W → String → Except String W
  /-- Runs `git` in a directory: did it succeed, and what did it print? -/
  git : W → Option String → List String → Except String ((Bool × String) × W)

inductive ResolvedDependencySource where
  | path
  | git (url rev : String)
  | bundle
  | registry (registry : String)
  deriving DecidableEq

structure ResolvedDependency where
  name : String
  path : String
  version : String
  source : ResolvedDependencySource
  dependencies : List String
  deriving DecidableEq

structure DependencyResolver where
  projectRoot : String
  cacheDir : String
  registryIndexDir : String
  registrySrcDir : String

section

variable {W V R : Type} [DecidableEq R] (host : Host W) (resolver : DependencyResolver)
  (semver : Semver V R)
  (order : HashOrder String)

/-! ## Manifests -/

def readDepVersion (w : W) (depPath : String) : Option String :=
  match host.readProject w (host.join depPath "shape.toml") with
  | none => none
  | some config => if config.version.isEmpty then none else some config.version

def readDepDependencySpecs (w : W) (depPath : String) : Option (HashMap String DependencySpec) :=
  (host.readProject w (host.join depPath "shape.toml")).map (·.dependencies)

def readDepDependencyNames (point : List Nat) (w : W) (depPath : String) : Option (List String) :=
  (readDepDependencySpecs host w depPath).map fun specs => order.walk point specs.keys

/-! ## Path and git dependencies -/

/-- Both ways to find a bundle end here. -/
def readBundleDep (point : List Nat) (w : W) (name canonical : String) :
    Except String ResolvedDependency := do
  let bundle ← (host.readBundle w canonical).mapError fun e =>
    s!"Bundle dependency '{name}' at '{canonical}' is invalid: {e}"
  let kind := bundle.bundleKind
  if !kind.isEmpty && kind ≠ "portable-bytecode" then
    .error s!"Bundle dependency '{name}' at '{canonical}' has unsupported bundle_kind '{kind}'"
  else
    .ok { name, path := canonical, version := bundle.version, source := .bundle,
          dependencies := order.walk point bundle.dependencies.keys }

def resolvePathDep (point : List Nat) (w : W) (ownerRoot name pathStr : String) :
    Except String ResolvedDependency := do
  let depPath := host.join ownerRoot pathStr
  let bundlePath := host.withExtension depPath "shapec"
  if pathStr.endsWith ".shapec" then
    let canonical ← (host.canonicalize w depPath).mapError fun e =>
      s!"Bundle dependency '{name}' at '{depPath}' could not be resolved: {e}"
    if !host.pathExists w canonical then .error s!"Bundle dependency '{name}' not found at '{canonical}'"
    else readBundleDep host order point w name canonical
  else if host.pathExists w bundlePath then
    -- A bundle next to the directory is preferred.
    let canonical ← (host.canonicalize w bundlePath).mapError fun e =>
      s!"Bundle dependency '{name}' at '{bundlePath}' could not be resolved: {e}"
    readBundleDep host order point w name canonical
  else
    let canonical ← (host.canonicalize w depPath).mapError fun e =>
      s!"Path dependency '{name}' at '{depPath}' could not be resolved: {e}"
    if !host.pathExists w canonical then .error s!"Path dependency '{name}' not found at '{canonical}'"
    else
      .ok { name, path := canonical, source := .path
            version := (readDepVersion host w canonical).getD "local"
            dependencies := (readDepDependencyNames host order point w canonical).getD [] }

/-- A `git` command that has to succeed. -/
def gitStep (w : W) (dir : Option String) (args : List String) (ioError : String → String)
    (failure : String) :
    Except String W := do
  let ((success, _), w) ← (host.git w dir args).mapError ioError
  if success then .ok w else .error failure

/-- The checkout directory of a git dependency, fetched or cloned. -/
def fetchOrClone (w : W) (name url gitCache : String) : Except String W :=
  if host.pathExists w (host.join gitCache ".git") then
    gitStep host w (some gitCache) ["fetch", "--all"] (fun e => s!"Failed to fetch git dep '{name}': {e}")
      s!"git fetch failed for dependency '{name}'"
  else do
    let w ← (host.createDirAll w gitCache).mapError fun e =>
        s!"Failed to create git cache dir for '{name}': {e}"
    gitStep host w none ["clone", url, gitCache] (fun e => s!"Failed to clone git dep '{name}': {e}")
      s!"git clone failed for dependency '{name}'"

/-- `char::is_whitespace`: the Unicode property `White_Space`. -/
def isWhitespace (c : Char) : Bool :=
  (9 ≤ c.toNat && c.toNat ≤ 13) || (0x2000 ≤ c.toNat && c.toNat ≤ 0x200a) ||
    c.toNat ∈ [0x20, 0x85, 0xa0, 0x1680, 0x2028, 0x2029, 0x202f, 0x205f, 0x3000]

/-- `str::trim`. -/
def trim (text : String) : String :=
  String.ofList ((text.toList.dropWhile isWhitespace).reverse.dropWhile isWhitespace).reverse

def resolveGitDep (point : List Nat) (w : W) (name url gitRef : String) :
    Except String (ResolvedDependency × W) := do
  let shortHash := ((host.sha256Hex url).take 16).toString
  let gitCache := host.join (host.join resolver.cacheDir "git") s!"{name}-{shortHash}"
  let w ← fetchOrClone host w name url gitCache
  let w ← gitStep host w (some gitCache) ["checkout", gitRef]
    (fun e => s!"Failed to checkout '{gitRef}' for dep '{name}': {e}")
    s!"git checkout '{gitRef}' failed for dependency '{name}'"
  let ((_, stdout), w) ← (host.git w (some gitCache) ["rev-parse", "HEAD"]).mapError fun e =>
    s!"Failed to get git rev for dep '{name}': {e}"
  let rev := trim stdout
  .ok ({ name, path := gitCache, version := rev, source := .git url rev,
         dependencies := (readDepDependencyNames host order point w gitCache).getD [] }, w)

def resolveOneNonRegistry (point : List Nat) (w : W) (ownerRoot name : String) :
    DependencySpec → Except String (ResolvedDependency × W)
  | .version version =>
    .error s!"internal resolver error: registry dependency '{name}@{version}' reached non-registry path"
  | .detailed detail =>
    match detail.path, detail.git, detail.version with
    | some pathStr, _, _ =>
      (resolvePathDep host order point w ownerRoot name pathStr).map fun dep => (dep, w)
    | none, some gitUrl, _ =>
      resolveGitDep host resolver order point w name gitUrl
        (((detail.rev.or detail.tag).or detail.branch).getD "HEAD")
    | none, none, some version =>
      .error s!"internal resolver error: registry dependency '{name}@{version}' reached non-registry path"
    | none, none, none => .error s!"Dependency '{name}' must specify 'path', 'git', or 'version'"

/-! ## The walk over the manifests -/

/-- How `{:?}` prints a source. -/
def ResolvedDependencySource.debug : ResolvedDependencySource → String
  | .path => "Path"
  | .git url rev =>
    let url := url.quote
    let rev := rev.quote
    s!"Git \x7b url: {url}, rev: {rev} \x7d"
  | .bundle => "Bundle"
  | .registry label =>
    let label := label.quote
    s!"Registry \x7b registry: {label} \x7d"

def ensureNonRegistryCompatible (existing candidate : ResolvedDependency) : Except String Unit :=
  if existing.path = candidate.path ∧ existing.version = candidate.version ∧ existing.source =
    candidate.source then
    .ok ()
  else
    let describe (dep : ResolvedDependency) : String :=
      "'" ++ dep.path ++ "' (" ++ dep.source.debug ++ ", " ++ dep.version ++ ")"
    .error ("Dependency '" ++ existing.name ++ "' resolved to conflicting sources: " ++
      describe existing ++ " vs " ++
      describe candidate)

/-- A dependency to look at: the package that declares it, its name and what is declared. -/
structure PendingDependency where
  ownerRoot : String
  name : String
  spec : DependencySpec
  deriving DecidableEq

/-- The variables of the walk. -/
structure Gathering (W R : Type) where
  world : W
  pending : List PendingDependency
  /-- The names that have been enqueued. -/
  visited : Finset String
  resolved : HashMap String ResolvedDependency
  constraints : HashMap String (List R)

/-- The loop that enqueues the dependencies of a package, each name once. -/
def enqueue (ownerRoot : String) (specs : HashMap String DependencySpec) (names : List String)
    (g : Gathering W R) :
    Gathering W R :=
  names.foldl
    (fun g childName =>
      match specs.lookup childName with
      | none => g
      | some spec =>
        if childName ∈ g.visited then g
        else
          { g with
            visited := insert childName g.visited
            pending := g.pending ++ [⟨ownerRoot, childName, spec⟩] })
    g

/-- One round of the walk, for the entry taken from the front of the queue. -/
def gatherStep (point : List Nat) (g : Gathering W R) (next : PendingDependency) :
    Except String (Gathering W R) :=
  match registryRequirementForSpec next.spec with
  | some requirement => do
    let req ← parseVersionReq semver next.name requirement
    .ok { g with constraints := (addRequirement g.constraints next.name req).1 }
  | none => do
    let (dep, world) ← resolveOneNonRegistry host resolver order (0 :: point) g.world next.ownerRoot
        next.name next.spec
    match g.resolved.lookup next.name with
    | some existing => do
      ensureNonRegistryCompatible existing dep
      .ok { g with world }
    | none =>
      let g := { g with world, resolved := g.resolved.insert next.name dep }
      if dep.source = .bundle ∨ host.isDir world dep.path = false then .ok g
      else
        match readDepDependencySpecs host world dep.path with
        | none => .ok g
        | some depSpecs => .ok (enqueue dep.path depSpecs (order.walk (1 :: point) depSpecs.keys) g)

/-- The walk. Without a value when `fuel` rounds are not enough. -/
def gather : Nat → List Nat → Gathering W R → Option (Except String (Gathering W R))
  | 0, _, _ => none
  | fuel + 1, point, g =>
    match g.pending with
    | [] => some (.ok g)
    | next :: rest =>
      match gatherStep host resolver semver order (fuel :: point) { g with pending := rest } next with
      | .error e => some (.error e)
      | .ok g' => gather fuel point g'

def resolveNonRegistryGraph (fuel : Nat) (w : W) (rootDeps : HashMap String DependencySpec) :
    Option (Except String (Gathering W R)) :=
  gather host resolver semver order fuel [0]
    (enqueue resolver.projectRoot rootDeps (order.walk [0] rootDeps.keys)
      { world := w, pending := [], visited := ∅, resolved := ∅, constraints := ∅ })

/-! ## Registry packages -/

def resolveRegistrySourcePath (raw : String) : String :=
  if host.isAbsolute raw then raw
  else host.join ((host.parent resolver.registryIndexDir).getD resolver.registryIndexDir) raw

/-- Where a selected version is on disk. -/
def registrySourcePath (point : List Nat) (w : W) (packageName packageVersion : String) :
    Option RegistrySourceSpec → Except String (String × W)
  | some (.path path) => do
    let concrete := resolveRegistrySourcePath host resolver path
    let canonical ← (host.canonicalize w concrete).mapError fun err =>
      s!"Registry dependency '{packageName}@{packageVersion}' path '{concrete}' could not be resolved: {err}"
    .ok (canonical, w)
  | some (.bundle path) => do
    let concrete := resolveRegistrySourcePath host resolver path
    let canonical ← (host.canonicalize w concrete).mapError fun err =>
      s!"Registry bundle '{packageName}@{packageVersion}' path '{concrete}' could not be resolved: {err}"
    let bundle ← (host.readBundle w canonical).mapError fun err =>
      s!"Registry bundle '{packageName}@{packageVersion}' at '{canonical}' is invalid: {err}"
    let kind := bundle.bundleKind
    if !kind.isEmpty && kind ≠ "portable-bytecode" then
      .error s!"Registry bundle '{packageName}@{packageVersion}' has unsupported bundle_kind '{kind}'"
    else .ok (canonical, w)
  | some (.git url rev tag branch) => do
    let (dep, w) ← resolveGitDep host resolver order point w packageName url
        (((rev.or tag).or branch).getD "HEAD")
    .ok (dep.path, w)
  | none => do
    let srcDir := resolver.registrySrcDir
    let flattened := host.join srcDir s!"{packageName}-{packageVersion}"
    if host.pathExists w flattened then
      let canonical ← (host.canonicalize w flattened).mapError fun err =>
        s!"Registry source cache path '{flattened}' could not be resolved: {err}"
      .ok (canonical, w)
    else
      let nested := host.join (host.join srcDir packageName) packageVersion
      let canonical ← (host.canonicalize w nested).mapError fun err =>
        s!"Registry dependency '{packageName}@{packageVersion}' source not found in '{srcDir}': {err}"
      .ok (canonical, w)

def materializeRegistrySelection (point : List Nat) (w : W) (selection : RegistrySelection V) :
    Except String (ResolvedDependency × W) := do
  let version := semver.showVersion selection.version
  let (path, w) ← registrySourcePath host resolver order (0 :: point) w selection.package version
      selection.source
  .ok ({ name := selection.package, path, version, source := .registry selection.registry,
         dependencies := order.walk (1 :: point) selection.dependencies.keys }, w)

def materializeAll : List Nat → W → List (RegistrySelection V) → Except String (List ResolvedDependency × W)
  | _, w, [] => .ok ([], w)
  | point, w, selection :: rest => do
    let (dep, w) ← materializeRegistrySelection host resolver semver order
        (rest.length :: point) w selection
    let (deps, w) ← materializeAll point w rest
    .ok (dep :: deps, w)

def resolveRegistryPackages (fuel : Nat) (w : W) (constraints : HashMap String (List R)) :
    Option (Except String (List ResolvedDependency × W)) :=
  let registry : RegistryIndex :=
    { registryIndexDir := resolver.registryIndexDir
      files := host.registryFiles w resolver.registryIndexDir }
  match solveRegistryConstraints semver registry order fuel [1] constraints ∅ with
  | none => none
  | some (.error e) => some (.error e)
  | some (.ok (_, selected)) =>
    some (materializeAll host resolver semver order [2] w
      ((order.walk [2] selected.keys).filterMap selected.lookup))

/-- The packages from the registry join those from paths and `git`. -/
def insertRegistryDeps : List ResolvedDependency → HashMap String ResolvedDependency →
    Except String (HashMap String ResolvedDependency)
  | [], resolved => .ok resolved
  | dep :: deps, resolved =>
    if (resolved.lookup dep.name).isSome then
      .error ("Dependency '" ++ dep.name ++ "' is declared from multiple sources (registry + non-registry)")
    else insertRegistryDeps deps (resolved.insert dep.name dep)

/-- The first half of `resolve`: the packages by name, and the world they were found in. -/
def resolvePackages (fuel : Nat) (w : W) (deps : HashMap String DependencySpec) :
    Option (Except String (HashMap String ResolvedDependency × W)) :=
  match resolveNonRegistryGraph host resolver semver order fuel w deps with
  | none => none
  | some (.error e) => some (.error e)
  | some (.ok g) =>
    if g.constraints.entries.isEmpty then some (.ok (g.resolved, g.world))
    else
      match resolveRegistryPackages host resolver semver order fuel g.world g.constraints with
      | none => none
      | some (.error e) => some (.error e)
      | some (.ok (registryDeps, world)) =>
        some ((insertRegistryDeps registryDeps g.resolved).map fun resolved => (resolved, world))

/-! ## Cycles and order -/

def filteredEdges (point : List Nat) (w : W) (dep : ResolvedDependency) (names : List String) :
    List String :=
  if dep.dependencies ≠ [] then dep.dependencies.filter (· ∈ names)
  else
    -- Older lock and source formats: the manifest is read again.
    match host.isDir w dep.path, readDepDependencyNames host order point w dep.path with
    | true, some deps => deps.filter (· ∈ names)
    | _, _ => []

/-- The adjacency lists of the packages, by name. -/
def adjacency (point : List Nat) (w : W) (names : List String) (deps : List ResolvedDependency)
    (graph : HashMap String (List String)) : HashMap String (List String) :=
  deps.zipIdx.foldl (fun graph (dep, i) => graph.insert dep.name
    (filteredEdges host order (i :: point) w dep names)) graph

def neighbors (graph : HashMap String (List String)) (name : String) : List String :=
  (graph.lookup name).getD []

def dfsCycle (graph : HashMap String (List String)) :
    Nat → Postorder.Search String → String → Option (Option (List String) × Postorder.Search String) :=
  Postorder.findCycle (neighbors graph)

/-- A search enters every package at most once, so their number bounds the depth of the calls. -/
def checkCycles (w : W) (resolved : List ResolvedDependency) : Option (Except String Unit) :=
  let names := resolved.map (·.name)
  let graph := adjacency host order [3] w names resolved ∅
  match Postorder.findCycleAll (dfsCycle graph names.length) (order.walk [4] graph.keys) ⟨∅, ∅⟩ with
  | none => none
  | some (some cycle, _) => some (.error ("Circular dependency detected: " ++ " -> ".intercalate cycle))
  | some (none, _) => some (.ok ())

def topoDfs (graph : HashMap String (List String)) :
    Nat → Postorder.Marks String → String → Option (Postorder.Marks String) :=
  Postorder.visit (neighbors graph)

/-- `order.into_iter().filter_map(|name| resolved_map.remove(&name))`. -/
def removeInOrder : List String → HashMap String ResolvedDependency → List ResolvedDependency
  | [], _ => []
  | name :: names, resolved =>
    match resolved.lookup name with
    | none => removeInOrder names resolved
    | some dep => dep :: removeInOrder names (resolved.erase name)

/-- The second half of `resolve`. -/
def sortPackages (w : W) (resolved : HashMap String ResolvedDependency) :
    Option (Except String (List ResolvedDependency)) :=
  match checkCycles host order w ((order.walk [5] resolved.keys).filterMap resolved.lookup) with
  | none => none
  | some (.error e) => some (.error e)
  | some (.ok ()) =>
    let names := resolved.keys
    let empty : HashMap String (List String) := names.foldl (fun graph name => orInsert graph name []) ∅
    let graph := adjacency host order [6] w names
        ((order.walk [7] resolved.keys).filterMap resolved.lookup) empty
    match Postorder.visitAll (topoDfs graph names.length) (order.walk [8] names) ⟨∅, []⟩ with
    | none => none
    | some marks => some (.ok (removeInOrder marks.order resolved))

def resolve (fuel : Nat) (w : W) (deps : HashMap String DependencySpec) :
    Option (Except String (List ResolvedDependency)) :=
  match resolvePackages host resolver semver order fuel w deps with
  | none => none
  | some (.error e) => some (.error e)
  | some (.ok (resolved, world)) => sortPackages host order world resolved

end

end ShapeLang.Packages
