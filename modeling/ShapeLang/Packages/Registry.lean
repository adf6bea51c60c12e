import ShapeLang.Lib.Fallible
import ShapeLang.Lib.HashMap

/-!
# The registry solver

Version dependencies are resolved against a local registry index: a backtracking search that fixes
one package at a time, the one with the fewest matching versions first, highest version first. Each
selected version adds the requirements of its own dependencies.

Semver parsing and matching come from a crate, so they are a parameter (`Semver`). The solver walks over
`HashMap`s at five places and the order of each walk is unspecified: a `HashOrder` fixes an order for every
walk of a run, by the point of the run where it happens.
-/

namespace ShapeLang.Packages

open ShapeLang.Lib

/-! ## Data -/

/-- What the `semver` crate gives: parsing, matching, the order of versions and how both are printed. -/
structure Semver (V R : Type) where
  parseVersion : String → Except String V
  parseReq : String → Except String R
  reqMatches : R → V → Bool
  versionLe : V → V → Bool
  showVersion : V → String
  showReq : R → String

/-- The fields of `DetailedDependency` that say where a dependency comes from. -/
structure DetailedDependency where
  version : Option String := none
  path : Option String := none
  git : Option String := none
  tag : Option String := none
  branch : Option String := none
  rev : Option String := none
  deriving DecidableEq

inductive DependencySpec where
  | version (version : String)
  | detailed (detail : DetailedDependency)
  deriving DecidableEq

inductive RegistrySourceSpec where
  | path (path : String)
  | bundle (path : String)
  | git (url : String) (rev tag branch : Option String)
  deriving DecidableEq

structure RegistryVersionRecord where
  version : String
  yanked : Bool
  dependencies : HashMap String DependencySpec
  source : Option RegistrySourceSpec := none
  deriving DecidableEq

structure RegistryIndexFile where
  package : Option String
  versions : List RegistryVersionRecord
  deriving DecidableEq

structure RegistrySelection (V : Type) where
  package : String
  version : V
  dependencies : HashMap String DependencySpec
  source : Option RegistrySourceSpec := none
  registry : String := "default"
  deriving DecidableEq

/-- The index directory: for each package that has a file, what reading and parsing it gives. -/
structure RegistryIndex where
  registryIndexDir : String
  files : HashMap String (Except String RegistryIndexFile)

section

variable {V R : Type} [DecidableEq R] (semver : Semver V R) (registry : RegistryIndex)
  (order : HashOrder String)

/-! ## Candidates -/

def registryRequirementForSpec : DependencySpec → Option String
  | .version version => some version
  | .detailed detail =>
    -- Explicit source dependency; treat as non-registry.
    if detail.path.isSome || detail.git.isSome then none else detail.version

def parseVersionReq (name req : String) : Except String R :=
  match semver.parseReq req with
  | .ok parsed => .ok parsed
  | .error err => .error s!"Invalid semver requirement for dependency '{name}': '{req}': {err}"

def loadRegistryIndex (package : String) : Except String RegistryIndexFile :=
  match registry.files.lookup package with
  | some file => file
  | none =>
    let dir := registry.registryIndexDir
    .error s!"Registry package '{package}' not found in index '{dir}' (expected {package}.toml or {package}.json)"

/-- The loop over the versions of an index file. -/
def collectCandidates (package : String) (reqs : List R) :
    List RegistryVersionRecord → Except String (List (RegistrySelection V))
  | [] => .ok []
  | record :: rest =>
    if record.yanked then collectCandidates package reqs rest
    else
      match semver.parseVersion record.version with
      | .error err =>
        let version := record.version
        .error s!"Registry package '{package}' contains invalid version '{version}': {err}"
      | .ok version => do
        let out ← collectCandidates package reqs rest
        if reqs.all fun req => semver.reqMatches req version then
          .ok ({ package, version, dependencies := record.dependencies, source := record.source
                 registry := "default" } :: out)
        else .ok out

def registryCandidatesFor (package : String) (reqs : List R) :
    Except String (List (RegistrySelection V)) := do
  let index ← loadRegistryIndex registry package
  if index.package.any (· ≠ package) then
    let declared := index.package.getD ""
    .error s!"Registry index entry '{declared}' does not match requested package '{package}'"
  else
    let out ← collectCandidates semver package reqs index.versions
    -- Highest version first; the sort is stable.
    .ok (out.insertionSort fun a b => semver.versionLe b.version a.version = true)

/-! ## Propagation -/

/-- The requirements collected for a package. -/
def reqsOf (constraints : HashMap String (List R)) (pkg : String) : List R :=
  (constraints.lookup pkg).getD []

def showReqs (reqs : List R) : String := ", ".intercalate (reqs.map semver.showReq)

/-- The first loop of a pass: every selected version against the constraints on its package. -/
def checkSelected (constraints : HashMap String (List R))
    (selected : HashMap String (RegistrySelection V)) :
    List String → Except String Unit
  | [] => .ok ()
  | pkg :: rest =>
    match selected.lookup pkg with
    | none => checkSelected constraints selected rest
    | some chosen =>
      let reqs := reqsOf constraints pkg
      if reqs.all fun req => semver.reqMatches req chosen.version then
        checkSelected constraints selected rest
      else
        let version := semver.showVersion chosen.version
        let listed := showReqs semver reqs
        .error s!"Selected registry version '{version}' for '{pkg}' does not satisfy constraints [{listed}]"

/-- A dependency declared by a selected version. -/
structure DependencyEdge (V : Type) where
  pkgName : String
  pkgVersion : V
  depName : String
  depSpec : DependencySpec

/-- The dependencies that a pass walks over: the packages of the snapshot in order, each with its own in
order. -/
def dependencyEdges (point : List Nat) (selected : HashMap String (RegistrySelection V)) :
    List (DependencyEdge V) :=
  (order.walk (0 :: point) selected.keys).zipIdx.flatMap fun (pkgName, i) =>
    match selected.lookup pkgName with
    | none => []
    | some selection =>
      (order.walk (i :: 1 :: point) selection.dependencies.keys).filterMap fun depName =>
        (selection.dependencies.lookup depName).map fun depSpec =>
          { pkgName, pkgVersion := selection.version, depName, depSpec }

/-- Adds one requirement unless it is there, and says whether it was added. -/
def addRequirement (constraints : HashMap String (List R)) (depName : String) (depReq : R) :
    HashMap String (List R) × Bool :=
  if depReq ∈ reqsOf constraints depName then (constraints, false)
  else (constraints.insert depName (reqsOf constraints depName ++ [depReq]), true)

/-- The second loop of a pass. -/
def absorbDependencies : List (DependencyEdge V) → HashMap String (List R) → Bool →
    Except String (HashMap String (List R) × Bool)
  | [], constraints, changed => .ok (constraints, changed)
  | edge :: rest, constraints, changed =>
    match registryRequirementForSpec edge.depSpec with
    | none =>
      let pkgName := edge.pkgName
      let version := semver.showVersion edge.pkgVersion
      let depName := edge.depName
      .error (s!"Registry package '{pkgName}@{version}' declares non-registry dependency '{depName}' " ++
        "(path/git dependencies inside registry index are not supported)")
    | some depReqStr => do
      let depReq ← parseVersionReq semver edge.depName depReqStr
      let (constraints', added) := addRequirement constraints edge.depName depReq
      absorbDependencies rest constraints' (changed || added)

/-- One round of the loop: check what is selected, then take in what it depends on. -/
def constraintPass (point : List Nat) (constraints : HashMap String (List R))
    (selected : HashMap String (RegistrySelection V)) :
    Except String (HashMap String (List R) × Bool) := do
  checkSelected semver constraints selected (order.walk (2 :: point) constraints.keys)
  absorbDependencies semver (dependencyEdges order point selected) constraints false

/-- The loop that runs until nothing changes. Without a value when `fuel` rounds are not enough. -/
def propagate : Nat → List Nat → HashMap String (List R) → HashMap String (RegistrySelection V) →
    Option (Except String (HashMap String (List R)))
  | 0, _, _, _ => none
  | fuel + 1, point, constraints, selected =>
    match constraintPass semver order (fuel :: point) constraints selected with
    | .error err => some (.error err)
    | .ok (constraints', changed) =>
      if changed then propagate fuel point constraints' selected else some (.ok constraints')

/-! ## The search -/

/-- The package with the fewest candidates; the first of them in case of a tie. -/
def chooseNext (constraints : HashMap String (List R)) :
    List String → Option (String × List (RegistrySelection V)) →
    Except String (Option (String × List (RegistrySelection V)))
  | [], choice => .ok choice
  | package :: rest, choice => do
    let reqs := reqsOf constraints package
    let candidates ← registryCandidatesFor semver registry package reqs
    if candidates.isEmpty then
      let listed := showReqs semver reqs
      .error s!"No registry versions satisfy constraints for '{package}': [{listed}]"
    else
      chooseNext constraints rest
        (if choice.all fun current => candidates.length < current.2.length then some (package, candidates)
        else choice)

/-- The solver's outcome: the final constraints and selections, or an error; without a value when
the fuel runs out. -/
abbrev Outcome (V R : Type) :=
  Option (Except String (HashMap String (List R) × HashMap String (RegistrySelection V)))

/-- The candidates in turn, until one of them leads to a selection. -/
def tryCandidates (package : String) (recurse : Nat → RegistrySelection V → Outcome V R) :
    Nat → List (RegistrySelection V) → Option String → Outcome V R
  | _, [], lastErr =>
    some (.error (lastErr.getD s!"Unable to resolve registry package '{package}' with current constraints"))
  | i, candidate :: rest, _ =>
    match recurse i candidate with
    | none => none
    | some (.ok solved) => some (.ok solved)
    | some (.error err) => tryCandidates package recurse (i + 1) rest (some err)

def solveRegistryConstraints :
    Nat → List Nat → HashMap String (List R) → HashMap String (RegistrySelection V) → Outcome V R
  | 0, _, _, _ => none
  | fuel + 1, point, constraints₀, selected =>
    match propagate semver order (fuel + 1) (0 :: point) constraints₀ selected with
    | none => none
    | some (.error err) => some (.error err)
    | some (.ok constraints) =>
      let unresolved := (order.walk (1 :: point) constraints.keys).filter fun name =>
          (selected.lookup name).isNone
      if unresolved.isEmpty then some (.ok (constraints, selected))
      else
        match chooseNext semver registry constraints unresolved none with
        | .error err => some (.error err)
        | .ok none => some (.error "registry solver failed to choose a package")
        | .ok (some (package, candidates)) =>
          tryCandidates package
            (fun i candidate =>
              solveRegistryConstraints fuel (i :: 2 :: point) constraints
                (selected.insert package candidate))
            0 candidates none

end

end ShapeLang.Packages
