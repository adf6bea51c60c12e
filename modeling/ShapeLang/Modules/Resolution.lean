import ShapeLang.Lib.HashMap

/-!
# Module path resolution

`resolve_module_path_with_context` turns an import string into a file: relative to the importing
directory for `./` and `../`, otherwise through the declared dependencies, the standard library and
the search paths, in this order. Around it stand the in-memory resolvers of the loader, which know a
module by its import string alone.

A path is the list of its components from the root. The file tree has no symbolic links, so that
`canonicalize` only removes `..`. Of an error only its kind is kept, not its text.
-/

namespace ShapeLang.Modules

open ShapeLang.Lib

/-! ## Paths and files -/

abbrev Path := List String

/-- `str::split` at a character. -/
def splitAtChar (separator : Char) (text : String) : List String :=
  (text.toList.splitOn separator).map String.ofList

/-- The components of a path text: repeated separators and `.` are dropped. -/
def components (text : String) : List String :=
  (splitAtChar '/' text).filter fun c => c != "" && c != "."

def join (base : Path) (text : String) : Path :=
  if text.startsWith "/" then components text else base ++ components text

/-- The file name up to its last dot, with the extension behind it; a leading dot begins no extension. -/
def splitExtension (name : String) : String × Option String :=
  match splitAtChar '.' name with
  | [_] => (name, none)
  | parts =>
      let stem := ".".intercalate parts.dropLast
      if stem = "" then (name, none) else (stem, parts.getLast?)

def withExtension (path : Path) (extension : String) : Path :=
  match path.getLast? with
  | some ".." | none => path
  | some name => path.dropLast ++ [(splitExtension name).1 ++ "." ++ extension]

def hasExtension (path : Path) : Bool :=
  match path.getLast? with
  | some ".." | none => false
  | some name => (splitExtension name).2.isSome

def canonicalize (path : Path) : Path :=
  path.foldl (fun done c => if c = ".." then done.dropLast else done ++ [c]) []

structure FileTree where
  files : List (Path × String)

namespace FileTree

def readToString (tree : FileTree) (path : Path) : Option String :=
  (tree.files.find? fun file => file.1 = canonicalize path).map Prod.snd

/-- A file, or a directory above one. -/
def pathExists (tree : FileTree) (path : Path) : Bool :=
  tree.files.any fun file => (canonicalize path).isPrefixOf file.1

end FileTree

/-! ## Resolution -/

inductive LoadError where
  | relativeNotFound (modulePath : String) (context : Path)
  | relativeWithoutContext (modulePath : String)
  | moduleNotFound (modulePath : String)
  | unreadable (file : Path)
  | parse (modulePath : String) (message : String)
  | compile (message : String)
  | manifest (message : String)
  | circularDependency (cycle : String)
  deriving DecidableEq

/-- Where the loader looks on disk. -/
structure SearchPaths where
  stdlibPath : Path
  modulePaths : List Path
  dependencyPaths : HashMap String Path

def isRelative (modulePath : String) : Bool :=
  modulePath.startsWith "./" || modulePath.startsWith "../"

/-- The first of the candidates that exists. -/
def firstExisting (tree : FileTree) (candidates : List Path) : Option Path :=
  (candidates.find? tree.pathExists).map canonicalize

def resolveRelative (tree : FileTree) (modulePath : String) (context : Option Path) :
    Except LoadError Path :=
  match context with
  | none => .error (.relativeWithoutContext modulePath)
  | some context =>
      match firstExisting tree [withExtension (join context modulePath) "shape",
        join (join context modulePath) "index.shape"] with
      | some path => .ok path
      | none => .error (.relativeNotFound modulePath context)

/-- `replace("::", "/")`. -/
def slashed : List Char → List Char
  | ':' :: ':' :: rest => '/' :: slashed rest
  | c :: rest => c :: slashed rest
  | [] => []

/-- The first part of `split("::")`. -/
def firstSegment : List Char → List Char
  | ':' :: ':' :: _ => []
  | c :: rest => c :: firstSegment rest
  | [] => []

def osPath (modulePath : String) : String := String.ofList (slashed modulePath.toList)

/-- The candidates inside a declared dependency. -/
def dependencyCandidates (paths : SearchPaths) (modulePath : String) : List Path :=
  let depName := String.ofList (firstSegment modulePath.toList)
  match paths.dependencyPaths.lookup depName with
  | none => []
  | some depRoot =>
      let subPath := (modulePath.drop depName.length).toString
      let subPath := if subPath.startsWith "::" then (subPath.drop 2).toString else subPath
      if subPath = "" then [join depRoot "index.shape", withExtension depRoot "shape"]
      else
        let subPathOs := osPath subPath
        let subFile := join depRoot subPathOs
        let subFile := if hasExtension subFile then subFile else withExtension subFile "shape"
        [subFile, join (join depRoot subPathOs) "index.shape"]

/-- The candidates in the standard library and on the search paths. -/
def searchCandidates (paths : SearchPaths) (modulePath : String) : List Path :=
  let modulePath := if modulePath.startsWith "std::" then (modulePath.drop 5).toString else modulePath
  let modulePathOs := osPath modulePath
  let moduleFile := if modulePath.endsWith ".shape" then modulePathOs else modulePathOs ++ ".shape"
  (paths.stdlibPath :: paths.modulePaths).flatMap fun root =>
    [join root moduleFile, join (join root modulePathOs) "index.shape"]

def resolveModulePathWithContext (tree : FileTree) (paths : SearchPaths) (modulePath : String)
    (context : Option Path) : Except LoadError Path :=
  if isRelative modulePath then resolveRelative tree modulePath context
  else
    match firstExisting tree
      (dependencyCandidates paths modulePath ++ searchCandidates paths modulePath) with
    | some path => .ok path
    | none => .error (.moduleNotFound modulePath)

/-! ## Artifacts -/

inductive ModuleCode where
  | source (text : String)
  | compiled (bytes : List UInt8)
  | both (text : String) (bytes : List UInt8)
  | contentAddressed (manifestBytes : List UInt8)
  deriving DecidableEq

inductive ModuleArtifactOrigin where
  | extension | bundle | embeddedStdlib | filesystem
  deriving DecidableEq

structure ResolvedModuleArtifact where
  code : ModuleCode
  originPath : Option Path
  origin : ModuleArtifactOrigin
  deriving DecidableEq

/-- The chained resolvers of a loader. -/
structure Resolvers where
  extension : HashMap String ModuleCode
  bundle : HashMap String ModuleCode
  embeddedStdlib : HashMap String ModuleCode
  paths : SearchPaths
  tree : FileTree

def Resolvers.resolveFile (r : Resolvers) (modulePath : String) (context : Option Path) :
    Except LoadError ResolvedModuleArtifact := do
  let file ← resolveModulePathWithContext r.tree r.paths modulePath context
  match r.tree.readToString file with
  | some text => .ok { code := .source text, originPath := some file, origin := .filesystem }
  | none => .error (.unreadable file)

def Resolvers.resolveModuleArtifactWithContext (r : Resolvers) (modulePath : String)
    (context : Option Path) :
    Except LoadError ResolvedModuleArtifact :=
  match r.extension.lookup modulePath with
  | some code => .ok { code, originPath := none, origin := .extension }
  | none =>
  match r.bundle.lookup modulePath with
  | some code => .ok { code, originPath := none, origin := .bundle }
  | none =>
  match r.embeddedStdlib.lookup modulePath with
  | some code => .ok { code, originPath := none, origin := .embeddedStdlib }
  | none => r.resolveFile modulePath context

/-- Only a relative import depends on where it is made. -/
theorem Resolvers.resolve_context_free {r : Resolvers} {modulePath : String}
    (h : isRelative modulePath = false) (context context' : Option Path) :
    r.resolveModuleArtifactWithContext modulePath context =
      r.resolveModuleArtifactWithContext modulePath context' := by
  have hpath : resolveModulePathWithContext r.tree r.paths modulePath context =
      resolveModulePathWithContext r.tree r.paths modulePath context' := by
    simp only [resolveModulePathWithContext, h, Bool.false_eq_true, if_false]
  rw [resolveModuleArtifactWithContext, resolveModuleArtifactWithContext, resolveFile, resolveFile, hpath]

end ShapeLang.Modules
