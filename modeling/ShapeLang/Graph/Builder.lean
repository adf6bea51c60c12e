import ShapeLang.Modules.Resolution

/-!
# The module graph

`build_module_graph`: the native extensions are registered, the imports of the root program are
walked depth first with the prelude modules as further imports of every module, the imports of each
node are resolved against the nodes there are, the prelude is added to each node once more, and the
nodes are sorted.

The walk follows import strings and looks for cycles. The dependencies are computed after it from
the nodes, and the sort visits them without looking for cycles again.

A `ModuleId` is the position of a node. The loader is a parameter with a state; `fuel` bounds the
depth of the walk. Of an export the definition of the function, which is never filled in here, is
left out.
-/

namespace ShapeLang.Graph

open ShapeLang.Lib
open ShapeLang.Modules (ModuleArtifactOrigin)

abbrev ModuleId := Nat

/-! ## Programs -/

structure ImportSpec where
  name : String
  aliasName : Option String
  isAnnotation : Bool

inductive ImportItems where
  | named (specs : List ImportSpec)
  | wholeModule (name : String) (aliasName : Option String)

structure ImportStmt where
  items : ImportItems
  source : String

inductive ModuleExportKind where
  | function | builtinFunction | typeAlias | builtinType | trait | enum | annotation | value
  deriving DecidableEq

inductive ScopeSymbolKind where
  | function | builtinFunction | typeAlias | builtinType | trait | enum | annotation | value | const
  deriving DecidableEq

structure ExportSpec where
  name : String
  aliasName : Option String

inductive ExportItem where
  /-- A definition that is exported where it stands, with its name and kind. -/
  | direct (name : String) (kind : ModuleExportKind)
  | named (specs : List ExportSpec)

/-- The items of a program, as far as the graph reads them. -/
inductive Item where
  | importStmt (stmt : ImportStmt)
  | definition (name : String) (kind : ScopeSymbolKind)
  | exportStmt (item : ExportItem) (sourceDecl : Option (String × ScopeSymbolKind))
  | other

structure Program where
  items : List Item

structure ModuleExportSymbol where
  name : String
  aliasName : Option String
  kind : ModuleExportKind

def scopeSymbolKindToExport : ScopeSymbolKind → ModuleExportKind
  | .function => .function
  | .builtinFunction => .builtinFunction
  | .typeAlias => .typeAlias
  | .builtinType => .builtinType
  | .trait => .trait
  | .enum => .enum
  | ScopeSymbolKind.annotation => ModuleExportKind.annotation
  | .value | .const => .value

/-- `ScopeTable::from_program`. -/
def scopeTable (program : Program) : HashMap String ScopeSymbolKind :=
  program.items.foldl (fun table item =>
    match item with
    | .definition name kind => table.insert name kind
    | .exportStmt _ (some (name, kind)) => orInsert table name kind
    | _ => table) ∅

/-- `let` and `var` bindings and unknown names cannot be exported. -/
def exportNamed (table : HashMap String ScopeSymbolKind) (spec : ExportSpec) :
    Except String ModuleExportSymbol :=
  match table.lookup spec.name with
  | some .value => .error s!"Cannot export variable '{spec.name}': variable exports are not yet supported. Only `const` bindings (plus functions and types) can be exported."
  | some kind => .ok ⟨spec.name, spec.aliasName, scopeSymbolKindToExport kind⟩
  | none => .error s!"Cannot export '{spec.name}': not found in module scope"

def exportsOfItem (table : HashMap String ScopeSymbolKind) : Item → Except String (List ModuleExportSymbol)
  | .exportStmt (.direct name kind) _ => .ok [⟨name, none, kind⟩]
  | .exportStmt (.named specs) _ => specs.mapM (exportNamed table)
  | _ => .ok []

def collectExportedSymbols (program : Program) : Except String (List ModuleExportSymbol) :=
  (program.items.mapM (exportsOfItem (scopeTable program))).map List.flatten

def Item.importStmt? : Item → Option ImportStmt
  | .importStmt stmt => some stmt
  | _ => none

def Program.imports (program : Program) : List ImportStmt := program.items.filterMap Item.importStmt?

def extractImportPaths (ast : Program) : List String := ast.imports.map ImportStmt.source

/-! ## Interfaces -/

inductive ModuleExportVisibility where
  | everywhere | comptimeOnly
  deriving DecidableEq

structure ExportedSymbol where
  kind : ModuleExportKind
  visibility : ModuleExportVisibility

abbrev ModuleInterface := HashMap String ExportedSymbol

/-- The visibility a native module declares for an export. -/
inductive NativeVisibility where
  | everywhere | comptimeOnly | internal
  deriving DecidableEq

structure ModuleExports where
  name : String
  exportNames : List String
  exportVisibility : HashMap String NativeVisibility

def buildShapeInterface (ast : Program) : ModuleInterface :=
  match collectExportedSymbols ast with
  | .error _ => ∅
  | .ok symbols => symbols.foldl (fun exports symbol =>
      exports.insert (symbol.aliasName.getD symbol.name) ⟨symbol.kind, .everywhere⟩) ∅

def buildNativeInterface (module : ModuleExports) : ModuleInterface :=
  module.exportNames.foldl (fun exports name =>
    let visibility := match (module.exportVisibility.lookup name).getD .everywhere with
      | .everywhere | .internal => .everywhere
      | .comptimeOnly => .comptimeOnly
    exports.insert name ⟨.function, visibility⟩) ∅

/-- The exports of a Shape source over those of a native module. -/
def mergeInterfaces (native shape : ModuleInterface) : ModuleInterface :=
  shape.entries.foldl (fun exports entry => exports.insert entry.1 entry.2) native

/-! ## Nodes -/

inductive ModuleSourceKind where
  | shapeSource | nativeModule | hybrid | compiledBytecode
  deriving DecidableEq

structure NamedImportSymbol where
  originalName : String
  localName : String
  isAnnotation : Bool
  kind : ModuleExportKind

inductive ResolvedImport where
  | wholeModule (localName canonicalPath : String) (moduleId : ModuleId)
  | named (canonicalPath : String) (moduleId : ModuleId) (symbols : List NamedImportSymbol)

def ResolvedImport.moduleId : ResolvedImport → ModuleId
  | .wholeModule _ _ id => id
  | .named _ id _ => id

structure ModuleNode where
  id : ModuleId
  canonicalPath : String
  sourceKind : ModuleSourceKind
  ast : Option Program
  interface : ModuleInterface
  resolvedImports : List ResolvedImport
  dependencies : List ModuleId

structure ModuleGraph where
  nodes : List ModuleNode
  pathToId : HashMap String ModuleId
  topoOrder : List ModuleId
  rootId : ModuleId
  stdlibBootstrapModules : Finset ModuleId

inductive GraphBuildError where
  /-- The modules that were being visited, in no order, and the one that was entered again. -/
  | cyclicDependency (visiting : Finset String) (target : String)
  | compiledBytecodeNotSupported (modulePath : String)
  | other (message : String)
  deriving DecidableEq

/-! ## The loader -/

structure LoadedModule where
  ast : Program
  artifactOrigin : ModuleArtifactOrigin

/-- What the graph asks of the module loader. -/
structure ModuleLoader (σ : Type) where
  hasExtensionModule : String → Bool
  embeddedStdlibModulePaths : List String
  /-- Does `resolve_module_path` find a file? -/
  resolvesModulePath : String → Bool
  loadModule : σ → String → Except String LoadedModule × σ

inductive ModuleSourceKindHint where
  | nativeExtension | shapeSource | embeddedStdlib | compiledBundle | notFound
  deriving DecidableEq

def resolveModuleSourceKind {σ : Type} (loader : ModuleLoader σ) (modulePath : String) :
    ModuleSourceKindHint :=
  if loader.hasExtensionModule modulePath then .nativeExtension
  else if modulePath ∈ loader.embeddedStdlibModulePaths then .embeddedStdlib
  else if loader.resolvesModulePath modulePath then .shapeSource
  else .notFound

/-! ## The builder -/

structure GraphBuilder where
  nodes : List ModuleNode
  pathToId : HashMap String ModuleId
  visiting : Finset String
  visited : Finset String
  stdlibBootstrapModules : Finset ModuleId

namespace GraphBuilder

def new : GraphBuilder := ⟨[], ∅, ∅, ∅, ∅⟩

def getOrCreateNode (builder : GraphBuilder) (canonicalPath : String) : ModuleId × GraphBuilder :=
  match builder.pathToId.lookup canonicalPath with
  | some id => (id, builder)
  | none =>
      let id := builder.nodes.length
      (id, { builder with
        nodes := builder.nodes ++ [⟨id, canonicalPath, .shapeSource, none, ∅, [], []⟩]
        pathToId := builder.pathToId.insert canonicalPath id })

def modifyNode (builder : GraphBuilder) (id : ModuleId) (f : ModuleNode → ModuleNode) : GraphBuilder :=
  { builder with nodes := builder.nodes.modify id f }

/-- `none` if the module is being visited already. -/
def beginVisit (builder : GraphBuilder) (canonicalPath : String) : Option GraphBuilder :=
  if canonicalPath ∈ builder.visiting then none
  else some { builder with visiting := insert canonicalPath builder.visiting }

def endVisit (builder : GraphBuilder) (canonicalPath : String) : GraphBuilder :=
  { builder with
    visiting := builder.visiting.erase canonicalPath
    visited := insert canonicalPath builder.visited }

def markBootstrap (builder : GraphBuilder) (id : ModuleId) (module : LoadedModule) : GraphBuilder :=
  if module.artifactOrigin = .embeddedStdlib then
    { builder with stdlibBootstrapModules := insert id builder.stdlibBootstrapModules }
  else builder

end GraphBuilder

/-! ## The walk -/

def rootPath : String := "__root__"

/-- The prelude paths that are not among the imports, behind them. -/
def addPreludePaths (deps preludeImports : List String) : List String :=
  preludeImports.foldl (fun deps path => if path ∈ deps then deps else deps ++ [path]) deps

/-- Prelude modules do not import the prelude. -/
def subDeps (preludeImports : List String) (modulePath : String) (ast : Program) : List String :=
  if modulePath ∈ preludeImports then extractImportPaths ast
  else addPreludePaths (extractImportPaths ast) preludeImports

section

variable {σ : Type} (loader : ModuleLoader σ) (extensions : List ModuleExports)
  (preludeImports : List String)

/-- Step 1 for one extension: a node, and its overlay if the loader has one. -/
def registerExtension (state : GraphBuilder × σ) (ext : ModuleExports) : GraphBuilder × σ :=
  let (id, builder) := state.1.getOrCreateNode ext.name
  let builder := builder.modifyNode id fun node =>
    { node with sourceKind := .nativeModule, interface := buildNativeInterface ext }
  let builder := { builder with visited := insert ext.name builder.visited }
  match loader.loadModule state.2 ext.name with
  | (.error _, s) => (builder, s)
  | (.ok module, s) =>
      let builder := (builder.markBootstrap id module).modifyNode id fun node =>
        { node with
          sourceKind := .hybrid
          ast := some module.ast
          interface := mergeInterfaces node.interface (buildShapeInterface module.ast) }
      ({ builder with visited := builder.visited.erase ext.name }, s)

/-- A module that is an extension although no node has been registered for it. -/
def addNativeNode (builder : GraphBuilder) (depPath : String) : GraphBuilder :=
  if (builder.pathToId.lookup depPath).isSome then builder
  else
    let (id, builder) := builder.getOrCreateNode depPath
    let builder := builder.modifyNode id fun node =>
      { node with
        sourceKind := .nativeModule
        interface := match extensions.find? (·.name = depPath) with
          | some ext => buildNativeInterface ext
          | none => node.interface }
    { builder with visited := insert depPath builder.visited }

/-- The node of a module whose source has been loaded. -/
def addSourceNode (builder : GraphBuilder) (depPath : String) (module : LoadedModule) : GraphBuilder :=
  let (id, builder) := builder.getOrCreateNode depPath
  (builder.markBootstrap id module).modifyNode id fun node =>
    match extensions.find? (·.name = depPath) with
    | some ext =>
        { node with
          sourceKind := .hybrid
          interface := mergeInterfaces (buildNativeInterface ext) (buildShapeInterface module.ast)
          ast := some module.ast }
    | none =>
        { node with
          sourceKind := .shapeSource
          interface := buildShapeInterface module.ast
          ast := some module.ast }

/-- One import of the module that is being visited. -/
def visitDep
    (visitModule : String → List String → GraphBuilder × σ → Except (Option GraphBuildError)
      (GraphBuilder × σ))
    (state : GraphBuilder × σ) (depPath : String) :
    Except (Option GraphBuildError) (GraphBuilder × σ) :=
  if depPath ∈ state.1.visited then .ok state
  else
    match resolveModuleSourceKind loader depPath with
    | .nativeExtension => .ok (addNativeNode extensions state.1 depPath, state.2)
    | .shapeSource | .embeddedStdlib =>
        match loader.loadModule state.2 depPath with
        | (.error e, _) => .error (some (.other s!"Failed to load module '{depPath}': {e}"))
        | (.ok module, s) =>
            visitModule depPath (subDeps preludeImports depPath module.ast)
              (addSourceNode extensions state.1 depPath module, s)
    | .compiledBundle => .error (some (.compiledBytecodeNotSupported depPath))
    -- left to the compiler to report
    | .notFound => .ok state

/-- The error is `none` when the fuel is used up. -/
def visitModule : Nat → String → List String → GraphBuilder × σ → Except (Option GraphBuildError)
    (GraphBuilder × σ)
  | 0, _, _, _ => .error none
  | fuel + 1, currentPath, depPaths, state =>
      match state.1.beginVisit currentPath with
      | none => .error (some (.cyclicDependency state.1.visiting currentPath))
      | some builder => do
          let (builder, s) ← depPaths.foldlM (visitDep loader extensions preludeImports (visitModule fuel))
            (builder, state.2)
          .ok (builder.endVisit currentPath, s)

end

/-! ## Resolved imports -/

/-- The kind of an export, by default a function. -/
def GraphBuilder.exportKind (builder : GraphBuilder) (depId : ModuleId) (name : String) :
    ModuleExportKind :=
  match builder.nodes[depId]? with
  | none => .function
  | some node => ((node.interface.lookup name).map ExportedSymbol.kind).getD .function

def resolveImport (builder : GraphBuilder) (stmt : ImportStmt) : Option ResolvedImport :=
  match builder.pathToId.lookup stmt.source with
  | none => none
  | some depId =>
      match stmt.items with
      | .wholeModule name aliasName => some (.wholeModule (aliasName.getD name) stmt.source depId)
      | .named specs => some (.named stmt.source depId (specs.map fun spec =>
          { originalName := spec.name
            localName := spec.aliasName.getD spec.name
            isAnnotation := ImportSpec.isAnnotation spec
            kind := builder.exportKind depId spec.name }))

def resolveImportsForNode (ast : Program) (builder : GraphBuilder) : List ResolvedImport :=
  ast.imports.filterMap (resolveImport builder)

/-- Step 4 for one node. -/
def resolveNode (builder : GraphBuilder) (node : ModuleNode) : ModuleNode :=
  match node.ast with
  | none => node
  | some ast =>
      let resolved := resolveImportsForNode ast builder
      { node with resolvedImports := resolved, dependencies := resolved.map ResolvedImport.moduleId }

/-! ## The prelude -/

structure PreludeNamedSymbol where
  name : String
  isAnnotation : Bool

structure PreludeImport where
  canonicalPath : String
  namedSymbols : List PreludeNamedSymbol
  isNamespace : Bool

def preludeImportOf (stmt : ImportStmt) : PreludeImport :=
  match stmt.items with
  | .named specs =>
      ⟨stmt.source, specs.map fun spec => ⟨spec.name, ImportSpec.isAnnotation spec⟩, false⟩
  | .wholeModule _ _ => ⟨stmt.source, [], true⟩

/-- The first import of each path in the prelude. -/
def preludeImportsOf (ast : Program) : List PreludeImport :=
  ast.imports.foldl (fun imports stmt =>
    if imports.any (·.canonicalPath = stmt.source) then imports else imports ++ [preludeImportOf stmt]) []

/-- A prelude that does not load is only warned about. -/
def collectPreludeImports {σ : Type} (loader : ModuleLoader σ) (s : σ) : List PreludeImport × σ :=
  match loader.loadModule s "std::core::prelude" with
  | (.error _, s) => ([], s)
  | (.ok prelude, s) => (preludeImportsOf prelude.ast, s)

def collectPreludeImportPaths {σ : Type} (loader : ModuleLoader σ) (s : σ) : List String × σ :=
  let (imports, s) := collectPreludeImports loader s
  (imports.map PreludeImport.canonicalPath, s)

/-- `str::starts_with`. -/
def startsWith (lead text : String) : Bool := lead.toList.isPrefixOf text.toList

/-- Is the prelude added to the module in step 5? -/
def takesPrelude (preludeImports : List String) (modulePath : String) : Bool :=
  !(startsWith "std::core::prelude" modulePath || decide (modulePath ∈ preludeImports))

/-- The last part of `split("::")`. -/
def lastSegment (segment : List Char) : List Char → List Char
  | ':' :: ':' :: rest => lastSegment [] rest
  | c :: rest => lastSegment (segment ++ [c]) rest
  | [] => segment

def ResolvedImport.isWholeModule (path : String) : ResolvedImport → Bool
  | .wholeModule _ canonicalPath _ => canonicalPath = path
  | .named _ _ _ => false

/-- The local names that a named import of the path binds. -/
def ResolvedImport.namesFrom (path : String) : ResolvedImport → List String
  | .wholeModule _ _ _ => []
  | .named canonicalPath _ symbols =>
      if canonicalPath = path then symbols.map NamedImportSymbol.localName else []

/-- The symbols added to the first named import of the path, if there is one. -/
def mergeSymbols (path : String) (symbols : List NamedImportSymbol) :
    List ResolvedImport → Option (List ResolvedImport)
  | [] => none
  | .named canonicalPath id existing :: rest =>
      if canonicalPath = path then some (.named canonicalPath id (existing ++ symbols) :: rest)
      else (mergeSymbols path symbols rest).map (.named canonicalPath id existing :: ·)
  | .wholeModule localName canonicalPath id :: rest =>
      (mergeSymbols path symbols rest).map (.wholeModule localName canonicalPath id :: ·)

def ModuleNode.addDependency (node : ModuleNode) (depId : ModuleId) : ModuleNode :=
  if depId ∈ node.dependencies then node else { node with dependencies := node.dependencies ++ [depId] }

def preludeSymbols (builder : GraphBuilder) (depId : ModuleId) (existingNames : List String)
    (symbols : List PreludeNamedSymbol) : List NamedImportSymbol :=
  (symbols.filter (·.name ∉ existingNames)).map fun symbol =>
    { originalName := symbol.name
      localName := symbol.name
      isAnnotation := PreludeNamedSymbol.isAnnotation symbol
      kind := builder.exportKind depId symbol.name }

/-- One import of the prelude, added to a node. -/
def addPreludeImport (builder : GraphBuilder) (node : ModuleNode) (preludeImport : PreludeImport) :
    ModuleNode :=
  let path := preludeImport.canonicalPath
  match builder.pathToId.lookup path with
  | none => node
  | some depId =>
      if preludeImport.isNamespace || preludeImport.namedSymbols.isEmpty then
        if node.resolvedImports.any (ResolvedImport.isWholeModule path) then node
        else
          let localName := String.ofList (lastSegment [] path.toList)
          ModuleNode.addDependency
            { node with
              resolvedImports := node.resolvedImports ++ [.wholeModule localName path depId] } depId
      else
        let existingNames := node.resolvedImports.flatMap (ResolvedImport.namesFrom path)
        let symbols := preludeSymbols builder depId existingNames preludeImport.namedSymbols
        let resolvedImports :=
          if symbols.isEmpty then node.resolvedImports
          else (mergeSymbols path symbols node.resolvedImports).getD
            (node.resolvedImports ++ [.named path depId symbols])
        ModuleNode.addDependency { node with resolvedImports := resolvedImports } depId

/-- Step 5 for one node. -/
def addPrelude (builder : GraphBuilder) (preludeImports : List String)
    (structuredPrelude : List PreludeImport) (node : ModuleNode) : ModuleNode :=
  if takesPrelude preludeImports node.canonicalPath then
    structuredPrelude.foldl (addPreludeImport builder) node
  else node

/-! ## The order -/

structure TopoState where
  visited : Finset ModuleId
  order : List ModuleId

/-- The result is `none` when the fuel is used up or a dependency is no node. -/
def topoDfs (nodes : List ModuleNode) (rootId : ModuleId) : Nat → TopoState → ModuleId → Option TopoState
  | 0, s, current => if current ∈ s.visited then some s else none
  | fuel + 1, s, current =>
      if current ∈ s.visited then some s
      else
        match nodes[current]? with
        | none => none
        | some node => do
            let s ← node.dependencies.foldlM (topoDfs nodes rootId fuel)
                { s with visited := insert current s.visited }
            -- the root is compiled separately
            some (if current = rootId then s else { s with order := s.order ++ [current] })

def computeTopoOrder (nodes : List ModuleNode) (rootId : ModuleId) : Option (List ModuleId) :=
  (nodes.foldlM (fun s node => topoDfs nodes rootId nodes.length s node.id) ⟨∅, []⟩).map TopoState.order

/-! ## The graph -/

section

variable {σ : Type} (loader : ModuleLoader σ) (rootProgram : Program) (extensions : List ModuleExports)
  (preludeImports : List String)

/-- Step 2. The node has the position `rootId`. -/
def addRoot (builder : GraphBuilder) : ModuleId × GraphBuilder :=
  let (rootId, builder) := builder.getOrCreateNode rootPath
  (rootId, builder.modifyNode rootId fun node =>
    { node with
      sourceKind := .shapeSource
      ast := some rootProgram
      interface := buildShapeInterface rootProgram })

def buildModuleGraphWithPreludeStructure (structuredPrelude : List PreludeImport) (fuel : Nat) (s : σ) :
    Except (Option GraphBuildError) ModuleGraph := do
  let (builder, s) := extensions.foldl (registerExtension loader) (.new, s)
  let (rootId, builder) := addRoot rootProgram builder
  let rootDeps := addPreludePaths (extractImportPaths rootProgram) preludeImports
  let (builder, _) ← visitModule loader extensions preludeImports fuel rootPath rootDeps (builder, s)
  let nodes := (builder.nodes.map (resolveNode builder)).map
      (addPrelude builder preludeImports structuredPrelude)
  match computeTopoOrder nodes rootId with
  | none => .error none
  | some topoOrder => .ok ⟨nodes, builder.pathToId, topoOrder, rootId, builder.stdlibBootstrapModules⟩

def buildModuleGraph (fuel : Nat) (s : σ) : Except (Option GraphBuildError) ModuleGraph :=
  let (structured, s) := collectPreludeImports loader s
  buildModuleGraphWithPreludeStructure loader rootProgram extensions preludeImports structured fuel s

end

end ShapeLang.Graph
