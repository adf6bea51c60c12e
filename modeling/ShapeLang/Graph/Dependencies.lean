import ShapeLang.Graph.Walk

/-!
# The dependencies of the nodes

The modules that a build is about, read off its inputs (`worldOf`), and the dependencies that its
nodes end with: the imports of their programs and, for all but the prelude modules, the prelude.
Neither asks what the walk has followed.
-/

namespace ShapeLang.Graph

open ShapeLang.Lib
open Relation Postorder

/-! ## The extensions -/

/-- Which extensions the loader has a source for: those without one, as of their last mention, and
those with one. -/
structure Probed where
  native : Finset String
  overlaid : Finset String

def probe {σ : Type} (loader : ModuleLoader σ) (acc : Probed × σ) (name : String) : Probed × σ :=
  match loader.loadModule acc.2 name with
  | (.error _, s) => ({ acc.1 with native := insert name acc.1.native }, s)
  | (.ok _, s) => (⟨acc.1.native.erase name, insert name acc.1.overlaid⟩, s)

/-- The modules of a build. `source` is the program that each path loads to. -/
def worldOf {σ : Type} (loader : ModuleLoader σ) (source : String → Program) (rootProgram : Program)
    (extensions : List ModuleExports) (preludeImports : List String) (s : σ) : World :=
  let (structured, s) := collectPreludeImports loader s
  let (probed, _) := (extensions.map ModuleExports.name).foldl (probe loader) (⟨∅, ∅⟩, s)
  { hint := resolveModuleSourceKind loader
    program := fun p => if p = rootPath then rootProgram else source p
    preludeImports := preludeImports
    structuredPaths := structured.map PreludeImport.canonicalPath
    extensionNames := extensions.map ModuleExports.name
    native := probed.native
    overlaid := probed.overlaid }

/-- Every load of a path that succeeds gives the same program. -/
def Serves {σ : Type} (loader : ModuleLoader σ) (source : String → Program) : Prop :=
  ∀ s p m s', loader.loadModule s p = (.ok m, s') → m.ast = source p

section

variable {σ : Type} {loader : ModuleLoader σ} {source : String → Program}

/-- The builder after some extensions. -/
structure Probing (source : String → Program) (names : List String) (probed : Probed)
    (b : GraphBuilder) : Prop where
  indexed : Indexed b
  visiting : b.visiting = ∅
  visited : b.visited = probed.native
  native_mem : ∀ p ∈ probed.native, p ∈ names
  registered_iff : ∀ p, (b.entry p).isSome ↔ p ∈ names
  ast_eq : ∀ p ast, b.entry p = some (some ast) → ast = source p ∧ p ∈ probed.overlaid
  has_ast : ∀ p ∈ probed.overlaid, ∃ ast, b.entry p = some (some ast)

theorem Probing.new : Probing source [] ⟨∅, ∅⟩ .new where
  indexed := ⟨fun p i =>
    by simp [GraphBuilder.new, AList.lookup_empty], fun i n hn => by simp [GraphBuilder.new] at hn,
    fun i n hn => by simp [GraphBuilder.new] at hn⟩
  visiting := rfl
  visited := rfl
  native_mem := nofun
  registered_iff p := by simp [GraphBuilder.entry, GraphBuilder.new]
  ast_eq p ast hp := by simp [GraphBuilder.entry, GraphBuilder.new] at hp
  has_ast := nofun

variable {b : GraphBuilder}

theorem Updated.withVisited {b' : GraphBuilder} {p : String} {i : ModuleId} {value : Option Program}
    (h : Updated b b' p i value) (visited : Finset String) :
    Updated { b with visited := visited } { b' with visited := visited } p i value :=
  ⟨h.indexed.of_nodes rfl rfl, h.lookup, h.keeps, h.entry, h.visiting, rfl⟩

theorem registerExtension_cases (loader : ModuleLoader σ) (h : Indexed b) (ext : ModuleExports) (s : σ) :
    (∃ e s', loader.loadModule s ext.name = (.error e, s') ∧ (registerExtension loader (b, s) ext).2 = s' ∧
      ∃ i, Updated { b with visited := insert ext.name b.visited }
        (registerExtension loader (b, s) ext).1 ext.name i
        (b.entry ext.name).join) ∨
    (∃ m s', loader.loadModule s ext.name = (.ok m, s') ∧ (registerExtension loader (b, s) ext).2 = s' ∧
      ∃ i, Updated { b with visited := b.visited.erase ext.name }
        (registerExtension loader (b, s) ext).1 ext.name i
        (some m.ast)) := by
  -- the node of the extension, with its native interface
  have hnative := (getOrCreateNode_updated h ext.name).modifyNode
    (f := fun node => { node with sourceKind := .nativeModule, interface := buildNativeInterface ext })
    ⟨fun _ => rfl, fun _ => rfl, fun _ => rfl, fun _ => rfl⟩ fun _ hn => hn
  cases hload : loader.loadModule s ext.name with
  | mk result s' =>
    cases result with
    -- no source file: the node is marked as visited, and the walk will not load it
    | error e =>
      refine Or.inl ⟨e, s', rfl, ?_, (b.getOrCreateNode ext.name).1, ?_⟩
      · simp only [registerExtension, hload]
      · simp only [registerExtension, hload, hnative.visited]
        exact hnative.withVisited _
    -- a source file of the same name is laid over it, and the walk is to follow its imports
    | ok m =>
      refine Or.inr ⟨m, s', rfl, ?_, (b.getOrCreateNode ext.name).1, ?_⟩
      · simp only [registerExtension, hload]
      · have hhybrid := ((hnative.withVisited (insert ext.name b.visited)).markBootstrap m).modifyNode
          (f := fun node => { node with
            sourceKind := .hybrid
            ast := some m.ast
            interface := mergeInterfaces node.interface (buildShapeInterface m.ast) })
          ⟨fun _ => rfl, fun _ => rfl, fun _ => rfl, fun _ => rfl⟩ fun _ _ => rfl
        have herase := hhybrid.withVisited (b.visited.erase ext.name)
        simp only [registerExtension, hload, hnative.visited, hhybrid.visited, Finset.erase_insert_eq_erase]
        exact herase

variable {names : List String} {probed : Probed}

/-- One extension: the node is there, and what it holds is what the loader had. -/
theorem Probing.register (hserves : Serves loader source) (h : Probing source names probed b)
    (ext : ModuleExports) (s : σ) :
    Probing source (names ++ [ext.name]) (probe loader (probed, s) ext.name).1
      (registerExtension loader (b, s) ext).1 ∧
      (registerExtension loader (b, s) ext).2 = (probe loader (probed, s) ext.name).2 := by
  -- in both cases the node of the name is there, and the others are as they were
  have hregistered : ∀ {visited b' i value}, Updated { b with visited := visited } b' ext.name i value →
      ∀ p, (b'.entry p).isSome ↔ p ∈ names ++ [ext.name] := by
    intro visited b' i value hupdated p
    rw [hupdated.entry, List.mem_append, List.mem_singleton]
    split
    · next heq => simp [heq]
    · next hne =>
      rw [or_iff_left hne]
      exact h.registered_iff p
  have hmem : ∀ p, p ∈ names → p ∈ names ++ [ext.name] := fun p hp => List.mem_append_left _ hp
  rcases registerExtension_cases loader h.indexed ext s with
    ⟨e, s', hload, hstate, i, hupdated⟩ | ⟨m, s', hload, hstate, i, hupdated⟩
  · have hprobe : probe loader (probed, s) ext.name =
        ({ probed with native := insert ext.name probed.native }, s') := by
      simp only [probe, hload]
    rw [hprobe, hstate]
    refine ⟨⟨hupdated.indexed, hupdated.visiting.trans h.visiting, ?_, fun p hp => ?_, hregistered hupdated,
      fun p ast hp => ?_, fun p hp => ?_⟩, rfl⟩
    · rw [hupdated.visited]
      exact congrArg (insert ext.name) h.visited
    · rcases Finset.mem_insert.mp hp with rfl | hp
      · exact List.mem_append_right _ (List.mem_singleton_self _)
      · exact hmem p (h.native_mem p hp)
    · rw [hupdated.entry] at hp
      split at hp
      · next heq =>
        subst heq
        exact h.ast_eq ext.name ast (Option.join_eq_some_iff.mp (Option.some.inj hp))
      · exact h.ast_eq p ast hp
    · obtain ⟨ast, hast⟩ := h.has_ast p hp
      refine ⟨ast, ?_⟩
      rw [hupdated.entry]
      split
      · next heq =>
        rw [← heq, hast]
        rfl
      · exact hast
  · have hprobe : probe loader (probed, s) ext.name =
        (⟨probed.native.erase ext.name, insert ext.name probed.overlaid⟩, s') := by
      simp only [probe, hload]
    rw [hprobe, hstate]
    refine ⟨⟨hupdated.indexed, hupdated.visiting.trans h.visiting, ?_, fun p hp => ?_, hregistered hupdated,
      fun p ast hp => ?_, fun p hp => ?_⟩, rfl⟩
    · rw [hupdated.visited]
      exact congrArg (·.erase ext.name) h.visited
    · exact hmem p (h.native_mem p (Finset.mem_of_mem_erase hp))
    · rw [hupdated.entry] at hp
      split at hp
      · next heq =>
        subst heq
        obtain rfl := Option.some.inj (Option.some.inj hp)
        exact ⟨hserves s ext.name m s' hload, Finset.mem_insert_self _ _⟩
      · obtain ⟨hast, hover⟩ := h.ast_eq p ast hp
        exact ⟨hast, Finset.mem_insert_of_mem hover⟩
    · rw [hupdated.entry]
      split
      · exact ⟨m.ast, rfl⟩
      · next hne => exact h.has_ast p ((Finset.mem_insert.mp hp).resolve_left hne)

theorem Probing.registerAll (hserves : Serves loader source) (extensions : List ModuleExports)
    (h : Probing source names probed b) (s : σ) :
    Probing source (names ++ extensions.map ModuleExports.name)
      ((extensions.map ModuleExports.name).foldl (probe loader) (probed, s)).1
      (extensions.foldl (registerExtension loader) (b, s)).1 := by
  induction extensions generalizing names probed b s with
  | nil =>
    rw [List.map_nil, List.append_nil]
    exact h
  | cons ext extensions ih =>
    obtain ⟨hnext, hstate⟩ := h.register hserves ext s
    have hrest := ih hnext (registerExtension loader (b, s) ext).2
    rw [List.append_assoc, List.singleton_append] at hrest
    have hprobe : probe loader (probed, s) ext.name =
        ((probe loader (probed, s) ext.name).1, (registerExtension loader (b, s) ext).2) := by
      rw [hstate]
    rw [List.map_cons, List.foldl_cons, List.foldl_cons, hprobe]
    exact hrest

/-- The extensions and the root, before the walk. -/
theorem prepared (hserves : Serves loader source) (rootProgram : Program) (extensions : List ModuleExports)
    (preludeImports : List String) (s : σ) :
    Prepared (worldOf loader source rootProgram extensions preludeImports s)
      (addRoot rootProgram
        (extensions.foldl (registerExtension loader) (.new, (collectPreludeImports loader s).2)).1).2 := by
  have hprobing := Probing.registerAll hserves extensions Probing.new (collectPreludeImports loader s).2
  rw [List.nil_append] at hprobing
  have hupdated := addRoot_updated hprobing.indexed rootProgram
  -- adding the root changes the entry of the root and nothing else
  refine ⟨hupdated.indexed, hupdated.visiting.trans hprobing.visiting,
    hupdated.visited.trans hprobing.visited, hprobing.native_mem, fun p => ?_, fun p ast hp => ?_,
    fun p hp => ?_⟩
  · rw [hupdated.entry]
    split
    · next heq => simp [heq]
    · next hne =>
      rw [or_iff_left hne]
      exact hprobing.registered_iff p
  · rw [hupdated.entry] at hp
    split at hp
    · next heq =>
      obtain rfl := Option.some.inj (Option.some.inj hp)
      exact ⟨(if_pos heq).symm, Or.inr heq⟩
    · next hne =>
      obtain ⟨hast, hover⟩ := hprobing.ast_eq p ast hp
      exact ⟨hast.trans (if_neg hne).symm, Or.inl hover⟩
  · rw [hupdated.entry]
    split
    · exact ⟨rootProgram, rfl⟩
    · next hne => exact hprobing.has_ast p (hp.resolve_right hne)

theorem worldOf_behind (hserves : Serves loader source) (rootProgram : Program)
    (extensions : List ModuleExports) (preludeImports : List String) (s : σ) :
    (worldOf loader source rootProgram extensions preludeImports s).Behind loader where
  hint _ := rfl
  program s p m s' hroot hload := (hserves s p m s' hload).trans (if_neg hroot).symm

end

/-! ## The dependencies -/

theorem mem_addPreludePaths {deps preludeImports : List String} {p : String} :
    p ∈ addPreludePaths deps preludeImports ↔ p ∈ deps ∨ p ∈ preludeImports := by
  unfold addPreludePaths
  induction preludeImports generalizing deps with
  | nil => simp
  | cons path rest ih =>
    rw [List.foldl_cons, ih, List.mem_cons]
    split
    · next hmem =>
      constructor
      · rintro (h | h)
        · exact Or.inl h
        · exact Or.inr (Or.inr h)
      · rintro (h | rfl | h)
        · exact Or.inl h
        · exact Or.inl hmem
        · exact Or.inr h
    · rw [List.mem_append, List.mem_singleton, or_assoc]

theorem resolveImport_moduleId (b : GraphBuilder) (stmt : ImportStmt) :
    (resolveImport b stmt).map ResolvedImport.moduleId = b.pathToId.lookup stmt.source := by
  unfold resolveImport
  cases b.pathToId.lookup stmt.source with
  | none => rfl
  | some id => cases stmt.items <;> rfl

variable {b : GraphBuilder}

/-- Step 4: the imports that have a node. -/
theorem mem_resolved_dependencies {ast : Program} {d : ModuleId} :
    d ∈ (resolveImportsForNode ast b).map ResolvedImport.moduleId ↔
      ∃ q ∈ extractImportPaths ast, b.pathToId.lookup q = some d := by
  unfold resolveImportsForNode extractImportPaths
  rw [List.map_filterMap, List.mem_filterMap]
  constructor
  · rintro ⟨stmt, hstmt, hd⟩
    rw [resolveImport_moduleId] at hd
    exact ⟨stmt.source, List.mem_map_of_mem hstmt, hd⟩
  · rintro ⟨q, hq, hd⟩
    obtain ⟨stmt, hstmt, rfl⟩ := List.mem_map.mp hq
    exact ⟨stmt, hstmt, by rw [resolveImport_moduleId]; exact hd⟩

/-- The whole-module imports of a node are among its dependencies. -/
def Linked (b : GraphBuilder) (n : ModuleNode) : Prop :=
  ∀ localName path id, ResolvedImport.wholeModule localName path id ∈ n.resolvedImports →
    b.pathToId.lookup path = some id ∧ id ∈ n.dependencies

variable {n : ModuleNode}

theorem mem_addDependency {depId d : ModuleId} :
    d ∈ (n.addDependency depId).dependencies ↔ d ∈ n.dependencies ∨ d = depId := by
  unfold ModuleNode.addDependency
  split
  · next hmem =>
    constructor
    · exact Or.inl
    · rintro (h | rfl)
      · exact h
      · exact hmem
  · show d ∈ n.dependencies ++ [depId] ↔ _
    rw [List.mem_append, List.mem_singleton]

theorem addDependency_resolvedImports (n : ModuleNode) (depId : ModuleId) :
    (n.addDependency depId).resolvedImports = n.resolvedImports := by
  unfold ModuleNode.addDependency
  split <;> rfl

theorem addDependency_id (n : ModuleNode) (depId : ModuleId) : (n.addDependency depId).id = n.id := by
  unfold ModuleNode.addDependency
  split <;> rfl

/-- Merging symbols into a named import leaves the whole-module imports. -/
theorem wholeModule_of_mergeSymbols {path : String} {symbols : List NamedImportSymbol}
    {l l' : List ResolvedImport} (h : mergeSymbols path symbols l = some l') {localName p : String}
    {id : ModuleId} (hmem : ResolvedImport.wholeModule localName p id ∈ l') :
    ResolvedImport.wholeModule localName p id ∈ l := by
  induction l generalizing l' with
  | nil => cases h
  | cons ri l ih =>
    cases ri with
    -- a named import of the path takes the symbols, and the list behind it stays
    | named canonicalPath i existing =>
      rw [mergeSymbols] at h
      split at h
      · obtain rfl := Option.some.inj h
        rcases List.mem_cons.mp hmem with heq | hmem
        · cases heq
        · exact List.mem_cons_of_mem _ hmem
      · obtain ⟨rest, hrest, rfl⟩ := Option.map_eq_some_iff.mp h
        rcases List.mem_cons.mp hmem with heq | hmem
        · cases heq
        · exact List.mem_cons_of_mem _ (ih hrest hmem)
    | wholeModule localName' canonicalPath i =>
      rw [mergeSymbols] at h
      obtain ⟨rest, hrest, rfl⟩ := Option.map_eq_some_iff.mp h
      rcases List.mem_cons.mp hmem with heq | hmem
      · rw [heq]
        exact List.mem_cons_self
      · exact List.mem_cons_of_mem _ (ih hrest hmem)

/-- One import of the prelude: its node becomes a dependency, if it has one. -/
theorem addPreludeImport_spec (h : Linked b n) (pi : PreludeImport) :
    Linked b (addPreludeImport b n pi) ∧
      ∀ d, d ∈ (addPreludeImport b n pi).dependencies ↔
        d ∈ n.dependencies ∨ b.pathToId.lookup pi.canonicalPath = some d := by
  unfold addPreludeImport
  dsimp only
  cases hlookup : b.pathToId.lookup pi.canonicalPath with
  | none => exact ⟨h, fun d => by simp⟩
  | some depId =>
    have hdeps : ∀ (imports : List ResolvedImport) d,
        d ∈ (ModuleNode.addDependency { n with resolvedImports := imports } depId).dependencies ↔
          d ∈ n.dependencies ∨ some depId = some d := by
      intro imports d
      rw [mem_addDependency, Option.some.injEq, eq_comm (a := d)]
    dsimp only
    -- a whole-module import of the path is made once; named symbols are merged into one import
    split
    · split
      -- it is there already, so its node is a dependency already
      · next hany =>
        obtain ⟨ri, hri, hwhole⟩ := List.any_eq_true.mp hany
        refine ⟨h, fun d => ⟨Or.inl, ?_⟩⟩
        rintro (hd | hd)
        · exact hd
        · cases ri with
          | named => cases hwhole
          | wholeModule localName path id =>
            obtain ⟨hid, hmem⟩ := h localName path id hri
            obtain rfl : path = pi.canonicalPath := of_decide_eq_true hwhole
            rw [hlookup] at hid
            rw [← Option.some.inj hd, Option.some.inj hid]
            exact hmem
      · refine ⟨fun localName path id hmem => ?_, hdeps _⟩
        rw [addDependency_resolvedImports] at hmem
        rw [mem_addDependency]
        rcases List.mem_append.mp hmem with hmem | hmem
        · exact ⟨(h localName path id hmem).1, Or.inl (h localName path id hmem).2⟩
        · obtain ⟨-, rfl, rfl⟩ := ResolvedImport.wholeModule.inj (List.mem_singleton.mp hmem)
          exact ⟨hlookup, Or.inr rfl⟩
    · refine ⟨fun localName path id hmem => ?_, hdeps _⟩
      rw [addDependency_resolvedImports] at hmem
      have hold : ResolvedImport.wholeModule localName path id ∈ n.resolvedImports := by
        dsimp only at hmem
        split at hmem
        · exact hmem
        · cases hmerge : mergeSymbols pi.canonicalPath _ n.resolvedImports with
          | none =>
            rw [hmerge] at hmem
            rcases List.mem_append.mp hmem with hmem | hmem
            · exact hmem
            · cases List.mem_singleton.mp hmem
          | some merged =>
            rw [hmerge] at hmem
            exact wholeModule_of_mergeSymbols hmerge hmem
      rw [mem_addDependency]
      exact ⟨(h localName path id hold).1, Or.inl (h localName path id hold).2⟩

theorem addPreludeImport_id (b : GraphBuilder) (n : ModuleNode) (pi : PreludeImport) :
    (addPreludeImport b n pi).id = n.id := by
  unfold addPreludeImport
  dsimp only
  split
  · rfl
  · split
    · split
      · rfl
      · rw [addDependency_id]
    · rw [addDependency_id]

variable (structured : List PreludeImport)

theorem foldl_addPreludeImport (h : Linked b n) (d : ModuleId) :
    d ∈ (structured.foldl (addPreludeImport b) n).dependencies ↔
      d ∈ n.dependencies ∨ ∃ q ∈ structured.map PreludeImport.canonicalPath, b.pathToId.lookup q =
        some d := by
  induction structured generalizing n with
  | nil => simp
  | cons pi structured ih =>
    obtain ⟨hlinked, hdeps⟩ := addPreludeImport_spec h pi
    rw [List.foldl_cons, ih hlinked, hdeps, List.map_cons, List.exists_mem_cons_iff, or_assoc]

/-- What steps 4 and 5 make of a node. -/
def finishNode (b : GraphBuilder) (preludeImports : List String) (structured : List PreludeImport)
    (n : ModuleNode) :
    ModuleNode :=
  addPrelude b preludeImports structured (resolveNode b n)

theorem finishNode_id (b : GraphBuilder) (preludeImports : List String) (structured : List PreludeImport)
    (n : ModuleNode) : (finishNode b preludeImports structured n).id = n.id := by
  have hresolve : (resolveNode b n).id = n.id := by
    unfold resolveNode
    split <;> rfl
  have hfold : ∀ (imports : List PreludeImport) (m : ModuleNode),
      (imports.foldl (addPreludeImport b) m).id = m.id := by
    intro imports
    induction imports with
    | nil => exact fun _ => rfl
    | cons pi imports ih =>
      intro m
      rw [List.foldl_cons, ih, addPreludeImport_id]
  unfold finishNode addPrelude
  split
  · rw [hfold, hresolve]
  · exact hresolve

/-- **The dependencies of a node** are the imports of its program and the prelude, as far as they
have nodes. -/
theorem mem_finishNode_dependencies (hbare : n.Bare) (preludeImports : List String)
    (structured : List PreludeImport) (d : ModuleId) :
    d ∈ (finishNode b preludeImports structured n).dependencies ↔
      ∃ q, b.pathToId.lookup q = some d ∧ ((∃ ast, n.ast = some ast ∧ q ∈ extractImportPaths ast) ∨
        (takesPrelude preludeImports n.canonicalPath = true ∧
          q ∈ structured.map PreludeImport.canonicalPath)) := by
  -- the imports that were written, as far as they name a node
  have hresolved : ∀ d, d ∈ (resolveNode b n).dependencies ↔
      ∃ q, b.pathToId.lookup q = some d ∧ ∃ ast, n.ast = some ast ∧ q ∈ extractImportPaths ast := by
    intro d
    unfold resolveNode
    cases hast : n.ast with
    | none => simp [hbare.dependencies]
    | some ast =>
      dsimp only
      rw [mem_resolved_dependencies]
      constructor
      · rintro ⟨q, hq, hd⟩
        exact ⟨q, hd, ast, rfl, hq⟩
      · rintro ⟨q, hd, ast', heq, hq⟩
        obtain rfl := Option.some.inj heq
        exact ⟨q, hq, hd⟩
  -- whole-module imports are recorded with the node they name, and it is a dependency
  have hlinked : Linked b (resolveNode b n) := by
    intro localName path id hmem
    unfold resolveNode at hmem ⊢
    cases hast : n.ast with
    | none =>
      rw [hast] at hmem
      rw [hbare.resolvedImports] at hmem
      cases hmem
    | some ast =>
      rw [hast] at hmem
      dsimp only at hmem ⊢
      refine ⟨?_, List.mem_map_of_mem hmem⟩
      obtain ⟨stmt, -, hstmt⟩ := List.mem_filterMap.mp hmem
      have hid := resolveImport_moduleId b stmt
      rw [hstmt] at hid
      unfold resolveImport at hstmt
      cases hlookup : b.pathToId.lookup stmt.source with
      | none =>
        rw [hlookup] at hstmt
        cases hstmt
      | some i =>
        rw [hlookup] at hstmt hid
        cases hitems : stmt.items with
        | named specs =>
          rw [hitems] at hstmt
          cases hstmt
        | wholeModule name aliasName =>
          rw [hitems] at hstmt
          obtain ⟨-, rfl, rfl⟩ := ResolvedImport.wholeModule.inj (Option.some.inj hstmt)
          exact hlookup
  have hpath : (resolveNode b n).canonicalPath = n.canonicalPath := by
    unfold resolveNode
    split <;> rfl
  unfold finishNode addPrelude
  rw [hpath]
  -- the prelude comes on top, except for the modules it is made of
  split
  · next htakes =>
    rw [foldl_addPreludeImport structured hlinked, hresolved]
    constructor
    · rintro (⟨q, hd, hq⟩ | ⟨q, hq, hd⟩)
      · exact ⟨q, hd, Or.inl hq⟩
      · exact ⟨q, hd, Or.inr ⟨htakes, hq⟩⟩
    · rintro ⟨q, hd, hq | ⟨-, hq⟩⟩
      · exact Or.inl ⟨q, hd, hq⟩
      · exact Or.inr ⟨q, hq, hd⟩
  · next htakes =>
    rw [hresolved]
    constructor
    · rintro ⟨q, hd, hq⟩
      exact ⟨q, hd, Or.inl hq⟩
    · rintro ⟨q, hd, hq | ⟨htrue, -⟩⟩
      · exact ⟨q, hd, hq⟩
      · exact absurd htrue htakes

/-! ## The dependencies by path -/

/-- The modules that the node of a module depends on. -/
def World.DependsOn (w : World) (p q : String) : Prop :=
  w.Registered p ∧ w.Registered q ∧
    ((w.HasAst p ∧ q ∈ w.imports p) ∨ (takesPrelude w.preludeImports p = true ∧ q ∈ w.structuredPaths))

/-- A dependency between two modules that are compiled in order. -/
def World.Inner (w : World) (p q : String) : Prop := p ≠ rootPath ∧ q ≠ rootPath ∧ w.DependsOn p q

theorem Complete.dependsOn_iff {w : World} (h : Complete w b) {structured : List PreludeImport}
    (hstructured : w.structuredPaths = structured.map PreludeImport.canonicalPath) {i j : ModuleId}
    {m : ModuleNode} (hn : b.nodes[i]? = some n) (hm : b.nodes[j]? = some m) :
    j ∈ (finishNode b w.preludeImports structured n).dependencies ↔
      w.DependsOn n.canonicalPath m.canonicalPath := by
  -- nodes and paths are in bijection
  have hentry : ∀ {i : ModuleId} {n}, b.nodes[i]? = some n → w.Registered n.canonicalPath := by
    intro i n hn
    rw [← h.registered_iff, h.indexed.entry_eq hn]
    rfl
  have hlookup : b.pathToId.lookup m.canonicalPath = some j := (h.indexed.lookup_iff _ j).mpr ⟨m, hm, rfl⟩
  have hpath : ∀ q, b.pathToId.lookup q = some j → q = m.canonicalPath := by
    intro q hq
    obtain ⟨m', hm', rfl⟩ := (h.indexed.lookup_iff q j).mp hq
    rw [hm] at hm'
    rw [Option.some.inj hm']
  -- the program of a node is the one that the loader serves under its path
  have hast : ∀ q, (∃ ast, n.ast = some ast ∧ q ∈ extractImportPaths ast) ↔
      w.HasAst n.canonicalPath ∧ q ∈ w.imports n.canonicalPath := by
    intro q
    constructor
    · rintro ⟨ast, hnast, hq⟩
      have hvalue := h.indexed.entry_eq hn
      rw [hnast] at hvalue
      obtain ⟨rfl, hhas⟩ := (h.ast_iff _ ast).mp hvalue
      exact ⟨hhas, hq⟩
    · rintro ⟨hhas, hq⟩
      have hvalue := (h.ast_iff _ _).mpr ⟨rfl, hhas⟩
      rw [h.indexed.entry_eq hn] at hvalue
      exact ⟨_, Option.some.inj hvalue, hq⟩
  rw [mem_finishNode_dependencies (h.indexed.bare i n hn), World.DependsOn, hstructured]
  constructor
  · rintro ⟨q, hq, hedge⟩
    obtain rfl := hpath q hq
    rw [hast] at hedge
    exact ⟨hentry hn, hentry hm, hedge⟩
  · rintro ⟨-, -, hedge⟩
    rw [← hast] at hedge
    exact ⟨_, hlookup, hedge⟩

end ShapeLang.Graph
