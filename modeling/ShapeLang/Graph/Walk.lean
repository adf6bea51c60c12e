import ShapeLang.Graph.Builder
import ShapeLang.Lib.Fallible
import ShapeLang.Lib.Postorder

/-!
# The walk over the imports

What `visit_module` reaches, and what it has shown when it ends. A `World` is what a build is given,
with the modules known by their import strings: the walk is a depth-first search over
`World.children`, in which a module that is entered while it is being visited is reported as a
cycle.

  * `visit_tracks` — a walk that ends without error has finished its module, and no followed imports
    of finished modules form a cycle;
  * `visit_cyclic` — a cyclic dependency that is reported is a cycle of followed imports among the
    modules being visited;
  * `Tracks` — the nodes there are in between, with the programs they hold.
-/

namespace ShapeLang.Graph

open ShapeLang.Lib
open Relation Postorder

/-! ## Modules by their import strings -/

/-- What a build is given, behind the loader. -/
structure World where
  hint : String → ModuleSourceKindHint
  /-- The program of a module that has one; that of the root under its own path. -/
  program : String → Program
  preludeImports : List String
  /-- The paths that the loaded prelude imports. -/
  structuredPaths : List String
  extensionNames : List String
  /-- The extensions without a source of their own. -/
  native : Finset String
  /-- The extensions for which the loader had a source. -/
  overlaid : Finset String

namespace World

variable (w : World)

def imports (p : String) : List String := extractImportPaths (w.program p)

/-- The paths that are followed from a module that is visited. -/
def walkDeps (p : String) : List String :=
  if p = rootPath then addPreludePaths (w.imports p) w.preludeImports
  else subDeps w.preludeImports p (w.program p)

/-- Is the module visited when a visited module imports it? -/
def walkable (p : String) : Bool :=
  (w.hint p = .shapeSource || w.hint p = .embeddedStdlib) && decide (p ∉ w.native)

def children (p : String) : List String :=
  if p = rootPath ∨ w.walkable p = true then (w.walkDeps p).filter w.walkable else []

/-- The modules that a walk from the root visits. -/
def Walked (p : String) : Prop := ReflTransGen (Edge w.children) rootPath p

/-- The modules that get a node. -/
def Registered (p : String) : Prop :=
  p ∈ w.extensionNames ∨ w.Walked p ∨ ∃ q, w.Walked q ∧ p ∈ w.walkDeps q ∧ w.hint p = .nativeExtension

/-- The modules whose node has a program. -/
def HasAst (p : String) : Prop := p ∈ w.overlaid ∨ w.Walked p

end World

variable {w : World}

variable {p : String}

theorem World.walkable_iff :
    w.walkable p = true ↔ (w.hint p = .shapeSource ∨ w.hint p = .embeddedStdlib) ∧ p ∉ w.native := by
  simp [World.walkable]

theorem World.mem_children {q : String} (hp : p = rootPath ∨ w.walkable p = true) :
    q ∈ w.children p ↔ q ∈ w.walkDeps p ∧ w.walkable q = true := by
  unfold World.children
  rw [if_pos hp, List.mem_filter]

theorem World.Walked.visits (h : w.Walked p) : p = rootPath ∨ w.walkable p = true := by
  rcases ReflTransGen.cases_tail h with heq | ⟨q, hq, hedge⟩
  · exact Or.inl heq
  · right
    have hmem : p ∈ w.children q := hedge
    unfold World.children at hmem
    split at hmem
    · exact (List.mem_filter.mp hmem).2
    · cases hmem

/-! ## The nodes of a builder -/

/-- The program in the node of a path, if there is a node. -/
def GraphBuilder.entry (b : GraphBuilder) (p : String) : Option (Option Program) :=
  match b.pathToId.lookup p with
  | none => none
  | some i => (b.nodes[i]?).map ModuleNode.ast

/-- No imports have been resolved for the node. -/
structure ModuleNode.Bare (n : ModuleNode) : Prop where
  resolvedImports : n.resolvedImports = []
  dependencies : n.dependencies = []

/-- Each node stands at its own position and is found under its path. -/
structure Indexed (b : GraphBuilder) : Prop where
  lookup_iff : ∀ p i, b.pathToId.lookup p = some i ↔ ∃ n, b.nodes[i]? = some n ∧ n.canonicalPath = p
  id_eq : ∀ (i : ModuleId) (n : ModuleNode), b.nodes[i]? = some n → n.id = i
  bare : ∀ (i : ModuleId) (n : ModuleNode), b.nodes[i]? = some n → n.Bare

/-- A change of a node that leaves its place alone and resolves nothing. -/
structure KeepsPlace (f : ModuleNode → ModuleNode) : Prop where
  id : ∀ n, (f n).id = n.id
  canonicalPath : ∀ n, (f n).canonicalPath = n.canonicalPath
  resolvedImports : ∀ n, (f n).resolvedImports = n.resolvedImports
  dependencies : ∀ n, (f n).dependencies = n.dependencies

variable {b : GraphBuilder} {i : ModuleId}

theorem Indexed.entry_eq (h : Indexed b) {n : ModuleNode} (hn : b.nodes[i]? = some n) :
    b.entry n.canonicalPath = some n.ast := by
  have hlookup := (h.lookup_iff n.canonicalPath i).mpr ⟨n, hn, rfl⟩
  unfold GraphBuilder.entry
  rw [hlookup]
  dsimp only
  rw [hn]
  rfl

theorem Indexed.isSome_iff (h : Indexed b) :
    (b.entry p).isSome ↔ (b.pathToId.lookup p).isSome := by
  unfold GraphBuilder.entry
  cases hlookup : b.pathToId.lookup p with
  | none => simp
  | some i =>
    obtain ⟨n, hn, -⟩ := (h.lookup_iff p i).mp hlookup
    simp [hn]

variable {f : ModuleNode → ModuleNode}

theorem Indexed.modifyNode (h : Indexed b) (hf : KeepsPlace f) (i : ModuleId) :
    Indexed (b.modifyNode i f) := by
  have hget : ∀ j, (b.modifyNode i f).nodes[j]? = (b.nodes[j]?).map fun n => if i = j then f n else n := by
    intro j
    show (b.nodes.modify i f)[j]? = _
    rw [List.getElem?_modify]
    by_cases hij : i = j
    · simp [hij]
    · simp [hij]
  -- a change that keeps the path, the id and the empty dependencies keeps the index
  refine ⟨fun p j => ?_, fun j n hn => ?_, fun j n hn => ?_⟩
  · show b.pathToId.lookup p = some j ↔ _
    rw [h.lookup_iff]
    constructor
    · rintro ⟨n, hn, rfl⟩
      refine ⟨_, by rw [hget, hn]; rfl, ?_⟩
      split
      · exact hf.canonicalPath n
      · rfl
    · rintro ⟨n', hn', rfl⟩
      rw [hget] at hn'
      obtain ⟨n, hn, rfl⟩ := Option.map_eq_some_iff.mp hn'
      refine ⟨n, hn, ?_⟩
      split
      · exact (hf.canonicalPath n).symm
      · rfl
  · rw [hget] at hn
    obtain ⟨n₀, hn₀, rfl⟩ := Option.map_eq_some_iff.mp hn
    split
    · exact (hf.id n₀).trans (h.id_eq j n₀ hn₀)
    · exact h.id_eq j n₀ hn₀
  · rw [hget] at hn
    obtain ⟨n₀, hn₀, rfl⟩ := Option.map_eq_some_iff.mp hn
    have hbare := h.bare j n₀ hn₀
    split
    · exact ⟨(hf.resolvedImports n₀).trans hbare.resolvedImports,
        (hf.dependencies n₀).trans hbare.dependencies⟩
    · exact hbare

theorem entry_modifyNode (h : Indexed b) (hi : b.pathToId.lookup p = some i) (q : String) :
    (b.modifyNode i f).entry q =
      if q = p then (b.nodes[i]?).map fun n => (f n).ast else b.entry q := by
  unfold GraphBuilder.entry
  show (match b.pathToId.lookup q with
    | none => none
    | some j => ((b.nodes.modify i f)[j]?).map ModuleNode.ast) = _
  by_cases hq : q = p
  · subst hq
    rw [if_pos rfl, hi]
    dsimp only
    rw [List.getElem?_modify]
    simp [Function.comp_def]
  · rw [if_neg hq]
    cases hlookup : b.pathToId.lookup q with
    | none => rfl
    | some j =>
      -- two paths have two positions
      have hij : i ≠ j := by
        intro heq
        obtain ⟨n, hn, hnp⟩ := (h.lookup_iff p i).mp hi
        obtain ⟨n', hn', hnq⟩ := (h.lookup_iff q j).mp hlookup
        rw [heq, hn'] at hn
        obtain rfl := Option.some.inj hn
        exact hq (hnq.symm.trans hnp)
      dsimp only
      rw [List.getElem?_modify]
      simp [hij]

theorem getElem?_concat_eq_some {l : List ModuleNode} {new n : ModuleNode} {i : Nat} :
    (l ++ [new])[i]? = some n ↔ l[i]? = some n ∨ (i = l.length ∧ n = new) := by
  rw [List.getElem?_append]
  split
  · next hlt =>
    constructor
    · exact Or.inl
    · rintro (h | ⟨rfl, -⟩)
      · exact h
      · omega
  · next hge =>
    rw [List.getElem?_singleton]
    constructor
    · intro h
      split at h
      · obtain rfl := Option.some.inj h
        exact Or.inr ⟨by omega, rfl⟩
      · cases h
    · rintro (h | ⟨rfl, rfl⟩)
      · have := (List.getElem?_eq_some_iff.mp h).1
        omega
      · rw [if_pos (Nat.sub_self _)]

/-- The builder after a change to the node of one path, which stands at a position and holds a value. -/
structure Updated (b b' : GraphBuilder) (p : String) (i : ModuleId) (value : Option Program) : Prop where
  indexed : Indexed b'
  lookup : b'.pathToId.lookup p = some i
  keeps : ∀ q j, b.pathToId.lookup q = some j → b'.pathToId.lookup q = some j
  entry : ∀ q, b'.entry q = if q = p then some value else b.entry q
  visiting : b'.visiting = b.visiting
  visited : b'.visited = b.visited

theorem getOrCreateNode_updated (h : Indexed b) (p : String) :
    Updated b (b.getOrCreateNode p).2 p (b.getOrCreateNode p).1 (b.entry p).join := by
  unfold GraphBuilder.getOrCreateNode
  cases hlookup : b.pathToId.lookup p with
  -- the node exists and keeps what it holds
  | some i =>
    refine ⟨h, hlookup, fun _ _ hq => hq, fun q => ?_, rfl, rfl⟩
    dsimp only
    split
    · next heq =>
      subst heq
      obtain ⟨n, hn, hp⟩ := (h.lookup_iff q i).mp hlookup
      have hentry := h.entry_eq hn
      rw [hp] at hentry
      rw [hentry]
      rfl
    · rfl
  -- a new node at the end of the list: its path was in no node, and the others stay in place
  | none =>
    refine ⟨⟨fun q i => ?_, fun i n hn => ?_, fun i n hn => ?_⟩, AList.lookup_insert _,
      fun q j hq => ?_, fun q => ?_, rfl, rfl⟩
    · show (b.pathToId.insert p b.nodes.length).lookup q = some i ↔ _
      dsimp only
      simp only [getElem?_concat_eq_some]
      by_cases hq : q = p
      · subst hq
        rw [AList.lookup_insert]
        constructor
        · intro heq
          obtain rfl := Option.some.inj heq
          exact ⟨_, Or.inr ⟨rfl, rfl⟩, rfl⟩
        · rintro ⟨n, hn | ⟨rfl, -⟩, hpath⟩
          · rw [(h.lookup_iff q i).mpr ⟨n, hn, hpath⟩] at hlookup
            cases hlookup
          · rfl
      · rw [AList.lookup_insert_ne hq, h.lookup_iff]
        constructor
        · rintro ⟨n, hn, hpath⟩
          exact ⟨n, Or.inl hn, hpath⟩
        · rintro ⟨n, hn | ⟨-, rfl⟩, hpath⟩
          · exact ⟨n, hn, hpath⟩
          · exact absurd hpath.symm hq
    · rcases getElem?_concat_eq_some.mp hn with hn | ⟨rfl, rfl⟩
      · exact h.id_eq i n hn
      · rfl
    · rcases getElem?_concat_eq_some.mp hn with hn | ⟨rfl, rfl⟩
      · exact h.bare i n hn
      · exact ⟨rfl, rfl⟩
    · have hne : q ≠ p := by
        rintro rfl
        rw [hlookup] at hq
        cases hq
      exact (AList.lookup_insert_ne hne).trans hq
    · unfold GraphBuilder.entry
      dsimp only
      by_cases hq : q = p
      · subst hq
        rw [AList.lookup_insert, hlookup, if_pos rfl]
        dsimp only
        rw [getElem?_concat_eq_some.mpr (Or.inr ⟨rfl, rfl⟩)]
        rfl
      · rw [AList.lookup_insert_ne hq, if_neg hq]
        cases hlq : b.pathToId.lookup q with
        | none => rfl
        | some i =>
          obtain ⟨n, hn, -⟩ := (h.lookup_iff q i).mp hlq
          dsimp only
          rw [getElem?_concat_eq_some.mpr (Or.inl hn), hn]

variable {b' : GraphBuilder} {value : Option Program}

theorem Updated.modifyNode {value' : Option Program} (h : Updated b b' p i value) (hf : KeepsPlace f)
    (hast : ∀ n, n.ast = value → (f n).ast = value') : Updated b (b'.modifyNode i f) p i value' := by
  refine ⟨h.indexed.modifyNode hf i, h.lookup, h.keeps, fun q => ?_, h.visiting, h.visited⟩
  rw [entry_modifyNode h.indexed h.lookup]
  split
  · obtain ⟨n, hn, hnp⟩ := (h.indexed.lookup_iff p i).mp h.lookup
    have hvalue := h.indexed.entry_eq hn
    rw [hnp, h.entry, if_pos rfl] at hvalue
    rw [hn, Option.map_some, hast n (Option.some.inj hvalue).symm]
  · next hq => rw [h.entry, if_neg hq]

theorem Updated.markBootstrap (h : Updated b b' p i value) (module : LoadedModule) :
    Updated b (b'.markBootstrap i module) p i value := by
  unfold GraphBuilder.markBootstrap
  split
  · exact ⟨⟨h.indexed.lookup_iff, h.indexed.id_eq, h.indexed.bare⟩, h.lookup, h.keeps, h.entry, h.visiting,
      h.visited⟩
  · exact h

theorem Indexed.of_nodes (h : Indexed b) (hnodes : b'.nodes = b.nodes) (hpaths : b'.pathToId = b.pathToId) :
    Indexed b' := by
  refine ⟨fun p i => ?_, fun i n hn => ?_, fun i n hn => ?_⟩
  · rw [hnodes, hpaths]
    exact h.lookup_iff p i
  · rw [hnodes] at hn
    exact h.id_eq i n hn
  · rw [hnodes] at hn
    exact h.bare i n hn

theorem addRoot_updated (h : Indexed b) (rootProgram : Program) :
    Updated b (addRoot rootProgram b).2 rootPath (addRoot rootProgram b).1 (some rootProgram) :=
  (getOrCreateNode_updated h rootPath).modifyNode ⟨fun _ => rfl, fun _ => rfl, fun _ => rfl,
    fun _ => rfl⟩ fun _ _ => rfl

theorem addSourceNode_updated (extensions : List ModuleExports) (h : Indexed b) (p : String)
    (module : LoadedModule) :
    ∃ i, Updated b (addSourceNode extensions b p module) p i (some module.ast) := by
  refine ⟨_, ((getOrCreateNode_updated h p).markBootstrap module).modifyNode ⟨?_, ?_, ?_, ?_⟩ ?_⟩
  all_goals
    intro n
    try intro
    split <;> rfl

/-- A node is added only if there was none. -/
theorem addNativeNode_cases (extensions : List ModuleExports) (h : Indexed b) (p : String) :
    ((b.entry p).isSome ∧ addNativeNode extensions b p = b) ∨
      (b.entry p = none ∧ ∃ b₁ i, Updated b b₁ p i none ∧
        addNativeNode extensions b p = { b₁ with visited := insert p b₁.visited }) := by
  unfold addNativeNode
  by_cases hsome : (b.pathToId.lookup p).isSome
  · exact Or.inl ⟨h.isSome_iff.mpr hsome, if_pos hsome⟩
  · have hentry : b.entry p = none :=
      Option.not_isSome_iff_eq_none.mp fun hentry => hsome (h.isSome_iff.mp hentry)
    have hupdated := getOrCreateNode_updated h p
    rw [hentry] at hupdated
    rw [if_neg hsome]
    generalize b.getOrCreateNode p = created at hupdated ⊢
    obtain ⟨i, b₁⟩ := created
    refine Or.inr ⟨hentry, _, i, ?_, rfl⟩
    exact hupdated.modifyNode ⟨fun _ => rfl, fun _ => rfl, fun _ => rfl, fun _ => rfl⟩ fun _ hn => hn

/-! ## What a walk has shown -/

/-- The modules visited and those being visited. -/
def view (w : World) (b : GraphBuilder) : Search String := ⟨(b.visited \ w.native) ∪ b.visiting, b.visiting⟩

theorem mem_view :
    p ∈ (view w b).visited ↔ (p ∈ b.visited ∧ p ∉ w.native) ∨ p ∈ b.visiting := by
  show p ∈ (b.visited \ w.native) ∪ b.visiting ↔ _
  rw [Finset.mem_union, Finset.mem_sdiff]

/-- What holds of the builder between two steps of a walk. -/
structure Tracks (w : World) (b : GraphBuilder) : Prop where
  indexed : Indexed b
  finished : Finished w.children (view w b)
  native_visited : w.native ⊆ b.visited
  root_visiting : rootPath ∈ b.visiting
  visiting_walked : ∀ p ∈ b.visiting, w.Walked p
  not_visiting : ∀ p ∈ b.visited, p ∉ w.native → p ∉ b.visiting
  visited_entry : ∀ p ∈ b.visited, (b.entry p).isSome
  extension_entry : ∀ p ∈ w.extensionNames, (b.entry p).isSome
  registered : ∀ p, (b.entry p).isSome → w.Registered p
  ast_eq : ∀ p ast, b.entry p = some (some ast) → ast = w.program p ∧ w.HasAst p
  has_ast : ∀ p, p ∈ w.overlaid ∨ p ∈ b.visiting ∨ (p ∈ b.visited ∧ w.walkable p = true) →
    ∃ ast, b.entry p = some (some ast)
  native_entry : ∀ d ∈ b.visited, w.walkable d = true → ∀ q ∈ w.walkDeps d, w.hint q = .nativeExtension →
    (b.entry q).isSome

/-- A step leaves the modules being visited alone and loses nothing. -/
structure Grown (b b' : GraphBuilder) : Prop where
  visiting : b'.visiting = b.visiting
  visited : b.visited ⊆ b'.visited
  entry : ∀ p, (b.entry p).isSome → (b'.entry p).isSome
  lookup : ∀ p i, b.pathToId.lookup p = some i → b'.pathToId.lookup p = some i

theorem Grown.refl (b : GraphBuilder) : Grown b b := ⟨rfl, subset_rfl, fun _ h => h, fun _ _ h => h⟩

theorem Grown.trans {b'' : GraphBuilder} (h : Grown b b') (h' : Grown b' b'') : Grown b b'' :=
  ⟨h'.visiting.trans h.visiting, h.visited.trans h'.visited, fun p hp => h'.entry p (h.entry p hp),
    fun p i hp => h'.lookup p i (h.lookup p i hp)⟩

/-- What the walk does about an import. -/
def Handled (w : World) (b : GraphBuilder) (q : String) : Prop :=
  (w.walkable q = true → q ∈ b.visited) ∧ (w.hint q = .nativeExtension → (b.entry q).isSome)

theorem Handled.grown {q : String} (h : Handled w b q) (hgrown : Grown b b') : Handled w b' q :=
  ⟨fun hq => hgrown.visited (h.1 hq), fun hq => hgrown.entry q (h.2 hq)⟩

theorem Updated.grown (h : Updated b b' p i value) : Grown b b' := by
  refine ⟨h.visiting, h.visited.symm ▸ subset_rfl, fun q hq => ?_, h.keeps⟩
  rw [h.entry]
  split
  · rfl
  · exact hq

/-- The node of a module is added, and it holds what it should. -/
theorem Tracks.updated (h : Tracks w b) (hupdated : Updated b b' p i value) (hregistered : w.Registered p)
    (hast : ∀ ast, value = some ast → ast = w.program p ∧ w.HasAst p)
    (hkeep : (∃ ast, b.entry p = some (some ast)) → ∃ ast, value = some ast) : Tracks w b' := by
  -- the search does not see the nodes
  have hview : view w b' = view w b := by
    unfold view
    rw [hupdated.visiting, hupdated.visited]
  have hsome := hupdated.grown.entry
  -- the entries are those of before, with that of `p` replaced
  refine
    { indexed := hupdated.indexed
      finished := hview ▸ h.finished
      native_visited := hupdated.visited ▸ h.native_visited
      root_visiting := hupdated.visiting ▸ h.root_visiting
      visiting_walked := hupdated.visiting ▸ h.visiting_walked
      not_visiting := ?_
      visited_entry := ?_
      extension_entry := fun q hq => hsome q (h.extension_entry q hq)
      registered := fun q hq => ?_
      ast_eq := fun q ast hq => ?_
      has_ast := fun q hq => ?_
      native_entry := ?_ }
  · rw [hupdated.visiting, hupdated.visited]
    exact h.not_visiting
  · rw [hupdated.visited]
    exact fun q hq => hsome q (h.visited_entry q hq)
  · rw [hupdated.entry] at hq
    split at hq
    · next heq => exact heq ▸ hregistered
    · exact h.registered q hq
  · rw [hupdated.entry] at hq
    split at hq
    · next heq => exact heq ▸ hast ast (Option.some.inj hq)
    · exact h.ast_eq q ast hq
  · rw [hupdated.visiting, hupdated.visited] at hq
    obtain ⟨ast, hast'⟩ := h.has_ast q hq
    rw [hupdated.entry]
    split
    · next heq =>
      obtain ⟨ast', rfl⟩ := hkeep ⟨ast, heq ▸ hast'⟩
      exact ⟨ast', rfl⟩
    · exact ⟨ast, hast'⟩
  · rw [hupdated.visited]
    exact fun d hd hwalk q hq hhint => hsome q (h.native_entry d hd hwalk q hq hhint)

theorem Tracks.enter (h : Tracks w b) (hwalked : w.Walked p) (hnew : p ∉ b.visited)
    (hvisiting : p ∉ b.visiting) (hast : ∃ ast, b.entry p = some (some ast)) :
    Tracks w { b with visiting := insert p b.visiting } := by
  -- the search enters `p`, which was neither visited nor on the stack
  have hview : view w { b with visiting := insert p b.visiting } =
      ⟨insert p (view w b).visited, insert p (view w b).inStack⟩ := by
    unfold view
    rw [Finset.union_insert]
  have hold : p ∉ (view w b).visited := by
    rw [mem_view]
    rintro (⟨hmem, -⟩ | hmem)
    · exact hnew hmem
    · exact hvisiting hmem
  refine
    { indexed := h.indexed.of_nodes rfl rfl
      finished := hview ▸ h.finished.enter hold
      native_visited := h.native_visited
      root_visiting := Finset.mem_insert_of_mem h.root_visiting
      visiting_walked := fun q hq => ?_
      not_visiting := fun q hq hnative hmem => ?_
      visited_entry := h.visited_entry
      extension_entry := h.extension_entry
      registered := h.registered
      ast_eq := h.ast_eq
      has_ast := fun q hq => ?_
      native_entry := h.native_entry }
  · rcases Finset.mem_insert.mp hq with rfl | hq
    · exact hwalked
    · exact h.visiting_walked q hq
  · rcases Finset.mem_insert.mp hmem with rfl | hmem
    · exact hnew hq
    · exact h.not_visiting q hq hnative hmem
  · rcases hq with hq | hq | hq
    · exact h.has_ast q (Or.inl hq)
    · rcases Finset.mem_insert.mp hq with rfl | hq
      · exact hast
      · exact h.has_ast q (Or.inr (Or.inl hq))
    · exact h.has_ast q (Or.inr (Or.inr hq))

/-- A module whose imports have been handled is finished. -/
theorem Tracks.leave (h : Tracks w b) (hp : p ∈ b.visiting) (hroot : p ≠ rootPath)
    (hdeps : ∀ q ∈ w.walkDeps p, Handled w b q) : Tracks w (b.endVisit p) := by
  have hvisits := (h.visiting_walked p hp).visits
  have hwalk : w.walkable p = true := hvisits.resolve_left hroot
  have hnative : p ∉ w.native := (World.walkable_iff.mp hwalk).2
  -- ending the visit moves `p` from the stack to the finished ones: the search only sees the stack
  -- shrink
  have hview : view w (b.endVisit p) = { view w b with inStack := (view w b).inStack.erase p } := by
    unfold view GraphBuilder.endVisit
    dsimp only
    rw [Finset.insert_sdiff_of_notMem _ hnative, Finset.insert_union, ← Finset.union_insert,
      Finset.insert_erase hp]
  -- its children are finished, for their imports were handled
  have hchildren : ∀ c ∈ w.children p, c ∈ (view w b).visited ∧ c ∉ (view w b).inStack := by
    intro c hc
    obtain ⟨hdep, hcwalk⟩ := (World.mem_children hvisits).mp hc
    have hvisited := (hdeps c hdep).1 hcwalk
    have hcnative := (World.walkable_iff.mp hcwalk).2
    exact ⟨mem_view.mpr (Or.inl ⟨hvisited, hcnative⟩), h.not_visiting c hvisited hcnative⟩
  refine
    { indexed := h.indexed.of_nodes rfl rfl
      finished := hview ▸ h.finished.leave hp hchildren
      native_visited := h.native_visited.trans (Finset.subset_insert _ _)
      root_visiting := Finset.mem_erase.mpr ⟨Ne.symm hroot, h.root_visiting⟩
      visiting_walked := fun q hq => h.visiting_walked q (Finset.mem_of_mem_erase hq)
      not_visiting := fun q hq hqnative hmem => ?_
      visited_entry := fun q hq => ?_
      extension_entry := h.extension_entry
      registered := h.registered
      ast_eq := h.ast_eq
      has_ast := fun q hq => ?_
      native_entry := fun d hd hdwalk q hq hhint => ?_ }
  · obtain ⟨hne, hmem⟩ := Finset.mem_erase.mp hmem
    exact h.not_visiting q ((Finset.mem_insert.mp hq).resolve_left hne) hqnative hmem
  · rcases Finset.mem_insert.mp hq with rfl | hq
    · obtain ⟨ast, hast⟩ := h.has_ast q (Or.inr (Or.inl hp))
      exact Option.isSome_iff_exists.mpr ⟨_, hast⟩
    · exact h.visited_entry q hq
  · refine h.has_ast q ?_
    rcases hq with hq | hq | ⟨hq, hqwalk⟩
    · exact Or.inl hq
    · exact Or.inr (Or.inl (Finset.mem_of_mem_erase hq))
    · rcases Finset.mem_insert.mp hq with rfl | hq
      · exact Or.inr (Or.inl hp)
      · exact Or.inr (Or.inr ⟨hq, hqwalk⟩)
  -- and its imports of extensions have nodes
  · rcases Finset.mem_insert.mp hd with rfl | hd
    · exact (hdeps q hq).2 hhint
    · exact h.native_entry d hd hdwalk q hq hhint

/-- A module that is not walked is done when it has a node. -/
theorem Tracks.leaf (h : Tracks w b) (hentry : (b.entry p).isSome) (hwalk : ¬ w.walkable p = true)
    (hroot : p ≠ rootPath) (hnative : p ∉ w.native) :
    Tracks w { b with visited := insert p b.visited } := by
  -- the stack holds walked modules only
  have hvisiting : p ∉ b.visiting := by
    intro hmem
    rcases (h.visiting_walked p hmem).visits with heq | hmem
    · exact hroot heq
    · exact hwalk hmem
  have hview : view w { b with visited := insert p b.visited } =
      { view w b with visited := insert p (view w b).visited } := by
    unfold view
    rw [Finset.insert_sdiff_of_notMem _ hnative, Finset.insert_union]
  -- nothing is walked from here, so there is nothing to finish first
  have hleaf : w.children p = [] := by
    unfold World.children
    rw [if_neg (not_or.mpr ⟨hroot, hwalk⟩)]
  refine
    { indexed := h.indexed.of_nodes rfl rfl
      finished := hview ▸ h.finished.leaf hleaf hvisiting
      native_visited := h.native_visited.trans (Finset.subset_insert _ _)
      root_visiting := h.root_visiting
      visiting_walked := h.visiting_walked
      not_visiting := fun q hq hqnative => ?_
      visited_entry := fun q hq => ?_
      extension_entry := h.extension_entry
      registered := h.registered
      ast_eq := h.ast_eq
      has_ast := fun q hq => h.has_ast q ?_
      native_entry := fun d hd hdwalk q hq hhint => ?_ }
  · rcases Finset.mem_insert.mp hq with rfl | hq
    · exact hvisiting
    · exact h.not_visiting q hq hqnative
  · rcases Finset.mem_insert.mp hq with rfl | hq
    · exact hentry
    · exact h.visited_entry q hq
  · rcases hq with hq | hq | ⟨hq, hqwalk⟩
    · exact Or.inl hq
    · exact Or.inr (Or.inl hq)
    · rcases Finset.mem_insert.mp hq with rfl | hq
      · exact absurd hqwalk hwalk
      · exact Or.inr (Or.inr ⟨hq, hqwalk⟩)
  · rcases Finset.mem_insert.mp hd with rfl | hd
    · exact absurd hdwalk hwalk
    · exact h.native_entry d hd hdwalk q hq hhint

/-- An import of an extension gets a node. -/
theorem Tracks.native (extensions : List ModuleExports) (h : Tracks w b) (hregistered : w.Registered p)
    (hhint : w.hint p = .nativeExtension) :
    Tracks w (addNativeNode extensions b p) ∧ Grown b (addNativeNode extensions b p) ∧
      ((addNativeNode extensions b p).entry p).isSome := by
  rcases addNativeNode_cases extensions h.indexed p with ⟨hentry, heq⟩ | ⟨hnone, b₁, i, hupdated, heq⟩
  · rw [heq]
    exact ⟨h, Grown.refl b, hentry⟩
  -- a module with that hint is not walked, has no node yet, and is neither the root nor an
  -- extension
  · have hwalk : ¬ w.walkable p = true := by
      rw [World.walkable_iff, hhint]
      rintro ⟨h | h, -⟩ <;> cases h
    have hroot : p ≠ rootPath := by
      rintro rfl
      obtain ⟨ast, hast⟩ := h.has_ast rootPath (Or.inr (Or.inl h.root_visiting))
      rw [hnone] at hast
      cases hast
    have hnative : p ∉ w.native := by
      intro hmem
      have hentry := h.visited_entry p (h.native_visited hmem)
      rw [hnone] at hentry
      cases hentry
    have htracks : Tracks w b₁ := by
      refine h.updated hupdated hregistered nofun ?_
      rintro ⟨ast, hast⟩
      rw [hnone] at hast
      cases hast
    have hentry : (b₁.entry p).isSome := by
      rw [hupdated.entry, if_pos rfl]
      rfl
    rw [heq]
    refine ⟨htracks.leaf hentry hwalk hroot hnative, ?_, hentry⟩
    have hgrown := hupdated.grown
    exact ⟨hgrown.visiting, hgrown.visited.trans (Finset.subset_insert _ _), hgrown.entry, hgrown.lookup⟩

/-! ## The walk itself -/

/-- The loader has the modules of the world. Import strings name modules: what a path loads to does
not depend on when it is loaded. -/
structure World.Behind {σ : Type} (w : World) (loader : ModuleLoader σ) : Prop where
  hint : ∀ p, resolveModuleSourceKind loader p = w.hint p
  program : ∀ s p m s', p ≠ rootPath → loader.loadModule s p = (.ok m, s') → m.ast = w.program p

section

variable {σ : Type} {loader : ModuleLoader σ} {extensions : List ModuleExports}

/-- What a visit has to be told of its module. -/
structure Visitable (w : World) (b : GraphBuilder) (p : String) : Prop where
  walked : w.Walked p
  not_visited : p ∉ b.visited
  not_root : p ≠ rootPath
  has_ast : ∃ ast, b.entry p = some (some ast)

variable {b : GraphBuilder} {s : σ} {current q : String}

/-- A module whose source is loaded can be visited, unless it is being visited. -/
theorem addSourceNode_visitable (extensions : List ModuleExports) (hbehind : w.Behind loader)
    {s₁ : σ} {m : LoadedModule} (h : Tracks w b) (hcurrent : w.Walked current)
    (hedge : Edge w.children current q) (hnew : q ∉ b.visited) (hvisiting : q ∉ b.visiting)
    (hload : loader.loadModule s q = (.ok m, s₁)) :
    subDeps w.preludeImports q m.ast = w.walkDeps q ∧ Tracks w (addSourceNode extensions b q m) ∧
      Grown b (addSourceNode extensions b q m) ∧ Visitable w (addSourceNode extensions b q m) q := by
  have hwalked : w.Walked q := hcurrent.tail hedge
  obtain ⟨i, hupdated⟩ := addSourceNode_updated extensions h.indexed q m
  have hroot : q ≠ rootPath := by
    rintro rfl
    exact hvisiting h.root_visiting
  have hprogram := hbehind.program s q m s₁ hroot hload
  have htracks : Tracks w (addSourceNode extensions b q m) := by
    refine h.updated hupdated (Or.inr (Or.inl hwalked)) (fun ast hast => ?_) fun _ => ⟨_, rfl⟩
    obtain rfl := Option.some.inj hast
    exact ⟨hprogram, Or.inr hwalked⟩
  refine ⟨?_, htracks, hupdated.grown, hwalked, ?_, hroot, m.ast, ?_⟩
  · unfold World.walkDeps
    rw [if_neg hroot, hprogram]
  · rw [hupdated.visited]
    exact hnew
  · rw [hupdated.entry, if_pos rfl]

/-- What can become of an import: nothing is left to do, the build fails, or its module is visited. -/
theorem visitDep_cases (hbehind : w.Behind loader)
    {visit : String → List String → GraphBuilder × σ → Except (Option GraphBuildError)
      (GraphBuilder × σ)}
    (h : Tracks w b) (hcurrent : w.Walked current) (hq : q ∈ w.walkDeps current)
    {r : Except (Option GraphBuildError) (GraphBuilder × σ)}
    (hrun : visitDep loader extensions w.preludeImports visit (b, s) q = r) :
    (∃ b', r = .ok (b', s) ∧ Tracks w b' ∧ Grown b b' ∧ Handled w b' q) ∨
      (∃ e, r = .error (some e) ∧ ∀ visiting target, e ≠ .cyclicDependency visiting target) ∨
      ∃ m s₁, loader.loadModule s q = (.ok m, s₁) ∧ q ∉ b.visited ∧ Edge w.children current q ∧
        r = visit q (subDeps w.preludeImports q m.ast) (addSourceNode extensions b q m, s₁) := by
  subst hrun
  unfold visitDep
  dsimp only
  -- visited already
  split
  · next hvisited =>
    exact Or.inl ⟨b, rfl, h, Grown.refl b, fun _ => hvisited, fun _ => h.visited_entry q hvisited⟩
  · next hnew =>
    have hnative : q ∉ w.native := fun hmem => hnew (h.native_visited hmem)
    rw [hbehind.hint]
    -- by what the loader says the path is
    cases hhint : w.hint q with
    | nativeExtension =>
      obtain ⟨htracks, hgrown, hentry⟩ :=
        h.native extensions (Or.inr (Or.inr ⟨current, hcurrent, hq, hhint⟩)) hhint
      refine Or.inl ⟨_, rfl, htracks, hgrown, fun hwalk => ?_, fun _ => hentry⟩
      rw [World.walkable_iff, hhint] at hwalk
      rcases hwalk with ⟨hwalk | hwalk, -⟩ <;> cases hwalk
    | notFound =>
      refine Or.inl ⟨b, rfl, h, Grown.refl b, fun hwalk => ?_, fun hnat => ?_⟩
      · rw [World.walkable_iff, hhint] at hwalk
        rcases hwalk with ⟨hwalk | hwalk, -⟩ <;> cases hwalk
      · rw [hhint] at hnat
        cases hnat
    | compiledBundle => exact Or.inr (Or.inl ⟨_, rfl, nofun⟩)
    -- the two kinds that are loaded and walked
    | shapeSource | embeddedStdlib =>
      have hwalk : w.walkable q = true := World.walkable_iff.mpr ⟨by rw [hhint]; decide, hnative⟩
      dsimp only
      cases hload : loader.loadModule s q with
      | mk result s₁ =>
        cases result with
        | error e => exact Or.inr (Or.inl ⟨_, rfl, nofun⟩)
        | ok m =>
          exact Or.inr (Or.inr ⟨m, s₁, rfl, hnew, (World.mem_children hcurrent.visits).mpr
            ⟨hq, hwalk⟩, rfl⟩)

variable {p : String}

/-- A module that is being visited is not entered again. -/
theorem visitModule_visiting (loader : ModuleLoader σ) (extensions : List ModuleExports)
    (preludeImports : List String) (fuel : Nat) (deps : List String) (s : σ) (h : p ∈ b.visiting) :
    ∃ e, visitModule loader extensions preludeImports fuel p deps (b, s) = .error e ∧
      ∀ visiting target, e = some (.cyclicDependency visiting target) → visiting = b.visiting := by
  cases fuel with
  | zero => exact ⟨none, rfl, nofun⟩
  | succ fuel =>
    have hbegin : b.beginVisit p = none := if_pos h
    refine ⟨some (.cyclicDependency b.visiting p), ?_, fun visiting target heq => ?_⟩
    · rw [visitModule, hbegin]
    · exact (GraphBuildError.cyclicDependency.inj (Option.some.inj heq)).1.symm

variable {fuel : Nat} {b' : GraphBuilder} {s' : σ}

/-- One import, dealt with. -/
theorem visitDep_tracks (hbehind : w.Behind loader)
    (hvisit : ∀ b s q b' s', Tracks w b → Visitable w b q →
      visitModule loader extensions w.preludeImports fuel q (w.walkDeps q) (b, s) = .ok (b', s') →
      Tracks w b' ∧ Grown b b' ∧ q ∈ b'.visited)
    (h : Tracks w b) (hcurrent : w.Walked current) (hq : q ∈ w.walkDeps current)
    (hrun : visitDep loader extensions w.preludeImports
      (visitModule loader extensions w.preludeImports fuel) (b, s) q = .ok (b', s')) :
    Tracks w b' ∧ Grown b b' ∧ Handled w b' q := by
  rcases visitDep_cases hbehind h hcurrent hq hrun with
    ⟨b₁, heq, htracks, hgrown, hhandled⟩ | ⟨e, heq, -⟩ | ⟨m, s₁, hload, hnew, hedge, heq⟩
  · obtain ⟨rfl, -⟩ := Prod.mk.inj (Except.ok.inj heq)
    exact ⟨htracks, hgrown, hhandled⟩
  · cases heq
  · by_cases hvisiting : q ∈ b.visiting
    · obtain ⟨i, hupdated⟩ := addSourceNode_updated extensions h.indexed q m
      obtain ⟨e, herror, -⟩ := visitModule_visiting loader extensions w.preludeImports fuel
        (subDeps w.preludeImports q m.ast) s₁ (hupdated.visiting.symm ▸ hvisiting)
      rw [herror] at heq
      cases heq
    · obtain ⟨hdeps, htracks, hgrown, hvisitable⟩ :=
        addSourceNode_visitable extensions hbehind h hcurrent hedge hnew hvisiting hload
      rw [hdeps] at heq
      obtain ⟨htracks', hgrown', hvisited⟩ := hvisit _ s₁ q b' s' htracks hvisitable heq.symm
      refine ⟨htracks', hgrown.trans hgrown', fun _ => hvisited, fun _ => htracks'.visited_entry q hvisited⟩

variable {deps : List String}

theorem visitDeps_tracks (hbehind : w.Behind loader)
    (hvisit : ∀ b s q b' s', Tracks w b → Visitable w b q →
      visitModule loader extensions w.preludeImports fuel q (w.walkDeps q) (b, s) = .ok (b', s') →
      Tracks w b' ∧ Grown b b' ∧ q ∈ b'.visited)
    (hcurrent : w.Walked current) (hdeps : ∀ q ∈ deps, q ∈ w.walkDeps current) (h : Tracks w b)
    (hrun : deps.foldlM
      (visitDep loader extensions w.preludeImports
      (visitModule loader extensions w.preludeImports fuel)) (b, s) = .ok (b', s')) :
    Tracks w b' ∧ Grown b b' ∧ ∀ q ∈ deps, Handled w b' q := by
  induction deps generalizing b s with
  | nil =>
    obtain ⟨rfl, -⟩ := Prod.mk.inj (Except.ok.inj hrun)
    exact ⟨h, Grown.refl b, nofun⟩
  | cons q deps ih =>
    obtain ⟨hq, hdeps⟩ := List.forall_mem_cons.mp hdeps
    rw [List.foldlM_cons] at hrun
    obtain ⟨⟨b₁, s₁⟩, hdep, hrun⟩ := Fallible.bind_eq_ok.mp hrun
    obtain ⟨h₁, hgrown₁, hhandled⟩ := visitDep_tracks hbehind hvisit h hcurrent hq hdep
    obtain ⟨h', hgrown', hrest⟩ := ih hdeps h₁ hrun
    exact ⟨h', hgrown₁.trans hgrown', List.forall_mem_cons.mpr ⟨hhandled.grown hgrown', hrest⟩⟩

/-- **A visit that ends** has finished its module. -/
theorem visit_tracks (hbehind : w.Behind loader) (h : Tracks w b) (hvisitable : Visitable w b current)
    (hrun : visitModule loader extensions w.preludeImports fuel current (w.walkDeps current)
      (b, s) = .ok (b', s')) :
    Tracks w b' ∧ Grown b b' ∧ current ∈ b'.visited := by
  induction fuel generalizing b b' s s' current with
  | zero => cases hrun
  | succ fuel ih =>
    -- a module on the stack would have been a cycle
    have hvisiting : current ∉ b.visiting := by
      intro hmem
      obtain ⟨e, herror, -⟩ := visitModule_visiting loader extensions w.preludeImports (fuel + 1)
        (w.walkDeps current) s hmem
      rw [herror] at hrun
      cases hrun
    have hbegin : b.beginVisit current = some { b with visiting := insert current b.visiting } :=
      if_neg hvisiting
    rw [visitModule, hbegin] at hrun
    obtain ⟨⟨b₁, s₁⟩, hfold, hrun⟩ := Fallible.bind_eq_ok.mp hrun
    obtain ⟨rfl, -⟩ := Prod.mk.inj (Except.ok.inj hrun)
    -- enter, handle the imports, leave
    have henter := h.enter hvisitable.walked hvisitable.not_visited hvisiting hvisitable.has_ast
    obtain ⟨h₁, hgrown, hhandled⟩ := visitDeps_tracks hbehind (fun b s q b' s' h hv hr => ih h hv hr)
      hvisitable.walked (fun q hq => hq) henter hfold
    have hmem : current ∈ b₁.visiting := hgrown.visiting.symm ▸ Finset.mem_insert_self current _
    refine ⟨h₁.leave hmem hvisitable.not_root hhandled, ⟨?_, ?_, hgrown.entry, hgrown.lookup⟩,
      Finset.mem_insert_self current _⟩
    · show b₁.visiting.erase current = b.visiting
      rw [hgrown.visiting, Finset.erase_insert hvisiting]
    · exact hgrown.visited.trans (Finset.subset_insert _ _)

/-! ## A cycle reported -/

/-- A followed import between two modules of a set. -/
def Within (w : World) (modules : Finset String) (p q : String) : Prop :=
  p ∈ modules ∧ q ∈ modules ∧ Edge w.children p q

theorem Within.mono {modules modules' : Finset String} (hsub : modules ⊆ modules')
    (h : TransGen (Within w modules) p q) :
    TransGen (Within w modules') p q :=
  h.lift id fun _ _ hwithin => ⟨hsub hwithin.1, hsub hwithin.2.1, hwithin.2.2⟩

/-- The modules being visited lead to the one at hand, each through the others. -/
def Stacked (w : World) (b : GraphBuilder) (p : String) : Prop :=
  ∀ x ∈ b.visiting, TransGen (Within w (insert p b.visiting)) x p

theorem Stacked.push {b₁ : GraphBuilder} (h : Stacked w b p) (hvisiting : b₁.visiting = insert p b.visiting)
    (hedge : Edge w.children p q) : Stacked w b₁ q := by
  intro x hx
  rw [hvisiting] at hx ⊢
  have hsub : insert p b.visiting ⊆ insert q (insert p b.visiting) := Finset.subset_insert _ _
  have hstep : Within w (insert q (insert p b.visiting)) p q :=
    ⟨hsub (Finset.mem_insert_self _ _), Finset.mem_insert_self _ _, hedge⟩
  rcases Finset.mem_insert.mp hx with rfl | hx
  · exact .single hstep
  · exact (Within.mono hsub (h x hx)).tail hstep

/-- The modules that a cyclic dependency names: they are being visited, and some of them form a cycle. -/
structure Reported (w : World) (visiting : Finset String) : Prop where
  walked : ∀ p ∈ visiting, w.Walked p
  cycle : ∃ p, TransGen (Within w visiting) p p

variable {visiting : Finset String} {target : String}

theorem visitDeps_cyclic (hbehind : w.Behind loader)
    (hvisit : ∀ b s q visiting target, Tracks w b → Visitable w b q → q ∉ b.visiting →
      Stacked w b q → visitModule loader extensions w.preludeImports fuel q (w.walkDeps q) (b, s) =
      .error (some (.cyclicDependency visiting target)) → Reported w visiting)
    (hcurrent : w.Walked current) (hdeps : ∀ q ∈ deps, q ∈ w.walkDeps current) (h : Tracks w b)
    (hstacked : ∀ b₁ q, b₁.visiting = b.visiting → Edge w.children current q → Stacked w b₁ q)
    (hrun : deps.foldlM
      (visitDep loader extensions w.preludeImports
      (visitModule loader extensions w.preludeImports fuel)) (b, s) = .error
      (some (.cyclicDependency visiting target))) :
    Reported w visiting := by
  induction deps generalizing b s with
  | nil => cases hrun
  | cons q deps ih =>
    obtain ⟨hq, hdeps⟩ := List.forall_mem_cons.mp hdeps
    rw [List.foldlM_cons] at hrun
    rcases Fallible.bind_eq_error.mp hrun with herror | ⟨⟨b₁, s₁⟩, hdep, hrun⟩
    · rcases visitDep_cases hbehind h hcurrent hq herror with
        ⟨b₁, heq, -⟩ | ⟨e, heq, hne⟩ | ⟨m, s₁, hload, hnew, hedge, heq⟩
      · cases heq
      · obtain rfl := Option.some.inj (Except.error.inj heq)
        exact absurd rfl (hne visiting target)
      · obtain ⟨i, hupdated⟩ := addSourceNode_updated extensions h.indexed q m
        have hstack := hstacked _ q hupdated.visiting hedge
        by_cases hvisiting : q ∈ b.visiting
        · -- the module at hand is entered again: the modules being visited lead back to it
          rw [← hupdated.visiting] at hvisiting
          obtain ⟨e, he, hset⟩ := visitModule_visiting loader extensions w.preludeImports fuel
            (subDeps w.preludeImports q m.ast) s₁ hvisiting
          rw [he] at heq
          obtain rfl := Except.error.inj heq
          obtain rfl := hset visiting target rfl
          have hcycle := hstack q hvisiting
          rw [Finset.insert_eq_of_mem hvisiting] at hcycle
          exact ⟨hupdated.visiting.symm ▸ h.visiting_walked, q, hcycle⟩
        · obtain ⟨hwalk, htracks, -, hvisitable⟩ :=
            addSourceNode_visitable extensions hbehind h hcurrent hedge hnew hvisiting hload
          rw [hwalk] at heq
          exact hvisit _ s₁ q visiting target htracks hvisitable
            (hupdated.visiting.symm ▸ hvisiting) hstack heq.symm
    · obtain ⟨h₁, hgrown, -⟩ :=
        visitDep_tracks hbehind (fun _ _ _ _ _ h hv hr => visit_tracks hbehind h hv hr)
        h hcurrent hq hdep
      exact ih hdeps h₁ (fun b₂ q hb₂ hedge => hstacked b₂ q (hb₂.trans hgrown.visiting) hedge) hrun

/-- **A visit that reports a cycle** has found one among the modules that it names. -/
theorem visit_cyclic (hbehind : w.Behind loader) (h : Tracks w b) (hvisitable : Visitable w b current)
    (hvisiting : current ∉ b.visiting) (hstacked : Stacked w b current)
    (hrun : visitModule loader extensions w.preludeImports fuel current (w.walkDeps current)
      (b, s) = .error (some (.cyclicDependency visiting target))) :
    Reported w visiting := by
  induction fuel generalizing b s current visiting target with
  | zero => cases hrun
  | succ fuel ih =>
    have hbegin : b.beginVisit current = some { b with visiting := insert current b.visiting } :=
      if_neg hvisiting
    rw [visitModule, hbegin] at hrun
    rcases Fallible.bind_eq_error.mp hrun with hfold | ⟨⟨b₁, s₁⟩, -, hrun⟩
    · have henter := h.enter hvisitable.walked hvisitable.not_visited hvisiting hvisitable.has_ast
      exact visitDeps_cyclic hbehind (fun b s q v t h hv hnew hs hr => ih h hv hnew hs hr) hvisitable.walked
        (fun q hq => hq) henter (fun b₁ q hb₁ hedge => hstacked.push hb₁ hedge) hfold
    · cases hrun

/-! ## The walk from the root -/

/-- What the nodes are after a walk that has ended. -/
structure Complete (w : World) (b : GraphBuilder) : Prop where
  indexed : Indexed b
  registered_iff : ∀ p, (b.entry p).isSome ↔ w.Registered p
  ast_iff : ∀ p ast, b.entry p = some (some ast) ↔ ast = w.program p ∧ w.HasAst p
  acyclic : ∀ p, w.Walked p → ¬ TransGen (Edge w.children) p p

/-- When the imports of the root are handled, everything that is walked is visited. -/
theorem Tracks.complete (h : Tracks w b) (hdeps : ∀ q ∈ w.walkDeps rootPath, Handled w b q) :
    Complete w b := by
  have hvisited : ∀ p, w.Walked p → p = rootPath ∨ p ∈ b.visited := by
    intro p hp
    induction hp with
    | refl => exact Or.inl rfl
    | @tail p q hpath hedge ih =>
      have hwalked : w.Walked p := hpath
      obtain ⟨hdep, hwalk⟩ := (World.mem_children hwalked.visits).mp hedge
      rcases ih with rfl | hp
      · exact Or.inr ((hdeps q hdep).1 hwalk)
      · by_cases hroot : p = rootPath
        · subst hroot
          exact Or.inr ((hdeps q hdep).1 hwalk)
        · have hpwalk := hwalked.visits.resolve_left hroot
          have hpnative := (World.walkable_iff.mp hpwalk).2
          obtain ⟨hq, hqstack⟩ := h.finished.children_mem p (mem_view.mpr (Or.inl ⟨hp, hpnative⟩))
            (h.not_visiting p hp hpnative) q hedge
          rcases mem_view.mp hq with ⟨hq, -⟩ | hq
          · exact Or.inr hq
          · exact absurd hq hqstack
  have hentry : ∀ p, w.Walked p → ∃ ast, b.entry p = some (some ast) := by
    intro p hp
    by_cases hroot : p = rootPath
    · subst hroot
      exact h.has_ast _ (Or.inr (Or.inl h.root_visiting))
    · exact h.has_ast p (Or.inr (Or.inr ⟨(hvisited p hp).resolve_left hroot, hp.visits.resolve_left hroot⟩))
  -- an import of the root would have entered it again
  have hnotchild : ∀ p, w.Walked p → rootPath ∉ w.children p := by
    intro p hp hchild
    obtain ⟨hdep, hwalk⟩ := (World.mem_children hp.visits).mp hchild
    by_cases hroot : p = rootPath
    · subst hroot
      exact h.not_visiting _ ((hdeps _ hdep).1 hwalk) (World.walkable_iff.mp hwalk).2 h.root_visiting
    · have hpvisited := (hvisited p hp).resolve_left hroot
      have hpnative := (World.walkable_iff.mp (hp.visits.resolve_left hroot)).2
      exact (h.finished.children_mem p (mem_view.mpr (Or.inl ⟨hpvisited, hpnative⟩))
        (h.not_visiting p hpvisited hpnative) rootPath hchild).2 h.root_visiting
  refine ⟨h.indexed, fun p => ⟨h.registered p, ?_⟩, fun p ast => ⟨h.ast_eq p ast, ?_⟩,
    fun p hp hcycle => ?_⟩
  · rintro (hp | hp | ⟨q, hq, hdep, hhint⟩)
    · exact h.extension_entry p hp
    · obtain ⟨ast, hast⟩ := hentry p hp
      exact Option.isSome_iff_exists.mpr ⟨_, hast⟩
    · by_cases hroot : q = rootPath
      · subst hroot
        exact (hdeps p hdep).2 hhint
      · exact h.native_entry q ((hvisited q hq).resolve_left hroot) (hq.visits.resolve_left hroot) p
          hdep hhint
  · rintro ⟨rfl, hhas⟩
    have hexists : ∃ ast, b.entry p = some (some ast) := by
      rcases hhas with hover | hwalked
      · exact h.has_ast p (Or.inl hover)
      · exact hentry p hwalked
    obtain ⟨ast, hast⟩ := hexists
    rw [hast, (h.ast_eq p ast hast).1]
  · by_cases hroot : p = rootPath
    · subst hroot
      obtain ⟨q, hpath, hedge⟩ := TransGen.tail'_iff.mp hcycle
      exact hnotchild q hpath hedge
    · have hpvisited := (hvisited p hp).resolve_left hroot
      have hpnative := (World.walkable_iff.mp (hp.visits.resolve_left hroot)).2
      exact h.finished.acyclic p (mem_view.mpr (Or.inl ⟨hpvisited, hpnative⟩))
        (h.not_visiting p hpvisited hpnative)
        hcycle

/-- The builder before the walk: the extensions and the root have nodes. -/
structure Prepared (w : World) (b : GraphBuilder) : Prop where
  indexed : Indexed b
  visiting : b.visiting = ∅
  visited : b.visited = w.native
  native_entry : ∀ p ∈ w.native, p ∈ w.extensionNames
  registered_iff : ∀ p, (b.entry p).isSome ↔ p ∈ w.extensionNames ∨ p = rootPath
  ast_eq : ∀ p ast, b.entry p = some (some ast) → ast = w.program p ∧ (p ∈ w.overlaid ∨ p = rootPath)
  has_ast : ∀ p, p ∈ w.overlaid ∨ p = rootPath → ∃ ast, b.entry p = some (some ast)

theorem Prepared.enter (h : Prepared w b) :
    Tracks w { b with visiting := insert rootPath b.visiting } := by
  have hroot : w.Walked rootPath := ReflTransGen.refl
  -- before the walk the extensions are visited and the stack is empty: the search has not begun
  have hview : view w { b with visiting := insert rootPath b.visiting } =
      ⟨insert rootPath ∅, insert rootPath ∅⟩ := by
    unfold view
    dsimp only
    rw [h.visited, h.visiting, Finset.sdiff_self, Finset.empty_union]
  have hempty : Finished w.children (⟨∅, ∅⟩ : Search String) := ⟨subset_rfl, nofun, nofun⟩
  have hentry : ∀ p, p ∈ w.extensionNames ∨ p = rootPath → (b.entry p).isSome :=
    fun p => (h.registered_iff p).mpr
  refine
    { indexed := h.indexed.of_nodes rfl rfl
      finished := hview ▸ hempty.enter (Finset.notMem_empty _)
      native_visited := h.visited.symm ▸ subset_rfl
      root_visiting := Finset.mem_insert_self _ _
      visiting_walked := fun p hp => ?_
      not_visiting := fun p hp hnative => absurd (h.visited ▸ hp) hnative
      visited_entry := fun p hp => hentry p (Or.inl (h.native_entry p (h.visited ▸ hp)))
      extension_entry := fun p hp => hentry p (Or.inl hp)
      registered := fun p hp => ?_
      ast_eq := fun p ast hp => ?_
      has_ast := fun p hp => h.has_ast p ?_
      native_entry := fun d hd hwalk => absurd (h.visited ▸ hd) (World.walkable_iff.mp hwalk).2 }
  · rw [h.visiting] at hp
    rw [Finset.mem_singleton.mp hp]
    exact hroot
  · rcases (h.registered_iff p).mp hp with hp | rfl
    · exact Or.inl hp
    · exact Or.inr (Or.inl hroot)
  · obtain ⟨heq, hp⟩ := h.ast_eq p ast hp
    rcases hp with hp | rfl
    · exact ⟨heq, Or.inl hp⟩
    · exact ⟨heq, Or.inr hroot⟩
  · rcases hp with hp | hp | ⟨hp, hwalk⟩
    · exact Or.inl hp
    · rw [h.visiting] at hp
      exact Or.inr (Finset.mem_singleton.mp hp)
    · exact absurd (h.visited ▸ hp) (World.walkable_iff.mp hwalk).2

/-- **A walk that ends** leaves a node for every module it should, and has excluded cycles. -/
theorem walk_complete (hbehind : w.Behind loader) (h : Prepared w b)
    (hrun : visitModule loader extensions w.preludeImports fuel rootPath (w.walkDeps rootPath)
      (b, s) = .ok (b', s')) :
    Complete w b' ∧ ∀ p i, b.pathToId.lookup p = some i → b'.pathToId.lookup p = some i := by
  cases fuel with
  | zero => cases hrun
  | succ fuel =>
    have hvisiting : rootPath ∉ b.visiting := h.visiting.symm ▸ Finset.notMem_empty rootPath
    have hbegin : b.beginVisit rootPath = some { b with visiting := insert rootPath b.visiting } :=
      if_neg hvisiting
    rw [visitModule, hbegin] at hrun
    obtain ⟨⟨b₁, s₁⟩, hfold, hrun⟩ := Fallible.bind_eq_ok.mp hrun
    obtain ⟨rfl, -⟩ := Prod.mk.inj (Except.ok.inj hrun)
    obtain ⟨h₁, hgrown, hhandled⟩ :=
      visitDeps_tracks hbehind (fun _ _ _ _ _ h hv hr => visit_tracks hbehind h hv hr)
      ReflTransGen.refl (fun q hq => hq) h.enter hfold
    have hcomplete := h₁.complete hhandled
    exact ⟨⟨hcomplete.indexed.of_nodes rfl rfl, hcomplete.registered_iff, hcomplete.ast_iff,
      hcomplete.acyclic⟩, hgrown.lookup⟩

theorem walk_cyclic (hbehind : w.Behind loader) (h : Prepared w b)
    (hrun : visitModule loader extensions w.preludeImports fuel rootPath (w.walkDeps rootPath)
      (b, s) = .error (some (.cyclicDependency visiting target))) :
    Reported w visiting := by
  cases fuel with
  | zero => cases hrun
  | succ fuel =>
    have hvisiting : rootPath ∉ b.visiting := h.visiting.symm ▸ Finset.notMem_empty rootPath
    have hbegin : b.beginVisit rootPath = some { b with visiting := insert rootPath b.visiting } :=
      if_neg hvisiting
    have hstacked : Stacked w b rootPath := by
      intro x hx
      rw [h.visiting] at hx
      cases hx
    rw [visitModule, hbegin] at hrun
    rcases Fallible.bind_eq_error.mp hrun with hfold | ⟨⟨b₁, s₁⟩, -, hrun⟩
    · exact visitDeps_cyclic hbehind (fun b s q v t h hv hnew hs hr => visit_cyclic hbehind h hv hnew hs hr)
        ReflTransGen.refl (fun q hq => hq) h.enter (fun b₁ q hb₁ hedge => hstacked.push hb₁ hedge) hfold
    · cases hrun

end

end ShapeLang.Graph
