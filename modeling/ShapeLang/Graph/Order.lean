import ShapeLang.Graph.Dependencies
import ShapeLang.Lib.Cycles

/-!
# The order of the module graph

`topo_dfs` is a postorder over the dependencies that does not look for cycles. Its order is right
exactly where the dependencies have no cycle. The walk shows that they have none among the imports
it follows, and says nothing of others: a native extension, or an overlay that is not visited,
depends on the prelude and on its imports without having been walked.
-/

namespace ShapeLang.Graph

open ShapeLang.Lib
open Relation Postorder

/-! ## The sort -/

/-- Every node but the root, once, behind its dependencies. -/
structure ModuleGraph.Ordered (g : ModuleGraph) : Prop where
  nodup : g.topoOrder.Nodup
  mem_iff : ∀ i, i ∈ g.topoOrder ↔ i < g.nodes.length ∧ i ≠ g.rootId
  precedes : ∀ i ∈ g.topoOrder, ∀ n, g.nodes[i]? = some n → ∀ d ∈ n.dependencies, Precedes g.topoOrder d i

def nodeDependencies (nodes : List ModuleNode) (i : ModuleId) : List ModuleId :=
  match nodes[i]? with
  | some n => n.dependencies
  | none => []

def withoutRoot (rootId : ModuleId) (m : Marks ModuleId) : TopoState :=
  ⟨m.visited, m.order.filter (· ≠ rootId)⟩

section

variable {nodes : List ModuleNode} {rootId : ModuleId}

theorem foldlM_withoutRoot (rootId : ModuleId) (f : TopoState → ModuleId → Option TopoState)
    (g : Marks ModuleId → ModuleId → Option (Marks ModuleId)) (ids : List ModuleId)
    (h : ∀ i ∈ ids, ∀ m, f (withoutRoot rootId m) i = (g m i).map (withoutRoot rootId))
    (m : Marks ModuleId) :
    ids.foldlM f (withoutRoot rootId m) = (ids.foldlM g m).map (withoutRoot rootId) := by
  induction ids generalizing m with
  | nil => rfl
  | cons i ids ih =>
    obtain ⟨hi, hids⟩ := List.forall_mem_cons.mp h
    rw [List.foldlM_cons, List.foldlM_cons, hi]
    cases g m i with
    | none => rfl
    | some m' => exact ih hids m'

variable {i : ModuleId}

theorem nodeDependencies_eq {n : ModuleNode} (hn : nodes[i]? = some n) :
    nodeDependencies nodes i = n.dependencies := by
  unfold nodeDependencies
  rw [hn]

/-- The sort is the postorder, with the root left out. -/
theorem topoDfs_eq (hbounds : ∀ i, ∀ d ∈ nodeDependencies nodes i, d < nodes.length) (fuel : Nat)
    (m : Marks ModuleId) (hi : i < nodes.length) :
    topoDfs nodes rootId fuel (withoutRoot rootId m) i =
      (if i ∈ m.visited then some m else visit (nodeDependencies nodes) fuel m i).map
        (withoutRoot rootId) := by
  induction fuel generalizing m i with
  | zero =>
    rw [topoDfs, visit]
    show (if i ∈ m.visited then some (withoutRoot rootId m) else none) = _
    split <;> rfl
  | succ fuel ih =>
    rw [topoDfs, visit]
    show (if i ∈ m.visited then some (withoutRoot rootId m) else _) = _
    split
    · rfl
    -- the node is there, and its dependencies are sorted before it is appended
    · obtain ⟨n, hn⟩ : ∃ n, nodes[i]? = some n := ⟨_, List.getElem?_eq_getElem hi⟩
      have hfold := foldlM_withoutRoot rootId (topoDfs nodes rootId fuel)
        (fun s c => if c ∈ s.visited then some s else visit (nodeDependencies nodes) fuel s c)
          n.dependencies
        (fun d hd m => ih m (hbounds i d (nodeDependencies_eq hn ▸ hd)))
          { m with visited := insert i m.visited }
      rw [hn, nodeDependencies_eq hn]
      show (List.foldlM (topoDfs nodes rootId fuel)
        (withoutRoot rootId { m with visited := insert i m.visited }) n.dependencies).bind _ = _
      rw [hfold]
      cases List.foldlM (fun s c => if c ∈ s.visited then some s else visit
        (nodeDependencies nodes) fuel s c)
        { m with visited := insert i m.visited } n.dependencies with
      | none => rfl
      | some m' =>
        show some (if i = rootId then withoutRoot rootId m' else _) =
          some (withoutRoot rootId { m' with order := m'.order ++ [i] })
        unfold withoutRoot
        dsimp only
        rw [List.filter_append]
        -- the root is visited like the others but not appended
        split
        · next heq => simp [heq]
        · next hne => simp [hne]

/-- The dependencies without those of a node on itself. -/
def properDependencies (nodes : List ModuleNode) (i : ModuleId) : List ModuleId :=
  (nodeDependencies nodes i).filter (· ≠ i)

theorem computeTopoOrder_eq (hbounds : ∀ i, ∀ d ∈ nodeDependencies nodes i, d < nodes.length)
    (hid : ∀ (i : ModuleId) (n : ModuleNode), nodes[i]? = some n → n.id = i) (rootId : ModuleId) :
    computeTopoOrder nodes rootId =
      (visitAll (visit (properDependencies nodes) nodes.length) (List.range nodes.length) ⟨∅, []⟩).map
        fun m => m.order.filter (· ≠ rootId) := by
  -- the loop over the nodes is a loop over the indices
  have hids : nodes.map ModuleNode.id = List.range nodes.length := by
    refine List.ext_getElem? fun i => ?_
    rw [List.getElem?_map]
    rcases Nat.lt_or_ge i nodes.length with hi | hi
    · rw [List.getElem?_range hi, List.getElem?_eq_getElem hi]
      exact congrArg some (hid i nodes[i] (List.getElem?_eq_getElem hi))
    · rw [List.getElem?_eq_none hi, List.getElem?_eq_none (by simpa using hi)]
      rfl
  have hfold := foldlM_withoutRoot rootId (topoDfs nodes rootId nodes.length)
    (fun s c => if c ∈ s.visited then some s else visit (nodeDependencies nodes) nodes.length s c)
    (List.range nodes.length)
    (fun i hi m => topoDfs_eq hbounds nodes.length m (List.mem_range.mp hi)) ⟨∅, []⟩
  have hsort : nodes.foldlM (fun s node => topoDfs nodes rootId nodes.length s node.id) ⟨∅, []⟩ =
      (List.range nodes.length).foldlM (topoDfs nodes rootId nodes.length) ⟨∅, []⟩ := by
    rw [← hids, List.foldlM_map]
  -- a node that depends on itself is passed over, since it is marked when it is entered
  have hproper : visit (properDependencies nodes) nodes.length = visit
      (nodeDependencies nodes) nodes.length :=
    (visit_filter_self nodes.length).symm
  unfold computeTopoOrder visitAll
  rw [hsort, hproper]
  show ((List.range nodes.length).foldlM (topoDfs nodes rootId nodes.length)
    (withoutRoot rootId ⟨∅, []⟩)).map _ = _
  rw [hfold, Option.map_map]
  rfl

/-- A dependency between two nodes that are sorted. -/
def SortedEdge (nodes : List ModuleNode) (rootId i j : ModuleId) : Prop :=
  i ≠ rootId ∧ j ≠ rootId ∧ j ∈ nodeDependencies nodes i

/-- Without dependencies on the root and cycles of the others the postorder meets no cycle. -/
theorem properDependencies_acyclic (hroot : ∀ i, i ≠ rootId → rootId ∉ nodeDependencies nodes i)
    (hacyclic : ∀ i, ¬ TransGen (SortedEdge nodes rootId) i i) (i : ModuleId) :
    ¬ TransGen (Edge (properDependencies nodes)) i i := by
  have hproper : ∀ {a b}, Edge (properDependencies nodes) a b → b ∈ nodeDependencies nodes a ∧ b ≠ a := by
    intro a b hedge
    obtain ⟨hmem, hne⟩ := List.mem_filter.mp hedge
    exact ⟨hmem, of_decide_eq_true hne⟩
  -- nothing leads from another node to the root
  have hstay : ∀ {a b}, a ≠ rootId → ReflTransGen (Edge (properDependencies nodes)) a b →
      b ≠ rootId ∧ ReflTransGen (SortedEdge nodes rootId) a b := by
    intro a b ha hpath
    induction hpath with
    | refl => exact ⟨ha, .refl⟩
    | @tail b c _ hedge ih =>
      obtain ⟨hb, hpath⟩ := ih
      obtain ⟨hmem, -⟩ := hproper hedge
      have hc : c ≠ rootId := by
        rintro rfl
        exact hroot b hb hmem
      exact ⟨hc, hpath.tail ⟨hb, hc, hmem⟩⟩
  intro hcycle
  obtain ⟨j, hedge, hback⟩ := TransGen.head'_iff.mp hcycle
  obtain ⟨hmem, hne⟩ := hproper hedge
  by_cases hi : i = rootId
  · subst hi
    exact (hstay hne hback).1 rfl
  · have hj : j ≠ rootId := by
      rintro rfl
      exact hroot i hi hmem
    exact hacyclic i (.head' ⟨hi, hj, hmem⟩ (hstay hj hback).2)

theorem idxOf_lt_of_precedes {order : List ModuleId} (hnodup : order.Nodup) {j : ModuleId}
    (h : Precedes order i j) :
    order.idxOf i < order.idxOf j := by
  obtain ⟨l₁, l₂, rfl, hi, hj⟩ := List.cons_sublist_iff.mp h
  have hj₂ : j ∈ l₂ := List.singleton_sublist.mp hj
  have hj₁ : j ∉ l₁ := fun hmem => (List.nodup_append.mp hnodup).2.2 j hmem j hj₂ rfl
  rw [List.idxOf_append_of_mem hi, List.idxOf_append_of_notMem hj₁]
  have hlt := List.idxOf_lt_length_of_mem hi
  omega

/-- **The order is right** exactly if no node depends on the root and no nodes depend on each other. -/
theorem ordered_iff (hbounds : ∀ i, ∀ d ∈ nodeDependencies nodes i, d < nodes.length)
    (hid : ∀ (i : ModuleId) (n : ModuleNode), nodes[i]? = some n → n.id = i) {g : ModuleGraph}
    (hnodes : g.nodes = nodes) (hroot : g.rootId = rootId)
    (horder : computeTopoOrder nodes rootId = some g.topoOrder) :
    g.Ordered ↔ (∀ i, i ≠ rootId → rootId ∉ nodeDependencies nodes i) ∧
      ∀ i, ¬ TransGen (SortedEdge nodes rootId) i i := by
  subst hnodes hroot
  constructor
  -- a right order puts the dependencies of every sorted node before it: they cannot be the root
  · intro hordered
    have hprecedes : ∀ {i j}, i ≠ g.rootId → j ∈ nodeDependencies g.nodes i → Precedes g.topoOrder j i := by
      intro i j hi hj
      unfold nodeDependencies at hj
      cases hn : g.nodes[i]? with
      | none =>
        rw [hn] at hj
        cases hj
      | some n =>
        rw [hn] at hj
        have hlt := (List.getElem?_eq_some_iff.mp hn).1
        exact hordered.precedes i ((hordered.mem_iff i).mpr ⟨hlt, hi⟩) n hn j hj
    refine ⟨fun i hi hmem => ?_, fun i hcycle => ?_⟩
    · have hin : g.rootId ∈ g.topoOrder := (hprecedes hi hmem).subset List.mem_cons_self
      exact ((hordered.mem_iff _).mp hin).2 rfl
    -- and along a cycle the positions would go down for ever
    · have hlt : ∀ {a b}, TransGen (SortedEdge g.nodes g.rootId) a b → g.topoOrder.idxOf b <
          g.topoOrder.idxOf a := by
        intro a b hpath
        induction hpath with
        | single hedge => exact idxOf_lt_of_precedes hordered.nodup (hprecedes hedge.1 hedge.2.2)
        | tail _ hedge ih =>
          exact (idxOf_lt_of_precedes hordered.nodup (hprecedes hedge.1 hedge.2.2)).trans ih
      exact Nat.lt_irrefl _ (hlt hcycle)
  -- without such dependencies the postorder is right, and leaving out the root keeps it right
  · rintro ⟨hroot, hacyclic⟩
    rw [computeTopoOrder_eq hbounds hid] at horder
    obtain ⟨m, hrun, hm⟩ := Option.map_eq_some_iff.mp horder
    have hclosed : ∀ i ∈ List.range g.nodes.length, ∀ d ∈ properDependencies g.nodes i,
        d ∈ List.range g.nodes.length :=
      fun i _ d hd => List.mem_range.mpr (hbounds i d (List.mem_of_mem_filter hd))
    obtain ⟨hnodup, hmem, hprecedes⟩ := visitAll_ordered hclosed
      (fun i _ => properDependencies_acyclic hroot hacyclic i) (fun i => Iff.rfl) hrun
    have hiff : ∀ i, i ∈ g.topoOrder ↔ i < g.nodes.length ∧ i ≠ g.rootId := by
      intro i
      rw [← hm, List.mem_filter, hmem, List.mem_range]
      simp
    refine ⟨hm ▸ hnodup.filter _, hiff, fun i hi n hn d hd => ?_⟩
    obtain ⟨hlt, hi⟩ := (hiff i).mp hi
    -- the dependency is neither the root nor the node itself
    have hdep : d ∈ nodeDependencies g.nodes i := nodeDependencies_eq hn ▸ hd
    have hd₀ : d ≠ g.rootId := by
      rintro rfl
      exact hroot i hi hdep
    have hself : d ≠ i := by
      rintro rfl
      exact hacyclic d (.single ⟨hi, hi, hdep⟩)
    have hsub := hprecedes i ((hmem i).mpr (List.mem_range.mpr hlt)) d
      (List.mem_filter.mpr ⟨hdep, decide_eq_true hself⟩)
    show [d, i].Sublist g.topoOrder
    rw [← hm]
    have hfilter := hsub.filter (· ≠ g.rootId)
    simpa [hd₀, hi] using hfilter

end

/-! ## What the walk has looked at -/

namespace World

variable (w : World)

/-- An import, written or of the prelude, that the walk follows. -/
def Followed (p q : String) : Prop := w.Walked p ∧ Edge w.children p q

/-- A written import of one visited module by another. -/
def ExplicitImport (p q : String) : Prop := w.Walked p ∧ w.walkable q = true ∧ q ∈ w.imports p

def ExplicitCycle : Prop := ∃ p, TransGen w.ExplicitImport p p

/-- A prelude module leads by written imports to a module that is given the prelude on the walk. -/
def PreludeLeadsOut : Prop :=
  ∃ s ∈ w.preludeImports, w.walkable s = true ∧ ∃ t, ReflTransGen w.ExplicitImport s t ∧
    (t = rootPath ∨ t ∉ w.preludeImports)

/-- Nothing that the walk has not followed spoils the order: no module depends on the root, and no
dependency outside the walk closes a cycle. -/
structure OutsideSafe : Prop where
  root : ∀ p, p ≠ rootPath → ¬ w.DependsOn p rootPath
  cycle : ∀ p q, w.Inner p q → ¬ w.Followed p q → ¬ ReflTransGen w.Inner q p

end World

section

variable {w : World}

variable {p q : String}

theorem World.mem_walkDeps :
    q ∈ w.walkDeps p ↔ q ∈ w.imports p ∨
      (q ∈ w.preludeImports ∧ (p = rootPath ∨ p ∉ w.preludeImports)) := by
  unfold World.walkDeps subDeps
  split
  · next hroot => simp [mem_addPreludePaths, hroot]
  · next hroot =>
    split
    · next hprelude => simp [hroot, hprelude, World.imports]
    · next hprelude => simp [mem_addPreludePaths, hprelude, World.imports]

theorem World.followed_iff :
    w.Followed p q ↔ w.Walked p ∧ w.walkable q = true ∧
      (q ∈ w.imports p ∨ (q ∈ w.preludeImports ∧ (p = rootPath ∨ p ∉ w.preludeImports))) := by
  constructor
  · rintro ⟨hwalked, hedge⟩
    obtain ⟨hdep, hwalk⟩ := (World.mem_children hwalked.visits).mp hedge
    exact ⟨hwalked, hwalk, World.mem_walkDeps.mp hdep⟩
  · rintro ⟨hwalked, hwalk, hdep⟩
    exact ⟨hwalked, (World.mem_children hwalked.visits).mpr ⟨World.mem_walkDeps.mpr hdep, hwalk⟩⟩

theorem World.ExplicitImport.followed (h : w.ExplicitImport p q) : w.Followed p q :=
  World.followed_iff.mpr ⟨h.1, h.2.1, Or.inl h.2.2⟩

theorem World.walked_of_explicit (hp : w.Walked p) (h : ReflTransGen w.ExplicitImport p q) :
    w.Walked q := by
  induction h with
  | refl => exact hp
  | tail _ hedge ih => exact ih.tail hedge.followed.2

/-- **Where a cycle of the walk comes from**: written imports alone, or a prelude module that leads out. -/
theorem World.followed_cycle_iff :
    (∃ p, TransGen w.Followed p p) ↔ w.ExplicitCycle ∨ w.PreludeLeadsOut := by
  constructor
  · rintro ⟨p, hcycle⟩
    have hcut : ∀ a b, w.Followed a b → w.ExplicitImport a b ∨
        ((a = rootPath ∨ a ∉ w.preludeImports) ∧ (b ∈ w.preludeImports ∧ w.walkable b = true)) := by
      intro a b hedge
      obtain ⟨hwalked, hwalk, himport | ⟨hprelude, htakes⟩⟩ := World.followed_iff.mp hedge
      · exact Or.inl ⟨hwalked, hwalk, himport⟩
      · exact Or.inr ⟨htakes, hprelude, hwalk⟩
    rcases Cycles.cycle_cut hcut hcycle with hexplicit | ⟨s, t, ⟨hprelude, hwalk⟩, hpath, htakes⟩
    · exact Or.inl ⟨p, hexplicit⟩
    · exact Or.inr ⟨s, hprelude, hwalk, t, hpath, htakes⟩
  · rintro (⟨p, hcycle⟩ | ⟨s, hprelude, hwalk, t, hpath, htakes⟩)
    · exact ⟨p, hcycle.lift id fun _ _ hedge => hedge.followed⟩
    · -- the root takes the prelude, so the prelude module is walked, and the walk comes back to it from `t`
      have hs : w.Walked s := .single ((World.mem_children (Or.inl rfl)).mpr
        ⟨World.mem_walkDeps.mpr (Or.inr ⟨hprelude, Or.inl rfl⟩), hwalk⟩)
      have hback : w.Followed t s :=
        World.followed_iff.mpr ⟨World.walked_of_explicit hs hpath, hwalk, Or.inr ⟨hprelude, htakes⟩⟩
      have hforth : ReflTransGen w.Followed s t :=
        ReflTransGen.lift id (fun _ _ (hedge : w.ExplicitImport _ _) => hedge.followed) s t hpath
      exact ⟨t, .head' hback hforth⟩

theorem Complete.no_followed_cycle {b : GraphBuilder} (h : Complete w b) :
    ¬ ∃ p, TransGen w.Followed p p := by
  rintro ⟨p, hcycle⟩
  obtain ⟨q, hedge, -⟩ := TransGen.head'_iff.mp hcycle
  exact h.acyclic p hedge.1 (hcycle.lift id fun _ _ hedge => hedge.2)

theorem Reported.followed_cycle {visiting : Finset String} (h : Reported w visiting) :
    ∃ p, TransGen w.Followed p p := by
  obtain ⟨p, hcycle⟩ := h.cycle
  exact ⟨p, hcycle.lift id fun a b hedge => ⟨h.walked a hedge.1, hedge.2.2⟩⟩

/-- Where the walk has found no cycle, a cycle of the dependencies has an edge that it did not follow. -/
theorem Complete.acyclic_iff {b : GraphBuilder} (h : Complete w b) :
    (∀ p, ¬ TransGen w.Inner p p) ↔ ∀ p q, w.Inner p q → ¬ w.Followed p q → ¬ ReflTransGen w.Inner q p := by
  refine Cycles.acyclic_iff_guarded fun p hcycle => h.no_followed_cycle ⟨p, ?_⟩
  exact hcycle.lift id fun _ _ hedge => hedge.2

end

/-! ## From nodes to paths -/

section

variable {w : World} {b : GraphBuilder} {structured : List PreludeImport}

theorem getElem?_finished (b : GraphBuilder) (preludeImports : List String)
    (structured : List PreludeImport) (i : ModuleId) :
    ((b.nodes.map (resolveNode b)).map (addPrelude b preludeImports structured))[i]? =
      (b.nodes[i]?).map (finishNode b preludeImports structured) := by
  rw [List.map_map, List.getElem?_map]
  rfl

/-- The nodes after steps 4 and 5. -/
def finishedNodes (b : GraphBuilder) (preludeImports : List String) (structured : List PreludeImport) :
    List ModuleNode :=
  (b.nodes.map (resolveNode b)).map (addPrelude b preludeImports structured)

/-- A dependency of a finished node is one of its module. -/
theorem Complete.of_nodeDependency (h : Complete w b)
    (hstructured : w.structuredPaths = structured.map PreludeImport.canonicalPath) {i j : ModuleId}
    (hmem : j ∈ nodeDependencies (finishedNodes b w.preludeImports structured) i) :
    ∃ p q, b.pathToId.lookup p = some i ∧ b.pathToId.lookup q = some j ∧ w.DependsOn p q := by
  unfold nodeDependencies finishedNodes at hmem
  rw [getElem?_finished] at hmem
  cases hn : b.nodes[i]? with
  | none =>
    rw [hn] at hmem
    cases hmem
  | some n =>
    rw [hn] at hmem
    obtain ⟨q, hq, -⟩ := (mem_finishNode_dependencies (h.indexed.bare i n hn) _ _ j).mp hmem
    obtain ⟨m, hm, rfl⟩ := (h.indexed.lookup_iff q j).mp hq
    exact ⟨n.canonicalPath, m.canonicalPath, (h.indexed.lookup_iff _ i).mpr ⟨n, hn, rfl⟩, hq,
      (h.dependsOn_iff hstructured hn hm).mp hmem⟩

theorem Complete.nodeDependency (h : Complete w b)
    (hstructured : w.structuredPaths = structured.map PreludeImport.canonicalPath) {p q : String}
    (hdepends : w.DependsOn p q) : ∃ i j, b.pathToId.lookup p = some i ∧ b.pathToId.lookup q = some j ∧
      j ∈ nodeDependencies (finishedNodes b w.preludeImports structured) i := by
  have hnode : ∀ p, w.Registered p → ∃ i n, b.pathToId.lookup p = some i ∧ b.nodes[i]? = some n ∧
      n.canonicalPath = p := by
    intro p hp
    obtain ⟨i, hi⟩ := Option.isSome_iff_exists.mp (h.indexed.isSome_iff.mp ((h.registered_iff p).mpr hp))
    obtain ⟨n, hn, hpath⟩ := (h.indexed.lookup_iff p i).mp hi
    exact ⟨i, n, hi, hn, hpath⟩
  obtain ⟨i, n, hi, hn, rfl⟩ := hnode p hdepends.1
  obtain ⟨j, m, hj, hm, rfl⟩ := hnode q hdepends.2.1
  refine ⟨i, j, hi, hj, ?_⟩
  unfold nodeDependencies finishedNodes
  rw [getElem?_finished, hn]
  exact (h.dependsOn_iff hstructured hn hm).mpr hdepends

/-- The dependencies of the finished nodes, read as dependencies of modules. -/
theorem Complete.ordered_conditions (h : Complete w b)
    (hstructured : w.structuredPaths = structured.map PreludeImport.canonicalPath) {rootId : ModuleId}
    (hroot : b.pathToId.lookup rootPath = some rootId) :
    ((∀ i, i ≠ rootId → rootId ∉ nodeDependencies (finishedNodes b w.preludeImports structured) i) ∧
        ∀ i, ¬ TransGen (SortedEdge (finishedNodes b w.preludeImports structured) rootId) i i) ↔
      (∀ p, p ≠ rootPath → ¬ w.DependsOn p rootPath) ∧ ∀ p, ¬ TransGen w.Inner p p := by
  -- a position and a path name the same module
  have hinj : ∀ {p q i}, b.pathToId.lookup p = some i → b.pathToId.lookup q = some i → p = q := by
    intro p q i hp hq
    obtain ⟨n, hn, rfl⟩ := (h.indexed.lookup_iff p i).mp hp
    obtain ⟨m, hm, rfl⟩ := (h.indexed.lookup_iff q i).mp hq
    rw [hn] at hm
    rw [Option.some.inj hm]
  have hrootpath : ∀ {p i}, b.pathToId.lookup p = some i → (p = rootPath ↔ i = rootId) := by
    intro p i hp
    constructor
    · rintro rfl
      exact Option.some.inj (hp.symm.trans hroot)
    · rintro rfl
      exact hinj hp hroot
  let idOf : String → ModuleId := fun p => (b.pathToId.lookup p).getD 0
  let pathOf : ModuleId → String := fun i => ((b.nodes[i]?).map ModuleNode.canonicalPath).getD ""
  have hid : ∀ {p i}, b.pathToId.lookup p = some i → idOf p = i ∧ pathOf i = p := by
    intro p i hp
    obtain ⟨n, hn, hpath⟩ := (h.indexed.lookup_iff p i).mp hp
    constructor
    · show (b.pathToId.lookup p).getD 0 = i
      rw [hp]
      rfl
    · show ((b.nodes[i]?).map ModuleNode.canonicalPath).getD "" = p
      rw [hn]
      exact hpath
  constructor
  · rintro ⟨hdep, hacyclic⟩
    refine ⟨fun p hp hdepends => ?_, fun p hcycle => hacyclic (idOf p) (hcycle.lift idOf ?_)⟩
    · obtain ⟨i, j, hi, hj, hmem⟩ := h.nodeDependency hstructured hdepends
      obtain rfl := Option.some.inj (hj.symm.trans hroot)
      exact hdep i (fun heq => hp ((hrootpath hi).mpr heq)) hmem
    · rintro p q ⟨hp, hq, hdepends⟩
      obtain ⟨i, j, hi, hj, hmem⟩ := h.nodeDependency hstructured hdepends
      show SortedEdge _ _ (idOf p) (idOf q)
      rw [(hid hi).1, (hid hj).1]
      exact ⟨fun heq => hp ((hrootpath hi).mpr heq), fun heq => hq ((hrootpath hj).mpr heq), hmem⟩
  · rintro ⟨hdep, hacyclic⟩
    refine ⟨fun i hi hmem => ?_, fun i hcycle => hacyclic (pathOf i) (hcycle.lift pathOf ?_)⟩
    · obtain ⟨p, q, hp, hq, hdepends⟩ := h.of_nodeDependency hstructured hmem
      obtain rfl := (hrootpath hq).mpr rfl
      exact hdep p (fun heq => hi ((hrootpath hp).mp heq)) hdepends
    · rintro i j ⟨hi, hj, hmem⟩
      obtain ⟨p, q, hp, hq, hdepends⟩ := h.of_nodeDependency hstructured hmem
      show w.Inner (pathOf i) (pathOf j)
      rw [(hid hp).2, (hid hq).2]
      exact ⟨fun heq => hi ((hrootpath hp).mp heq), fun heq => hj ((hrootpath hq).mp heq), hdepends⟩

theorem Complete.bounds (h : Complete w b)
    (hstructured : w.structuredPaths = structured.map PreludeImport.canonicalPath) (i : ModuleId) :
    ∀ d ∈ nodeDependencies (finishedNodes b w.preludeImports structured) i,
      d < (finishedNodes b w.preludeImports structured).length := by
  intro d hd
  obtain ⟨p, q, -, hq, -⟩ := h.of_nodeDependency hstructured hd
  obtain ⟨m, hm, -⟩ := (h.indexed.lookup_iff q d).mp hq
  have hlt := (List.getElem?_eq_some_iff.mp hm).1
  unfold finishedNodes
  rw [List.length_map, List.length_map]
  exact hlt

theorem Complete.finished_id (h : Complete w b) (i : ModuleId) (n : ModuleNode)
    (hn : (finishedNodes b w.preludeImports structured)[i]? = some n) : n.id = i := by
  unfold finishedNodes at hn
  rw [getElem?_finished] at hn
  obtain ⟨m, hm, rfl⟩ := Option.map_eq_some_iff.mp hn
  rw [finishNode_id]
  exact h.indexed.id_eq i m hm

end

/-! ## The build -/

section

variable {σ : Type} {loader : ModuleLoader σ} {source : String → Program}

theorem buildModuleGraph_eq {rootProgram : Program} {extensions : List ModuleExports}
    {preludeImports : List String} {fuel : Nat} {s : σ} {rootId : ModuleId} {b₀ : GraphBuilder}
    (hroot : addRoot rootProgram
      (extensions.foldl (registerExtension loader) (.new, (collectPreludeImports loader s).2)).1 =
        (rootId, b₀)) :
    buildModuleGraph loader rootProgram extensions preludeImports fuel s =
      visitModule loader extensions preludeImports fuel rootPath
        (addPreludePaths (extractImportPaths rootProgram) preludeImports)
        (b₀, (extensions.foldl (registerExtension loader)
          (.new, (collectPreludeImports loader s).2)).2) >>= fun state =>
        match computeTopoOrder
          (finishedNodes state.1 preludeImports (collectPreludeImports loader s).1) rootId with
        | none => .error none
        | some topoOrder => .ok ⟨finishedNodes state.1 preludeImports (collectPreludeImports loader s).1,
            state.1.pathToId, topoOrder, rootId, state.1.stdlibBootstrapModules⟩ := by
  unfold buildModuleGraph buildModuleGraphWithPreludeStructure
  dsimp only
  rw [hroot]
  rfl

/-- What a build that returns a graph or a cyclic dependency has shown of the modules. -/
theorem buildModuleGraph_spec (hserves : Serves loader source) (rootProgram : Program)
    (extensions : List ModuleExports) (preludeImports : List String) (fuel : Nat) (s : σ) {w : World}
    (hw : w = worldOf loader source rootProgram extensions preludeImports s) :
    (∀ g, buildModuleGraph loader rootProgram extensions preludeImports fuel s = .ok g →
      (¬ ∃ p, TransGen w.Followed p p) ∧ (g.Ordered ↔ w.OutsideSafe)) ∧
    ∀ visiting target, buildModuleGraph loader rootProgram extensions preludeImports fuel s =
      .error (some (.cyclicDependency visiting target)) → ∃ p, TransGen w.Followed p p := by
  have hprepared := prepared hserves rootProgram extensions preludeImports s
  have hbehind := worldOf_behind hserves rootProgram extensions preludeImports s
  have hupdated := addRoot_updated
    (Probing.registerAll hserves extensions Probing.new (collectPreludeImports loader s).2).indexed
      rootProgram
  have hprelude : w.preludeImports = preludeImports := by rw [hw]; rfl
  have hstructured : w.structuredPaths = (collectPreludeImports loader s).1.map
      PreludeImport.canonicalPath := by
    rw [hw]
    rfl
  have hdeps : addPreludePaths (extractImportPaths rootProgram) preludeImports = w.walkDeps rootPath := by
    rw [hw]
    rfl
  rw [← hw] at hprepared hbehind
  -- the builder and the loader as the walk finds them
  generalize hb₀ : addRoot rootProgram
    (extensions.foldl (registerExtension loader) (.new, (collectPreludeImports loader s).2)).1 = start at *
  obtain ⟨rootId, b₀⟩ := start
  generalize hs₀ : (extensions.foldl (registerExtension loader)
    (.new, (collectPreludeImports loader s).2)).2 = s₀ at *
  rw [buildModuleGraph_eq hb₀, hs₀, hdeps, ← hprelude]
  constructor
  -- the walk came to its end, and the sort is that of the dependencies it has left
  · intro g hg
    obtain ⟨⟨b, s'⟩, hwalk, hg⟩ := Fallible.bind_eq_ok.mp hg
    obtain ⟨hcomplete, hlookup⟩ := walk_complete hbehind hprepared hwalk
    have hroot : b.pathToId.lookup rootPath = some rootId := hlookup _ _ hupdated.lookup
    dsimp only at hg
    cases horder : computeTopoOrder
      (finishedNodes b w.preludeImports (collectPreludeImports loader s).1) rootId with
    | none =>
      rw [horder] at hg
      cases hg
    | some topoOrder =>
      rw [horder] at hg
      obtain rfl := Except.ok.inj hg
      refine ⟨hcomplete.no_followed_cycle, ?_⟩
      rw [ordered_iff (hcomplete.bounds hstructured) (hcomplete.finished_id) rfl rfl horder,
        hcomplete.ordered_conditions hstructured hroot, hcomplete.acyclic_iff]
      exact ⟨fun h => ⟨h.1, h.2⟩, fun h => ⟨h.root, h.cycle⟩⟩
  -- an error of the walk is a cycle it followed; the sort reports none
  · intro visiting target herror
    rcases Fallible.bind_eq_error.mp herror with hwalk | ⟨⟨b, s'⟩, -, herror⟩
    · exact (walk_cyclic hbehind hprepared hwalk).followed_cycle
    · dsimp only at herror
      split at herror <;> cases herror

/-- **The order of the graph and the cycles reported.** Let a build end with a graph or with a
cyclic dependency. Then the graph is in order, and the written imports of the visited modules have a
cycle wherever one is reported, exactly if

  * prelude modules lead by written imports to prelude modules only, unless there is a cycle of
    written imports anyway;
  * where the walk meets no cycle, no module depends on the root, and no dependency that the walk
    does not follow closes a cycle. -/
theorem ordered_and_cycles_explicit_iff (hserves : Serves loader source) (rootProgram : Program)
    (extensions : List ModuleExports) (preludeImports : List String) (fuel : Nat) (s : σ)
    (hended : ∀ e, buildModuleGraph loader rootProgram extensions preludeImports fuel s = .error e →
      ∃ visiting target, e = some (.cyclicDependency visiting target)) :
    ((∀ g, buildModuleGraph loader rootProgram extensions preludeImports fuel s = .ok g → g.Ordered) ∧
        ∀ visiting target, buildModuleGraph loader rootProgram extensions preludeImports fuel s =
            .error (some (.cyclicDependency visiting target)) →
          (worldOf loader source rootProgram extensions preludeImports s).ExplicitCycle) ↔
      ((worldOf loader source rootProgram extensions preludeImports s).PreludeLeadsOut →
          (worldOf loader source rootProgram extensions preludeImports s).ExplicitCycle) ∧
        (¬ (worldOf loader source rootProgram extensions preludeImports s).ExplicitCycle →
          ¬ (worldOf loader source rootProgram extensions preludeImports s).PreludeLeadsOut →
          (worldOf loader source rootProgram extensions preludeImports s).OutsideSafe) := by
  generalize hw : worldOf loader source rootProgram extensions preludeImports s = w
  obtain ⟨hgraph, hcyclic⟩ :=
    buildModuleGraph_spec hserves rootProgram extensions preludeImports fuel s hw.symm
  -- the build has one outcome, and each half of the claim is about one of them
  cases hrun : buildModuleGraph loader rootProgram extensions preludeImports fuel s with
  | ok g =>
    obtain ⟨hnone, hordered⟩ := hgraph g hrun
    rw [World.followed_cycle_iff, not_or] at hnone
    constructor
    · intro h
      exact ⟨fun hleads => absurd hleads hnone.2, fun _ _ => hordered.mp (h.1 g rfl)⟩
    · intro h
      refine ⟨fun g' hg' => ?_, fun _ _ herror => (by cases herror)⟩
      obtain rfl := Except.ok.inj hg'
      exact hordered.mpr (h.2 hnone.1 hnone.2)
  | error e =>
    obtain ⟨visiting, target, rfl⟩ := hended e hrun
    have hcycle := hcyclic visiting target hrun
    rw [World.followed_cycle_iff] at hcycle
    constructor
    · intro h
      exact ⟨fun _ => h.2 visiting target rfl, fun hexplicit => absurd (h.2 visiting target rfl) hexplicit⟩
    · intro h
      exact ⟨fun _ hg => (by cases hg), fun _ _ _ => hcycle.elim id h.1⟩

end

/-! ## Small projects -/

/-- A program that imports whole modules. -/
def importing (paths : List String) : Program :=
  ⟨paths.map fun path => .importStmt ⟨.wholeModule path none, path⟩⟩

/-- A loader with a fixed set of modules, some of them overlays of extensions and the others of the
library. -/
def libraryLoader (modules : List (String × Program)) (overlays : List String) : ModuleLoader Unit where
  hasExtensionModule p := decide (p ∈ overlays)
  embeddedStdlibModulePaths := modules.map Prod.fst
  resolvesModulePath _ := false
  loadModule _ p := (match modules.find? (·.1 = p) with
    | some module => .ok ⟨module.2, if p ∈ overlays then .extension else .embeddedStdlib⟩
    | none => .error "module not found", ())

def librarySource (modules : List (String × Program)) (p : String) : Program :=
  ((modules.find? (·.1 = p)).map Prod.snd).getD ⟨[]⟩

theorem libraryLoader_serves (modules : List (String × Program)) (overlays : List String) :
    Serves (libraryLoader modules overlays) (librarySource modules) := by
  intro s p m s' hload
  unfold libraryLoader at hload
  unfold librarySource
  dsimp only at hload
  cases hfind : modules.find? (·.1 = p) with
  | none =>
    rw [hfind] at hload
    cases hload
  | some module =>
    rw [hfind] at hload
    obtain ⟨hm, -⟩ := Prod.mk.inj hload
    obtain rfl := Except.ok.inj hm
    rfl

/-- A prelude of one module, and a library module that uses an extension with an overlay. -/
def overlaidModules : List (String × Program) :=
  [("std::core::prelude", importing ["std::core::a"]), ("std::core::a", importing []),
    ("util", importing ["ext"]), ("ext", importing [])]

def overlaidWorld : World :=
  worldOf (libraryLoader overlaidModules ["ext"]) (librarySource overlaidModules) (importing ["util"])
    [⟨"ext", [], ∅⟩] ["std::core::a"] ()

def overlaidRank (p : String) : Nat :=
  if p = rootPath then 4 else if p = "util" then 3 else if p = "ext" then 2
  else if p = "std::core::a" then 0 else 1

theorem overlaidWorld_imports {p q : String} (h : q ∈ overlaidWorld.imports p) :
    (p = rootPath ∧ q = "util") ∨ (p = "util" ∧ q = "ext") ∨
    (p = "std::core::prelude" ∧ q = "std::core::a") := by
  by_cases hroot : p = rootPath
  · subst hroot
    exact Or.inl ⟨rfl, List.mem_singleton.mp h⟩
  have hprogram : overlaidWorld.program p = librarySource overlaidModules p := if_neg hroot
  rw [World.imports, hprogram, librarySource] at h
  by_cases hprelude : p = "std::core::prelude"
  · subst hprelude
    exact Or.inr (Or.inr ⟨rfl, List.mem_singleton.mp h⟩)
  by_cases hutil : p = "util"
  · subst hutil
    exact Or.inr (Or.inl ⟨rfl, List.mem_singleton.mp h⟩)
  -- the other two modules, and what is not in the library, import nothing
  rw [overlaidModules, List.find?_cons_of_neg (by simpa using Ne.symm hprelude), List.find?_cons] at h
  split at h
  · cases h
  · rw [List.find?_cons_of_neg (by simpa using Ne.symm hutil), List.find?_cons] at h
    split at h <;> cases h

/-- The dependencies go down, from the root to the prelude. -/
theorem overlaidWorld_descends {p q : String} (h : overlaidWorld.DependsOn p q) :
    overlaidRank q < overlaidRank p := by
  obtain ⟨-, -, ⟨-, himport⟩ | ⟨htakes, hq⟩⟩ := h
  · rcases overlaidWorld_imports himport with ⟨rfl, rfl⟩ | ⟨rfl, rfl⟩ | ⟨rfl, rfl⟩ <;> decide
  · obtain rfl : q = "std::core::a" := List.mem_singleton.mp hq
    have hother : p ≠ "std::core::a" := by
      rintro rfl
      revert htakes
      decide
    show 0 < overlaidRank p
    unfold overlaidRank
    split_ifs <;> first | exact absurd ‹_› hother | omega

/-- A root over a module that uses an overlaid extension, all of them with the prelude. -/
theorem ordered_overlaidModules :
    (buildModuleGraph (libraryLoader overlaidModules ["ext"]) (importing ["util"]) [⟨"ext", [], ∅⟩]
      ["std::core::a"] 4
        ()).isOk = true ∧
      ∀ g, buildModuleGraph (libraryLoader overlaidModules ["ext"]) (importing ["util"]) [⟨"ext", [], ∅⟩]
        ["std::core::a"] 4 () = .ok g → g.Ordered := by
  have hok : (buildModuleGraph (libraryLoader overlaidModules ["ext"]) (importing ["util"]) [⟨"ext", [], ∅⟩]
      ["std::core::a"] 4 ()).isOk = true := by
    decide +kernel
  have hiff := ordered_and_cycles_explicit_iff (libraryLoader_serves overlaidModules ["ext"])
      (importing ["util"])
    [⟨"ext", [], ∅⟩] ["std::core::a"] 4 () (fun e herror => by rw [herror] at hok; cases hok)
  have hfalls : ∀ p q, ReflTransGen overlaidWorld.Inner p q → overlaidRank q ≤ overlaidRank p := by
    intro p q hpath
    induction hpath with
    | refl => exact Nat.le_refl _
    | tail _ hedge ih => exact (Nat.le_of_lt (overlaidWorld_descends hedge.2.2)).trans ih
  refine ⟨hok, (hiff.mpr ⟨?_, fun _ _ => ⟨fun p hp hdepends => ?_, fun p q hedge _ hback => ?_⟩⟩).1⟩
  · -- the one prelude module imports nothing, so that nothing leads out of the prelude
    rintro ⟨s, hs, -, t, hpath, hout⟩
    obtain rfl : s = "std::core::a" := List.mem_singleton.mp hs
    rcases ReflTransGen.cases_head hpath with rfl | ⟨q, hedge, -⟩
    · rcases hout with hroot | hout
      · exact absurd hroot (by decide)
      · exact absurd hs hout
    · rcases overlaidWorld_imports hedge.2.2 with ⟨h, -⟩ | ⟨h, -⟩ | ⟨h, -⟩ <;> exact absurd h (by decide)
  · have hlt : 4 < overlaidRank p := overlaidWorld_descends hdepends
    unfold overlaidRank at hlt
    split_ifs at hlt <;> omega
  · have hlt := overlaidWorld_descends hedge.2.2
    exact absurd (hfalls q p hback) (Nat.not_le.mpr hlt)

def usesExtension : List (String × Program) :=
  [("std::core::prelude", importing ["std::core::a"]), ("std::core::a", importing ["ext"]),
    ("ext", importing [])]

def usesSource : List (String × Program) :=
  [("std::core::prelude", importing ["std::core::a"]), ("std::core::a", importing ["std::core::b"]),
    ("std::core::b", importing [])]

def reportsCycle : Except (Option GraphBuildError) ModuleGraph → Bool
  | .error (some (.cyclicDependency _ _)) => true
  | _ => false

def usesSourceRank (p : String) : Nat :=
  if p = "std::core::prelude" then 2 else if p = "std::core::a" then 1 else 0

/-- The written imports go down from the prelude. -/
theorem usesSource_descends {p q : String}
    (h : q ∈ (worldOf (libraryLoader usesSource []) (librarySource usesSource) (importing []) []
      ["std::core::a"]
      ()).imports p) : usesSourceRank q < usesSourceRank p := by
  -- the root of this project imports nothing
  have himports : (worldOf (libraryLoader usesSource []) (librarySource usesSource) (importing [])
    [] ["std::core::a"]
      ()).imports p = if p = rootPath then [] else extractImportPaths (librarySource usesSource p) := by
    unfold World.imports
    show extractImportPaths (if p = rootPath then importing [] else librarySource usesSource p) = _
    split <;> rfl
  rw [himports] at h
  split at h
  · cases h
  -- the prelude, the module it uses, and the modules below
  · by_cases hprelude : p = "std::core::prelude"
    · subst hprelude
      obtain rfl : q = "std::core::a" := List.mem_singleton.mp h
      decide
    · by_cases ha : p = "std::core::a"
      · subst ha
        obtain rfl : q = "std::core::b" := List.mem_singleton.mp h
        decide
      · have hempty : extractImportPaths (librarySource usesSource p) = [] := by
          unfold librarySource usesSource
          rw [List.find?_cons_of_neg (by simpa using Ne.symm hprelude),
            List.find?_cons_of_neg (by simpa using Ne.symm ha), List.find?_cons]
          split <;> rfl
        rw [hempty] at h
        cases h

/-- The prelude module `std::core::a` uses an extension, whose overlay is not walked and is given
the prelude: each comes to depend on the other. Where it uses a source module, which is given the
prelude on the walk, a cycle is reported although the written imports have none. -/
theorem prelude_imports_break_order :
    (∃ g, buildModuleGraph (libraryLoader usesExtension ["ext"]) (importing []) [⟨"ext", [], ∅⟩]
      ["std::core::a"] 3 () =
        .ok g ∧ ¬ g.Ordered) ∧
      (∃ visiting target, buildModuleGraph (libraryLoader usesSource []) (importing []) []
        ["std::core::a"] 4 () =
        .error (some (.cyclicDependency visiting target))) ∧
      ¬ (worldOf (libraryLoader usesSource []) (librarySource usesSource) (importing []) [] ["std::core::a"]
        ()).ExplicitCycle := by
  -- the order and the dependencies of the first project, and the error of the second, evaluated
  have hgraph : (buildModuleGraph (libraryLoader usesExtension ["ext"]) (importing []) [⟨"ext", [], ∅⟩]
      ["std::core::a"] 3 ()).map (fun g => (g.topoOrder, g.nodes.map ModuleNode.dependencies)) =
        .ok ([2, 0], [[2], [2], [0]]) := by
    decide +kernel
  have herror : reportsCycle (buildModuleGraph (libraryLoader usesSource []) (importing []) []
    ["std::core::a"] 4 ()) =
      true := by
    decide +kernel
  refine ⟨?_, ?_, ?_⟩
  · obtain ⟨g, hg, heq⟩ := Fallible.map_eq_ok.mp hgraph
    obtain ⟨horder, hdeps⟩ := Prod.mk.inj heq
    refine ⟨g, hg, fun hordered => ?_⟩
    -- the node of the prelude module depends on node 0, which comes after it
    obtain ⟨n, hn, hd⟩ : ∃ n, g.nodes[2]? = some n ∧ n.dependencies = [0] := by
      have hget : (g.nodes.map ModuleNode.dependencies)[2]? = some [0] := by rw [hdeps]; rfl
      rw [List.getElem?_map] at hget
      exact Option.map_eq_some_iff.mp hget
    have hprecedes := hordered.precedes 2 (by rw [horder]; decide) n hn 0 (by rw [hd]; decide)
    rw [horder] at hprecedes
    exact absurd hprecedes (by unfold Precedes; decide)
  · unfold reportsCycle at herror
    split at herror
    · next visiting target hrun => exact ⟨visiting, target, hrun⟩
    · cases herror
  -- the ranks go down along the written imports
  · rintro ⟨p, hcycle⟩
    have hlt : ∀ {p q}, TransGen (worldOf (libraryLoader usesSource []) (librarySource usesSource)
      (importing []) []
        ["std::core::a"] ()).ExplicitImport p q → usesSourceRank q < usesSourceRank p := by
      intro p q hpath
      induction hpath with
      | single hedge => exact usesSource_descends hedge.2.2
      | tail _ hedge ih => exact (usesSource_descends hedge.2.2).trans ih
    exact Nat.lt_irrefl _ (hlt hcycle)

end ShapeLang.Graph
