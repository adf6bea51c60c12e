import ShapeLang.Packages.Resolver

/-!
# The order of the resolved packages

`resolve` looks for cycles and sorts by two separate searches, each over adjacency lists of its own:
the lists are computed anew from the metadata or the manifest of a package, in an order that nothing
specifies. Both describe one graph, `Depends`, so what the first search excludes the second relies
on.
-/

namespace ShapeLang.Packages

open ShapeLang.Lib Relation

section

variable {W V R : Type} [DecidableEq R] {host : Host W} {resolver : DependencyResolver}
  {semver : Semver V R}
  {order : HashOrder String}

/-! ## The graph -/

/-- The direct dependencies of a package by name: those in its metadata, or those in its manifest if
the metadata lists none. -/
def DependsOn (host : Host W) (w : W) (dep : ResolvedDependency) (d : String) : Prop :=
  d ∈ dep.dependencies ∨
    dep.dependencies = [] ∧ host.isDir w dep.path = true ∧
      ∃ specs, readDepDependencySpecs host w dep.path = some specs ∧ d ∈ specs.keys

/-- The dependency graph restricted to the resolved packages. -/
def Depends (host : Host W) (w : W) (resolved : HashMap String ResolvedDependency) (a b : String) : Prop :=
  ∃ dep, resolved.lookup a = some dep ∧ DependsOn host w dep b ∧ b ∈ resolved.keys

/-- Every package stands under its own name. -/
def Keyed (resolved : HashMap String ResolvedDependency) : Prop :=
  ∀ name dep, resolved.lookup name = some dep → dep.name = name

variable {point : List Nat} {w : W} {dep : ResolvedDependency} {names : List String} {d : String}

omit [DecidableEq R] in
theorem mem_filteredEdges :
    d ∈ filteredEdges host order point w dep names ↔ DependsOn host w dep d ∧ d ∈ names := by
  rw [filteredEdges, DependsOn]
  split
  · next hne =>
    rw [List.mem_filter, decide_eq_true_iff]
    exact and_congr_left fun _ => ⟨Or.inl, fun h => h.resolve_right fun h => hne h.1⟩
  · next hempty =>
    have hnil : dep.dependencies = [] := not_not.mp hempty
    have hleft : d ∉ dep.dependencies := by
      rw [hnil]
      exact List.not_mem_nil
    rw [or_iff_right hleft]
    split
    · next deps hdir hnames =>
      obtain ⟨specs, hspecs, rfl⟩ := Option.map_eq_some_iff.mp hnames
      rw [List.mem_filter, decide_eq_true_iff, (order.perm point specs.keys).mem_iff]
      refine and_congr_left fun _ => ⟨fun hd => ⟨hnil, hdir, specs, hspecs, hd⟩, ?_⟩
      rintro ⟨-, -, specs', hspecs', hd⟩
      obtain rfl := Option.some.inj (hspecs.symm.trans hspecs')
      exact hd
    · next hnone =>
      constructor
      · intro hd
        exact absurd hd List.not_mem_nil
      · rintro ⟨⟨-, hdir, specs, hspecs, -⟩, -⟩
        refine absurd ?_ (hnone (order.walk point specs.keys) hdir)
        rw [readDepDependencyNames, hspecs]
        rfl

variable (graph : HashMap String (List String))

theorem neighbors_insert (name a : String) (edges : List String) :
    neighbors (graph.insert name edges) a = if a = name then edges else neighbors graph a := by
  rw [neighbors]
  split
  · next heq =>
    rw [heq, AList.lookup_insert]
    rfl
  · next hne =>
    rw [AList.lookup_insert_ne hne]
    rfl

variable {a : String} {deps : List ResolvedDependency}

omit [DecidableEq R] in
/-- The adjacency lists hold what the packages depend on. -/
theorem mem_neighbors_adjacency (hnodup : (deps.map (·.name)).Nodup)
    (graph : HashMap String (List String)) :
    d ∈ neighbors (adjacency host order point w names deps graph) a ↔
      (∃ dep ∈ deps, dep.name = a ∧ DependsOn host w dep d ∧ d ∈ names) ∨
        a ∉ deps.map (·.name) ∧ d ∈ neighbors graph a := by
  have hfold : ∀ (deps : List ResolvedDependency) (k : Nat) (graph : HashMap String (List String)),
      (deps.map (·.name)).Nodup →
      (d ∈ neighbors ((deps.zipIdx k).foldl
          (fun graph p => graph.insert p.1.name
            (filteredEdges host order (p.2 :: point) w p.1 names)) graph) a ↔
        (∃ dep ∈ deps, dep.name = a ∧ DependsOn host w dep d ∧ d ∈ names) ∨
          a ∉ deps.map (·.name) ∧ d ∈ neighbors graph a) := by
    intro deps
    induction deps with
    | nil => simp
    | cons dep deps ih =>
      intro k graph hnodup
      obtain ⟨hnew, hnodup⟩ := List.nodup_cons.mp hnodup
      rw [List.zipIdx_cons, List.foldl_cons, ih _ _ hnodup, neighbors_insert]
      by_cases heq : a = dep.name
      · -- the other packages have other names
        subst heq
        have hnone : ¬ ∃ dep' ∈ deps, dep'.name = dep.name ∧ DependsOn host w dep' d ∧ d ∈ names := by
          rintro ⟨dep', hmem, hname, -⟩
          exact hnew (List.mem_map.mpr ⟨dep', hmem, hname⟩)
        rw [or_iff_right hnone, if_pos rfl, mem_filteredEdges]
        simp [hnew, hnone]
      · have hne : ¬ dep.name = a := fun h => heq h.symm
        simp [heq, hne]
  exact hfold deps 0 graph hnodup

omit [DecidableEq R] in
theorem mem_keys_adjacency (deps : List ResolvedDependency) (graph : HashMap String (List String)) :
    a ∈ (adjacency host order point w names deps graph).keys ↔ a ∈ deps.map (·.name) ∨ a ∈ graph.keys := by
  have hfold : ∀ (deps : List ResolvedDependency) (k : Nat) (graph : HashMap String (List String)),
      (a ∈ ((deps.zipIdx k).foldl
          (fun graph p => graph.insert p.1.name
            (filteredEdges host order (p.2 :: point) w p.1 names)) graph) ↔
        a ∈ deps.map (·.name) ∨ a ∈ graph) := by
    intro deps
    induction deps with
    | nil => simp
    | cons dep deps ih =>
      intro k graph
      rw [List.zipIdx_cons, List.foldl_cons, ih, AList.mem_insert, List.map_cons, List.mem_cons]
      tauto
  exact hfold deps 0 graph

/-! ## The packages of a map -/

/-- The packages in the order of a walk over the map. -/
theorem names_filterMap_lookup {resolved : HashMap String ResolvedDependency} (hkeyed : Keyed resolved)
    {names : List String} (hnames : ∀ n ∈ names, n ∈ resolved) :
    (names.filterMap resolved.lookup).map (·.name) = names := by
  induction names with
  | nil => rfl
  | cons name names ih =>
    obtain ⟨hname, hnames⟩ := List.forall_mem_cons.mp hnames
    obtain ⟨dep, hdep⟩ := Option.isSome_iff_exists.mp (AList.lookup_isSome.mpr hname)
    rw [List.filterMap_cons_some (f := fun n => resolved.lookup n) hdep, List.map_cons, ih hnames,
      hkeyed name dep hdep]

variable {resolved : HashMap String ResolvedDependency}

theorem removeInOrder_spec (hkeyed : Keyed resolved) (hnodup : names.Nodup)
    (hnames : ∀ n ∈ names, n ∈ resolved) :
    (removeInOrder names resolved).map (·.name) = names ∧
      ∀ dep ∈ removeInOrder names resolved, resolved.lookup dep.name = some dep := by
  induction names generalizing resolved with
  | nil => exact ⟨rfl, nofun⟩
  | cons name names ih =>
    obtain ⟨hname, hnames⟩ := List.forall_mem_cons.mp hnames
    obtain ⟨hnew, hnodup⟩ := List.nodup_cons.mp hnodup
    obtain ⟨dep, hdep⟩ := Option.isSome_iff_exists.mp (AList.lookup_isSome.mpr hname)
    have hkeyed' : Keyed (resolved.erase name) := fun n d hd => hkeyed n d (lookup_erase_eq_some hd)
    have hnames' : ∀ n ∈ names, n ∈ resolved.erase name := by
      intro n hn
      rw [AList.mem_erase]
      exact ⟨fun heq => hnew (heq ▸ hn), hnames n hn⟩
    obtain ⟨hmap, hlookup⟩ := ih hkeyed' hnodup hnames'
    rw [removeInOrder, hdep]
    refine ⟨?_, List.forall_mem_cons.mpr ⟨?_, fun d hd => lookup_erase_eq_some (hlookup d hd)⟩⟩
    · show dep.name :: (removeInOrder names (resolved.erase name)).map (·.name) = name :: names
      rw [hmap, hkeyed name dep hdep]
    · rw [hkeyed name dep hdep]
      exact hdep

/-! ## Both searches see one graph -/

/-- The packages of a map, in the order of a walk. -/
theorem values_names {resolved : HashMap String ResolvedDependency} (hkeyed : Keyed resolved)
    (point : List Nat) :
    ((order.walk point resolved.keys).filterMap resolved.lookup).map
    (·.name) = order.walk point resolved.keys :=
  names_filterMap_lookup hkeyed fun _ hn => (order.perm point resolved.keys).mem_iff.mp hn

omit [DecidableEq R] in
theorem mem_neighbors_iff (hkeyed : Keyed resolved) {point' : List Nat}
    (hnames : ∀ n, n ∈ names ↔ n ∈ resolved.keys) {graph : HashMap String (List String)}
    (hgraph : ∀ a, neighbors graph a = []) :
    d ∈ neighbors (adjacency host order point w names
      ((order.walk point' resolved.keys).filterMap resolved.lookup) graph) a ↔
      Depends host w resolved a d := by
  have hnodup : (((order.walk point' resolved.keys).filterMap resolved.lookup).map (·.name)).Nodup := by
    rw [values_names hkeyed]
    exact (order.perm point' resolved.keys).nodup_iff.mpr resolved.keys_nodup
  rw [mem_neighbors_adjacency hnodup, hgraph, or_iff_left fun h => List.not_mem_nil h.2]
  constructor
  · rintro ⟨dep, hdep, hname, hon, hmem⟩
    obtain ⟨key, -, hlookup⟩ := List.mem_filterMap.mp hdep
    obtain rfl : dep.name = key := hkeyed key dep hlookup
    exact ⟨dep, hname ▸ hlookup, hon, (hnames d).mp hmem⟩
  · rintro ⟨dep, hlookup, hon, hmem⟩
    have hkey : a ∈ order.walk point' resolved.keys :=
      (order.perm point' resolved.keys).mem_iff.mpr (AList.lookup_isSome.mp (hlookup ▸ rfl))
    exact ⟨dep, List.mem_filterMap.mpr ⟨a, hkey, hlookup⟩, hkeyed a dep hlookup, hon, (hnames d).mpr hmem⟩

theorem transGen_edge_iff {graph : HashMap String (List String)} {E : String → String → Prop}
    (h : ∀ a d, d ∈ neighbors graph a ↔ E a d) {b : String} :
    TransGen (Postorder.Edge (neighbors graph)) a b ↔ TransGen E a b := by
  have heq : Postorder.Edge (neighbors graph) = E := funext fun a => funext fun d => propext (h a d)
  rw [heq]

omit [DecidableEq R] in
theorem checkCycles_of_search {w : W} {deps : List ResolvedDependency} {found : Option (List String)}
    {s : Postorder.Search String}
    (h : Postorder.findCycleAll
      (dfsCycle (adjacency host order [3] w (deps.map (·.name)) deps ∅) (deps.map (·.name)).length)
      (order.walk [4] (adjacency host order [3] w (deps.map (·.name)) deps ∅).keys) ⟨∅, ∅⟩ = some
        (found, s)) :
    checkCycles host order w deps = some (found.elim (.ok ()) fun cycle =>
      .error ("Circular dependency detected: " ++ " -> ".intercalate cycle)) := by
  unfold checkCycles
  dsimp only
  rw [h]
  cases found <;> rfl

omit [DecidableEq R] in
/-- **The check for cycles is exact.** -/
theorem checkCycles_spec (hkeyed : Keyed resolved) (w : W) (point : List Nat) :
    ((∃ a, TransGen (Depends host w resolved) a a) ∧
      ∃ e, checkCycles host order w ((order.walk point resolved.keys).filterMap resolved.lookup) =
        some (.error e)) ∨
    ((¬ ∃ a, TransGen (Depends host w resolved) a a) ∧
      checkCycles host order w ((order.walk point resolved.keys).filterMap resolved.lookup) = some
        (.ok ())) := by
  -- the graph of the source, and the facts the search needs about it
  let values := (order.walk point resolved.keys).filterMap resolved.lookup
  let names := values.map (·.name)
  let graph := adjacency host order [3] w names values ∅
  have hmem : ∀ n, n ∈ names ↔ n ∈ resolved.keys := by
    intro n
    show n ∈ values.map (·.name) ↔ _
    rw [values_names hkeyed]
    exact (order.perm point resolved.keys).mem_iff
  have hedge : ∀ a d, d ∈ neighbors graph a ↔ Depends host w resolved a d :=
    fun a d => mem_neighbors_iff hkeyed hmem fun _ => rfl
  have hroots : ∀ r, r ∈ order.walk [4] graph.keys ↔ r ∈ names := by
    intro r
    rw [(order.perm [4] graph.keys).mem_iff]
    show r ∈ (adjacency host order [3] w names values ∅).keys ↔ _
    rw [mem_keys_adjacency, or_iff_left]
    exact List.not_mem_nil
  have hclosed : ∀ n ∈ names.toFinset, ∀ c ∈ neighbors graph n, c ∈ names.toFinset := by
    intro n _ c hc
    obtain ⟨-, -, -, hkey⟩ := (hedge n c).mp hc
    exact List.mem_toFinset.mpr ((hmem c).mpr hkey)
  have hempty : Postorder.Finished (neighbors graph) (⟨∅, ∅⟩ : Postorder.Search String) :=
    ⟨subset_rfl, nofun, nofun⟩
  have hsome : (Postorder.findCycleAll (Postorder.findCycle (neighbors graph) names.length)
    (order.walk [4] graph.keys)
      ⟨∅, ∅⟩).isSome :=
    Postorder.findCycleAll_isSome hclosed names.toFinset_card_le
      (fun r hr => List.mem_toFinset.mpr ((hroots r).mp hr)) _
  -- the search ends, with a cycle or without one
  obtain ⟨⟨found, s⟩, hrun⟩ := Option.isSome_iff_exists.mp hsome
  have hcheck := checkCycles_of_search hrun
  cases found with
  | some cycle =>
    obtain ⟨x, hx⟩ := Postorder.findCycleAll_some hempty rfl hrun
    exact Or.inl ⟨⟨x, (transGen_edge_iff hedge).mp hx⟩, _, hcheck⟩
  | none =>
    refine Or.inr ⟨?_, hcheck⟩
    rintro ⟨a, ha⟩
    -- a cycle goes through some package, and every package is a root
    obtain ⟨b, ⟨dep, hlookup, -⟩, -⟩ := TransGen.head'_iff.mp ha
    have hroot : a ∈ order.walk [4] graph.keys :=
      (hroots a).mpr ((hmem a).mpr (AList.lookup_isSome.mp (hlookup ▸ rfl)))
    exact Postorder.acyclic_of_findCycleAll hrun a hroot ((transGen_edge_iff hedge).mpr ha)

theorem neighbors_foldl_orInsert (names : List String) (a : String) :
    neighbors (names.foldl (fun graph name => orInsert graph name []) ∅) a = [] := by
  have hfold : ∀ (names : List String) (graph : HashMap String (List String)), neighbors graph a = [] →
      neighbors (names.foldl (fun graph name => orInsert graph name []) graph) a = [] := by
    intro names
    induction names with
    | nil => exact fun _ h => h
    | cons name names ih =>
      intro graph h
      refine ih _ ?_
      show neighbors (if (graph.lookup name).isSome then graph else graph.insert name []) a = []
      split
      · exact h
      · rw [neighbors_insert, h, ite_self]
  exact hfold names ∅ rfl

/-- A list of packages in which every package stands once, behind the packages it depends on. -/
structure Sorted (host : Host W) (w : W) (resolved : HashMap String ResolvedDependency)
    (list : List ResolvedDependency) :
    Prop where
  nodup : (list.map (·.name)).Nodup
  mem_iff : ∀ dep, dep ∈ list ↔ resolved.lookup dep.name = some dep
  after_dependencies : ∀ dep ∈ list, ∀ d, DependsOn host w dep d → d ∈ list.map (·.name) →
    Postorder.Precedes (list.map (·.name)) d dep.name

omit [DecidableEq R] in
/-- **The second half of `resolve`**: an error if the packages depend on each other in a cycle, else
the sorted list. -/
theorem sortPackages_spec (hkeyed : Keyed resolved) (w : W) :
    ((∃ a, TransGen (Depends host w resolved) a a) ∧ ∃ e, sortPackages host order w resolved = some
      (.error e)) ∨
    ((¬ ∃ a, TransGen (Depends host w resolved) a a) ∧
      ∃ list, sortPackages host order w resolved = some (.ok list) ∧ Sorted host w resolved list) := by
  rw [sortPackages]
  rcases checkCycles_spec hkeyed w [5] with ⟨hcycle, e, hcheck⟩ | ⟨hacyclic, hcheck⟩
  · rw [hcheck]
    exact Or.inl ⟨hcycle, e, rfl⟩
  · rw [hcheck]
    refine Or.inr ⟨hacyclic, ?_⟩
    let empty : HashMap String (List String) :=
      resolved.keys.foldl (fun graph name => orInsert graph name []) ∅
    let graph := adjacency host order [6] w resolved.keys
        ((order.walk [7] resolved.keys).filterMap resolved.lookup) empty
    have hedge : ∀ a d, d ∈ neighbors graph a ↔ Depends host w resolved a d :=
      fun a d => mem_neighbors_iff hkeyed (fun _ => Iff.rfl) (neighbors_foldl_orInsert resolved.keys)
    have hclosed : ∀ n ∈ resolved.keys, ∀ c ∈ neighbors graph n, c ∈ resolved.keys := by
      intro n _ c hc
      obtain ⟨-, -, -, hkey⟩ := (hedge n c).mp hc
      exact hkey
    have hclosed' : ∀ n ∈ resolved.keys.toFinset, ∀ c ∈ neighbors graph n, c ∈ resolved.keys.toFinset :=
      fun n hn c hc => List.mem_toFinset.mpr (hclosed n (List.mem_toFinset.mp hn) c hc)
    have hroots : ∀ r, r ∈ order.walk [8] resolved.keys ↔ r ∈ resolved.keys :=
      fun r => (order.perm [8] resolved.keys).mem_iff
    have hsome : (Postorder.visitAll (Postorder.visit (neighbors graph) resolved.keys.length)
        (order.walk [8] resolved.keys) ⟨∅, []⟩).isSome :=
      Postorder.visitAll_isSome hclosed' resolved.keys.toFinset_card_le
        (fun r hr => List.mem_toFinset.mpr ((hroots r).mp hr)) _
    obtain ⟨marks, hrun⟩ := Option.isSome_iff_exists.mp hsome
    obtain ⟨hnodup, hmem, hprecedes⟩ := Postorder.visitAll_ordered hclosed
      (fun n _ hcycle => hacyclic ⟨n, (transGen_edge_iff hedge).mp hcycle⟩) hroots hrun
    obtain ⟨hmap, hlookup⟩ := removeInOrder_spec hkeyed hnodup fun n hn => (hmem n).mp hn
    refine ⟨removeInOrder marks.order resolved, ?_, ?_, fun dep => ⟨hlookup dep, fun hdep => ?_⟩,
      fun dep hdep d hon hd => ?_⟩
    · have hrun' : Postorder.visitAll (topoDfs graph resolved.keys.length)
          (order.walk [8] resolved.keys) ⟨∅, []⟩ =
          some marks := hrun
      dsimp only
      rw [hrun']
    · rw [hmap]
      exact hnodup
    · -- the list has a package of this name, and the map has only one
      have hname : dep.name ∈ (removeInOrder marks.order resolved).map (·.name) := by
        rw [hmap, hmem]
        exact AList.lookup_isSome.mp (hdep ▸ rfl)
      obtain ⟨dep', hdep', hname'⟩ := List.mem_map.mp hname
      have hlookup' := hlookup dep' hdep'
      rw [hname'] at hlookup'
      obtain rfl := Option.some.inj (hdep.symm.trans hlookup')
      exact hdep'
    · rw [hmap] at hd ⊢
      have hname : dep.name ∈ marks.order := by
        rw [← hmap]
        exact List.mem_map_of_mem hdep
      exact hprecedes dep.name hname d ((hedge dep.name d).mpr ⟨dep, hlookup dep hdep, hon, (hmem d).mp hd⟩)

/-! ## Every package stands under its own name -/

variable {name : String}

omit [DecidableEq R] in
theorem readBundleDep_name {canonical : String}
    (h : readBundleDep host order point w name canonical = .ok dep) :
    dep.name = name := by
  obtain ⟨bundle, -, h⟩ := Fallible.bind_eq_ok.mp h
  dsimp only at h
  split at h
  · cases h
  · cases h
    rfl

variable {ownerRoot : String}

omit [DecidableEq R] in
theorem resolvePathDep_name {pathStr : String}
    (h : resolvePathDep host order point w ownerRoot name pathStr = .ok dep) :
    dep.name = name := by
  rw [resolvePathDep] at h
  split at h
  · obtain ⟨canonical, -, h⟩ := Fallible.bind_eq_ok.mp h
    split at h
    · cases h
    · exact readBundleDep_name h
  · split at h
    · obtain ⟨canonical, -, h⟩ := Fallible.bind_eq_ok.mp h
      exact readBundleDep_name h
    · obtain ⟨canonical, -, h⟩ := Fallible.bind_eq_ok.mp h
      split at h
      · cases h
      · cases h
        rfl

omit [DecidableEq R] in
theorem resolveGitDep_name {w' : W} {url gitRef : String}
    (h : resolveGitDep host resolver order point w name url gitRef = .ok (dep, w')) : dep.name = name := by
  rw [resolveGitDep] at h
  obtain ⟨w₁, -, h⟩ := Fallible.bind_eq_ok.mp h
  obtain ⟨w₂, -, h⟩ := Fallible.bind_eq_ok.mp h
  obtain ⟨printed, -, h⟩ := Fallible.bind_eq_ok.mp h
  cases h
  rfl

omit [DecidableEq R] in
theorem resolveOneNonRegistry_name {w' : W} {spec : DependencySpec}
    (h : resolveOneNonRegistry host resolver order point w ownerRoot name spec = .ok (dep, w')) :
    dep.name = name := by
  cases spec with
  | version version => cases h
  | detailed detail =>
    rw [resolveOneNonRegistry] at h
    split at h
    · obtain ⟨dep', hdep, hpair⟩ := Fallible.map_eq_ok.mp h
      cases hpair
      exact resolvePathDep_name hdep
    · exact resolveGitDep_name h
    · cases h
    · cases h

theorem Keyed.insert (h : Keyed resolved) (hname : dep.name = name) : Keyed (resolved.insert name dep) := by
  intro n d hd
  rcases lookup_insert_eq_some hd with ⟨rfl, rfl⟩ | hold
  · exact hname
  · exact h n d hold

omit [DecidableEq R] in
@[simp] theorem enqueue_resolved (ownerRoot : String) (specs : HashMap String DependencySpec)
    (names : List String) (g : Gathering W R) :
    (enqueue ownerRoot specs names g).resolved = g.resolved := by
  rw [enqueue]
  induction names generalizing g with
  | nil => rfl
  | cons name names ih =>
    rw [List.foldl_cons, ih]
    split
    · rfl
    · split <;> rfl

theorem gatherStep_keyed {g g' : Gathering W R} {next : PendingDependency} (h : Keyed g.resolved)
    (hstep : gatherStep host resolver semver order point g next = .ok g') : Keyed g'.resolved := by
  rw [gatherStep] at hstep
  split at hstep
  · obtain ⟨req, -, hstep⟩ := Fallible.bind_eq_ok.mp hstep
    cases hstep
    exact h
  · obtain ⟨⟨dep, world⟩, hdep, hstep⟩ := Fallible.bind_eq_ok.mp hstep
    have hkeyed : Keyed (g.resolved.insert next.name dep) := h.insert (resolveOneNonRegistry_name hdep)
    dsimp only at hstep
    split at hstep
    · obtain ⟨-, -, hstep⟩ := Fallible.bind_eq_ok.mp hstep
      cases hstep
      exact h
    · split at hstep
      · cases hstep
        exact hkeyed
      · split at hstep
        · cases hstep
          exact hkeyed
        · cases hstep
          rw [enqueue_resolved]
          exact hkeyed

theorem gather_keyed {fuel : Nat} {g g' : Gathering W R} (h : Keyed g.resolved)
    (hrun : gather host resolver semver order fuel point g = some (.ok g')) : Keyed g'.resolved := by
  induction fuel generalizing g with
  | zero => cases hrun
  | succ fuel ih =>
    rw [gather] at hrun
    split at hrun
    · cases hrun
      exact h
    · split at hrun
      · cases hrun
      · next next rest _ _ g₁ hstep =>
        have hg : Keyed ({ g with pending := rest } : Gathering W R).resolved := h
        exact ih (gatherStep_keyed hg hstep) hrun

theorem insertRegistryDeps_keyed {resolved' : HashMap String ResolvedDependency} (h : Keyed resolved)
    (hrun : insertRegistryDeps deps resolved = .ok resolved') : Keyed resolved' := by
  induction deps generalizing resolved with
  | nil =>
    obtain rfl := Except.ok.inj hrun
    exact h
  | cons dep deps ih =>
    rw [insertRegistryDeps] at hrun
    split at hrun
    · cases hrun
    · exact ih (h.insert rfl) hrun

theorem resolvePackages_keyed {fuel : Nat} {w' : W} {deps : HashMap String DependencySpec}
    (h : resolvePackages host resolver semver order fuel w deps = some (.ok (resolved, w'))) :
    Keyed resolved := by
  rw [resolvePackages] at h
  split at h
  · cases h
  · cases h
  · next g hgather =>
    have hkeyed : Keyed g.resolved := by
      refine gather_keyed ?_ hgather
      rw [enqueue_resolved]
      exact nofun
    split at h
    · cases h
      exact hkeyed
    · split at h
      · cases h
      · cases h
      · obtain ⟨resolved', hinsert, hpair⟩ := Fallible.map_eq_ok.mp (Option.some.inj h)
        cases hpair
        exact insertRegistryDeps_keyed hkeyed hinsert

end

/-- **The resolved order.** A list that `resolve` returns has every package once and behind its
dependencies; and once the packages are known, `resolve` returns an error exactly if they depend on
each other in a cycle. -/
theorem resolve_order {W V R : Type} [DecidableEq R] (host : Host W) (resolver : DependencyResolver)
    (semver : Semver V R) (order : HashOrder String) (fuel : Nat) (w : W)
    (deps : HashMap String DependencySpec) :
    (∀ list, resolve host resolver semver order fuel w deps = some (.ok list) →
      ∃ resolved w', resolvePackages host resolver semver order fuel w deps = some (.ok (resolved, w')) ∧
        Sorted host w' resolved list) ∧
    ∀ resolved w', resolvePackages host resolver semver order fuel w deps = some (.ok (resolved, w')) →
      ((∃ a, TransGen (Depends host w' resolved) a a) ↔
        ∃ e, resolve host resolver semver order fuel w deps = some (.error e)) := by
  constructor
  · intro list hlist
    rw [resolve] at hlist
    split at hlist
    · cases hlist
    · cases hlist
    · next resolved w' hpackages =>
      refine ⟨resolved, w', hpackages, ?_⟩
      rcases sortPackages_spec (resolvePackages_keyed hpackages) w'
        with ⟨-, e, herror⟩ | ⟨-, list', hok, hsorted⟩
      · cases hlist.symm.trans herror
      · cases hlist.symm.trans hok
        exact hsorted
  · intro resolved w' hpackages
    rw [resolve, hpackages]
    show _ ↔ ∃ e, sortPackages host order w' resolved = some (.error e)
    rcases sortPackages_spec (resolvePackages_keyed hpackages) w'
      with ⟨hcycle, herror⟩ | ⟨hacyclic, list, hok, -⟩
    · exact iff_of_true hcycle herror
    · refine iff_of_false hacyclic ?_
      rintro ⟨e, herror⟩
      cases hok.symm.trans herror

/-! ## Two projects -/

def pathSpec (path : String) : DependencySpec := .detailed { path := some path }

/-- A host with one directory for each package and nothing else. The packages of `links` depend on
each other by path. -/
def pathHost (links : List (String × String)) : Host Unit where
  join base path := if path.startsWith "/" then path else base ++ "/" ++ path
  withExtension path extension := path ++ "." ++ extension
  parent _ := none
  isAbsolute _ := false
  canonicalize _ path := .ok path
  pathExists _ path := !path.endsWith ".shapec"
  isDir _ _ := true
  readProject _ path := some
    { version := "1.0.0"
      dependencies := (links.filter fun link => path = "/" ++ link.1 ++ "/shape.toml").foldl
        (fun specs link => specs.insert link.2 (pathSpec ("/" ++ link.2))) ∅ }
  readBundle _ _ := .error "no bundle"
  registryFiles _ _ := ∅
  sha256Hex url := url
  createDirAll _ _ := .error "read-only"
  git _ _ _ := .error "no git"

def appResolver : DependencyResolver :=
  { projectRoot := "/app", cacheDir := "/cache", registryIndexDir := "/registry/index"
    registrySrcDir := "/registry/src" }

def natSemver : Semver Nat Nat where
  parseVersion _ := .ok 0
  parseReq _ := .ok 0
  reqMatches _ _ := true
  versionLe a b := a ≤ b
  showVersion v := toString v
  showReq r := toString r

/-- `app` depends on `a`. -/
def appDeps : HashMap String DependencySpec := (∅ : HashMap String _).insert "a" (pathSpec "/a")

def packageA : ResolvedDependency := ⟨"a", "/a", "1.0.0", .path, ["b"]⟩

def packageB (dependencies : List String) : ResolvedDependency := ⟨"b", "/b", "1.0.0", .path, dependencies⟩

/-- `a` depends on `b`: `b` comes first. If `b` depends on `a` as well, there is no list. -/
theorem resolve_order_links :
    (∃ resolved w', Sorted (pathHost [("a", "b")]) w' resolved [packageB [], packageA]) ∧
    ∃ e, resolve (pathHost [("a", "b"), ("b", "a")]) appResolver natSemver .forward 5 () appDeps =
      some (.error e) := by
  constructor
  · have hlist : resolve (pathHost [("a", "b")]) appResolver natSemver .forward 5 () appDeps =
        some (.ok [packageB [], packageA]) := by decide +kernel
    obtain ⟨resolved, w', -, hsorted⟩ :=
      (resolve_order (pathHost [("a", "b")]) appResolver natSemver .forward 5 () appDeps).1 _ hlist
    exact ⟨resolved, w', hsorted⟩
  · have hentries :
        ((resolvePackages (pathHost [("a", "b"), ("b", "a")]) appResolver natSemver .forward 5 ()
        appDeps).map fun result => result.map fun packages => packages.1.entries) =
        some (.ok [⟨"b", packageB ["a"]⟩, ⟨"a", packageA⟩]) := by decide +kernel
    obtain ⟨result, hpackages, hresult⟩ := Option.map_eq_some_iff.mp hentries
    obtain ⟨⟨resolved, w'⟩, rfl, hentries⟩ := Fallible.map_eq_ok.mp hresult
    have hkeys : resolved.keys = ["b", "a"] := by
      rw [AList.keys, hentries]
      rfl
    have hlookup : ∀ name, resolved.lookup name = @List.dlookup String (fun _ => ResolvedDependency) _ name
        [⟨"b", packageB ["a"]⟩, ⟨"a", packageA⟩] := fun name => congrArg (List.dlookup name) hentries
    have hab : Depends (pathHost [("a", "b"), ("b", "a")]) w' resolved "a" "b" :=
      ⟨packageA, hlookup "a", Or.inl (by decide), hkeys ▸ (by decide)⟩
    have hba : Depends (pathHost [("a", "b"), ("b", "a")]) w' resolved "b" "a" :=
      ⟨packageB ["a"], hlookup "b", Or.inl (by decide), hkeys ▸ (by decide)⟩
    exact ((resolve_order (pathHost [("a", "b"), ("b", "a")]) appResolver natSemver .forward 5
      () appDeps).2 _ w'
      hpackages).mp ⟨"a", .tail (.single hab) hba⟩

end ShapeLang.Packages
