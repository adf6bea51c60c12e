import Mathlib

/-!
# Cycle search and depth-first order

Two recursive searches over a graph that is given by the children of each node. The first looks for
a cycle with a set of visited nodes and the set of nodes on the stack; the second lists the nodes in
postorder and looks only at the visited ones, so its order is right only where the first has found
nothing.

  * `findCycle_none`, `findCycle_some` — what the first search has shown when it ends, with and
    without a cycle;
  * `visit_ordered` — in a graph without cycles the second lists every node behind its children;
  * `findCycle_isSome`, `visit_isSome` — a depth of one more than the unvisited nodes is enough.
-/

namespace Postorder

open Relation

variable {ν : Type*} [DecidableEq ν] (children : ν → List ν)

/-- `b` is a child of `a`. -/
def Edge (a b : ν) : Prop := b ∈ children a

/-- `a` stands before `b`. -/
def Precedes (order : List ν) (a b : ν) : Prop := [a, b].Sublist order

/-! ## The search for a cycle -/

structure Search (ν : Type*) where
  visited : Finset ν
  inStack : Finset ν

/-- The loop over the children of a node. It stops at the first cycle. -/
def scan (recurse : Search ν → ν → Option (Option (List ν) × Search ν)) (node : ν) :
    List ν → Search ν → Option (Option (List ν) × Search ν)
  | [], s => some (none, { s with inStack := s.inStack.erase node })
  | c :: cs, s =>
    if c ∉ s.visited then
      match recurse s c with
      | none => none
      | some (some cycle, s') => some (some (node :: cycle), s')
      | some (none, s') => scan recurse node cs s'
    else if c ∈ s.inStack then some (some [node, c], s)
    else scan recurse node cs s

def findCycle : Nat → Search ν → ν → Option (Option (List ν) × Search ν)
  | 0, _, _ => none
  | fuel + 1, s, node =>
    scan (findCycle fuel) node (children node)
      { visited := insert node s.visited, inStack := insert node s.inStack }

/-- The search from every root that is not visited when its turn comes. -/
def findCycleAll (search : Search ν → ν → Option (Option (List ν) × Search ν)) :
    List ν → Search ν → Option (Option (List ν) × Search ν)
  | [], s => some (none, s)
  | root :: roots, s =>
    if root ∉ s.visited then
      match search s root with
      | none => none
      | some (some cycle, s') => some (some cycle, s')
      | some (none, s') => findCycleAll search roots s'
    else findCycleAll search roots s

/-! ## The order -/

structure Marks (ν : Type*) where
  visited : Finset ν
  order : List ν

def visit : Nat → Marks ν → ν → Option (Marks ν)
  | 0, _, _ => none
  | fuel + 1, s, node => do
    let s ← (children node).foldlM (fun s c => if c ∈ s.visited then some s else visit fuel s c)
      { s with visited := insert node s.visited }
    some { s with order := s.order ++ [node] }

def visitAll (visit : Marks ν → ν → Option (Marks ν)) (roots : List ν) (s : Marks ν) : Option (Marks ν) :=
  roots.foldlM (fun s n => if n ∈ s.visited then some s else visit s n) s

/-! ## No cycle found

Between two calls the nodes that are visited and not on the stack are *finished*: their children are
finished too, and none of them lies on a cycle. -/

structure Finished (s : Search ν) : Prop where
  visited_of_inStack : s.inStack ⊆ s.visited
  children_mem : ∀ d ∈ s.visited, d ∉ s.inStack → ∀ c ∈ children d, c ∈ s.visited ∧ c ∉ s.inStack
  acyclic : ∀ d ∈ s.visited, d ∉ s.inStack → ¬ TransGen (Edge children) d d

variable {children}

variable {s : Search ν}

omit [DecidableEq ν] in
theorem Finished.reaches (h : Finished children s) {d x : ν} (hd : d ∈ s.visited ∧ d ∉ s.inStack)
    (hpath : ReflTransGen (Edge children) d x) : x ∈ s.visited ∧ x ∉ s.inStack := by
  induction hpath with
  | refl => exact hd
  | tail _ hedge ih => exact h.children_mem _ ih.1 ih.2 _ hedge

variable {node : ν}

/-- A node that is entered is on the stack, so nothing new is finished. -/
theorem Finished.enter (h : Finished children s) (hnew : node ∉ s.visited) :
    Finished children { visited := insert node s.visited, inStack := insert node s.inStack } := by
  have hold : ∀ d, d ∈ insert node s.visited → d ∉ insert node s.inStack → d ∈ s.visited ∧
      d ∉ s.inStack := by
    intro d hd hstack
    rw [Finset.mem_insert, not_or] at hstack
    exact ⟨(Finset.mem_insert.mp hd).resolve_left hstack.1, hstack.2⟩
  refine ⟨Finset.insert_subset_insert node h.visited_of_inStack, fun d hd hstack c hc => ?_,
    fun d hd hstack => ?_⟩
  · obtain ⟨hd, hstack⟩ := hold d hd hstack
    obtain ⟨hc, hcstack⟩ := h.children_mem d hd hstack c hc
    have hne : c ≠ node := fun heq => hnew (heq ▸ hc)
    exact ⟨Finset.mem_insert_of_mem hc, fun hmem => hcstack ((Finset.mem_insert.mp hmem).resolve_left hne)⟩
  · obtain ⟨hd, hstack⟩ := hold d hd hstack
    exact h.acyclic d hd hstack

/-- A node without children is finished at once. -/
theorem Finished.leaf (h : Finished children s) (hleaf : children node = []) (hstack : node ∉ s.inStack) :
    Finished children { s with visited := insert node s.visited } := by
  refine ⟨h.visited_of_inStack.trans (Finset.subset_insert _ _), fun d hd hdstack c hc => ?_,
    fun d hd hdstack => ?_⟩
  · rcases Finset.mem_insert.mp hd with rfl | hd
    · rw [hleaf] at hc
      cases hc
    · obtain ⟨hc, hcstack⟩ := h.children_mem d hd hdstack c hc
      exact ⟨Finset.mem_insert_of_mem hc, hcstack⟩
  · rcases Finset.mem_insert.mp hd with rfl | hd
    · intro hcycle
      obtain ⟨c, hedge, -⟩ := TransGen.head'_iff.mp hcycle
      have hc : c ∈ children d := hedge
      rw [hleaf] at hc
      cases hc
    · exact h.acyclic d hd hdstack

/-- A node whose children are finished is finished when it leaves the stack. -/
theorem Finished.leave (h : Finished children s) (hnode : node ∈ s.inStack)
    (hchildren : ∀ c ∈ children node, c ∈ s.visited ∧ c ∉ s.inStack) :
    Finished children { s with inStack := s.inStack.erase node } := by
  have hcases : ∀ d, d ∉ s.inStack.erase node → d = node ∨ d ∉ s.inStack := by
    intro d hd
    by_cases heq : d = node
    · exact Or.inl heq
    · exact Or.inr fun hmem => hd (Finset.mem_erase.mpr ⟨heq, hmem⟩)
  have hkeep : ∀ c, c ∈ s.visited ∧ c ∉ s.inStack → c ∈ s.visited ∧ c ∉ s.inStack.erase node :=
    fun c hc => ⟨hc.1, fun hmem => hc.2 (Finset.mem_of_mem_erase hmem)⟩
  refine ⟨(Finset.erase_subset _ _).trans h.visited_of_inStack, fun d hd hstack c hc => ?_,
    fun d hd hstack => ?_⟩
  · rcases hcases d hstack with rfl | hstack
    · exact hkeep c (hchildren c hc)
    · exact hkeep c (h.children_mem d hd hstack c hc)
  · rcases hcases d hstack with rfl | hstack
    · -- from the finished children nothing leads back to a node on the stack
      intro hcycle
      obtain ⟨c, hedge, hpath⟩ := TransGen.head'_iff.mp hcycle
      exact (h.reaches (hchildren c hedge) hpath).2 hnode
    · exact h.acyclic d hd hstack

/-- What a call without a cycle has done. -/
structure Explored (s s' : Search ν) : Prop where
  inStack : s'.inStack = s.inStack
  visited : s.visited ⊆ s'.visited

variable {s' : Search ν}

omit [DecidableEq ν] in
theorem Explored.trans {s'' : Search ν} (h : Explored s s') (h' : Explored s' s'') : Explored s s'' :=
  ⟨h'.inStack.trans h.inStack, h.visited.trans h'.visited⟩

variable {recurse : Search ν → ν → Option (Option (List ν) × Search ν)}

theorem scan_none
    (hrec : ∀ s c s', Finished children s → c ∉ s.visited → recurse s c = some (none, s') →
      Finished children s' ∧ Explored s s' ∧ c ∈ s'.visited)
    {cs : List ν} (h : Finished children s) (hrun : scan recurse node cs s = some (none, s')) :
    ∃ t, Finished children t ∧ Explored s t ∧ (∀ c ∈ cs, c ∈ t.visited ∧ c ∉ t.inStack) ∧
      s' = { t with inStack := t.inStack.erase node } := by
  induction cs generalizing s with
  | nil =>
    rw [scan] at hrun
    cases hrun
    exact ⟨s, h, ⟨rfl, subset_rfl⟩, nofun, rfl⟩
  | cons c cs ih =>
    -- behind the child `c` the loop goes on from a state in which `c` is finished
    have hcont : ∀ t, Finished children t → Explored s t → c ∈ t.visited → c ∉ t.inStack →
        scan recurse node cs t = some (none, s') → ∃ t', Finished children t' ∧ Explored s t' ∧
          (∀ d ∈ c :: cs, d ∈ t'.visited ∧ d ∉ t'.inStack) ∧
          s' = { t' with inStack := t'.inStack.erase node } := by
      intro t ht hst hc hstack hrun
      obtain ⟨t', ht', htt', hcs, hs'⟩ := ih ht hrun
      refine ⟨t', ht', hst.trans htt', fun d hd => ?_, hs'⟩
      rcases List.mem_cons.mp hd with rfl | hd
      · exact ⟨htt'.visited hc, htt'.inStack ▸ hstack⟩
      · exact hcs d hd
    rw [scan] at hrun
    split at hrun
    · next hnew =>
      split at hrun
      · cases hrun
      · cases hrun
      · next t hcall =>
        obtain ⟨ht, hst, hc⟩ := hrec s c t h hnew hcall
        have hstack : c ∉ t.inStack := by
          rw [hst.inStack]
          exact fun hmem => hnew (h.visited_of_inStack hmem)
        exact hcont t ht hst hc hstack hrun
    · next hold =>
      split at hrun
      · cases hrun
      · next hstack =>
        exact hcont s h ⟨rfl, subset_rfl⟩ (not_not.mp hold) hstack hrun

variable {fuel : Nat}

/-- **A call that finds no cycle** finishes its node and leaves the stack as it was. -/
theorem findCycle_none (h : Finished children s) (hnew : node ∉ s.visited)
    (hrun : findCycle children fuel s node = some (none, s')) :
    Finished children s' ∧ Explored s s' ∧ node ∈ s'.visited := by
  induction fuel generalizing s s' node with
  | zero => cases hrun
  | succ fuel ih =>
    rw [findCycle] at hrun
    obtain ⟨t, ht, hst, hcs, rfl⟩ := scan_none (fun s c s' hs hc => ih hs hc) (h.enter hnew) hrun
    have hnode : node ∈ t.inStack := by
      rw [hst.inStack]
      exact Finset.mem_insert_self node _
    have hstack : node ∉ s.inStack := fun hmem => hnew (h.visited_of_inStack hmem)
    refine ⟨ht.leave hnode hcs, ⟨?_, ?_⟩, hst.visited (Finset.mem_insert_self node _)⟩
    · show t.inStack.erase node = s.inStack
      rw [hst.inStack, Finset.erase_insert hstack]
    · exact (Finset.subset_insert _ _).trans hst.visited

variable {roots : List ν}

theorem findCycleAll_none (h : Finished children s)
    (hrun : findCycleAll (findCycle children fuel) roots s = some (none, s')) :
    Finished children s' ∧ Explored s s' ∧ ∀ r ∈ roots, r ∈ s'.visited := by
  induction roots generalizing s with
  | nil =>
    rw [findCycleAll] at hrun
    cases hrun
    exact ⟨h, ⟨rfl, subset_rfl⟩, nofun⟩
  | cons root roots ih =>
    -- the rest of the roots, from whatever state the first one leaves
    have hcont : ∀ t, Finished children t → Explored s t → root ∈ t.visited →
        findCycleAll (findCycle children fuel) roots t = some (none, s') →
        Finished children s' ∧ Explored s s' ∧ ∀ r ∈ root :: roots, r ∈ s'.visited := by
      intro t ht hst hroot hrun
      obtain ⟨hs', hts', hroots⟩ := ih ht hrun
      exact ⟨hs', hst.trans hts', List.forall_mem_cons.mpr ⟨hts'.visited hroot, hroots⟩⟩
    rw [findCycleAll] at hrun
    split at hrun
    · next hnew =>
      split at hrun
      · cases hrun
      · cases hrun
      · next t hcall =>
        obtain ⟨ht, hst, hroot⟩ := findCycle_none h hnew hcall
        exact hcont t ht hst hroot hrun
    · next hold => exact hcont s h ⟨rfl, subset_rfl⟩ (not_not.mp hold) hrun

/-- **No cycle found from the roots, no cycle through a root.** -/
theorem acyclic_of_findCycleAll
    (hrun : findCycleAll (findCycle children fuel) roots ⟨∅, ∅⟩ = some (none, s')) :
    ∀ r ∈ roots, ¬ TransGen (Edge children) r r := by
  have hempty : Finished children (⟨∅, ∅⟩ : Search ν) := ⟨subset_rfl, nofun, nofun⟩
  obtain ⟨hs', hexpl, hroots⟩ := findCycleAll_none hempty hrun
  intro r hr
  refine hs'.acyclic r (hroots r hr) ?_
  rw [hexpl.inStack]
  exact Finset.notMem_empty r

/-! ## A cycle found -/

variable {cycle : List ν}

theorem scan_some
    (hnone : ∀ s c s', Finished children s → c ∉ s.visited → recurse s c = some (none, s') →
      Finished children s' ∧ Explored s s' ∧ c ∈ s'.visited)
    (hsome : ∀ s c s' cycle, Finished children s → c ∉ s.visited →
      (∀ x ∈ s.inStack, TransGen (Edge children) x c) → recurse s c = some (some cycle, s') →
      ∃ x, TransGen (Edge children) x x)
    {cs : List ν} (hcs : ∀ c ∈ cs, Edge children node c) (h : Finished children s)
    (hstack : ∀ x ∈ s.inStack, ReflTransGen (Edge children) x node)
    (hrun : scan recurse node cs s = some (some cycle, s')) :
    ∃ x, TransGen (Edge children) x x := by
  induction cs generalizing s with
  | nil =>
    rw [scan] at hrun
    cases hrun
  | cons c cs ih =>
    obtain ⟨hedge, hcs⟩ := List.forall_mem_cons.mp hcs
    rw [scan] at hrun
    -- a node that is new is searched from; one on the stack closes a cycle; a finished one is
    -- passed over
    split at hrun
    · next hnew =>
      split at hrun
      · cases hrun
      · next hcall => exact hsome s c _ _ h hnew (fun x hx => TransGen.tail' (hstack x hx) hedge) hcall
      · next t hcall =>
        obtain ⟨ht, hst, -⟩ := hnone s c t h hnew hcall
        exact ih hcs ht (hst.inStack ▸ hstack) hrun
    · split at hrun
      · next hmem => exact ⟨c, TransGen.tail' (hstack c hmem) hedge⟩
      · exact ih hcs h hstack hrun

/-- **A call that finds a cycle is right**, since the nodes on the stack lead to its node. -/
theorem findCycle_some (h : Finished children s) (hnew : node ∉ s.visited)
    (hstack : ∀ x ∈ s.inStack, TransGen (Edge children) x node)
    (hrun : findCycle children fuel s node = some (some cycle, s')) :
    ∃ x, TransGen (Edge children) x x := by
  induction fuel generalizing s s' node cycle with
  | zero => cases hrun
  | succ fuel ih =>
    rw [findCycle] at hrun
    refine scan_some (fun s c s' hs hc => findCycle_none hs hc) (fun s c s' cycle hs hc hx => ih hs hc hx)
      (fun c hc => hc) (h.enter hnew) (fun x hx => ?_) hrun
    rcases Finset.mem_insert.mp hx with rfl | hx
    · exact .refl
    · exact (hstack x hx).to_reflTransGen

theorem findCycleAll_some (h : Finished children s) (hstack : s.inStack = ∅)
    (hrun : findCycleAll (findCycle children fuel) roots s = some (some cycle, s')) :
    ∃ x, TransGen (Edge children) x x := by
  induction roots generalizing s with
  | nil =>
    rw [findCycleAll] at hrun
    cases hrun
  | cons root roots ih =>
    rw [findCycleAll] at hrun
    split at hrun
    · next hnew =>
      split at hrun
      · cases hrun
      · next hcall => exact findCycle_some h hnew (by rw [hstack]; nofun) hcall
      · next t hcall =>
        obtain ⟨ht, hst, -⟩ := findCycle_none h hnew hcall
        exact ih ht (hst.inStack.trans hstack) hrun
    · exact ih h hstack hrun

/-! ## The order is right

The nodes visited are those listed and those on the stack, which lead to the node at hand. A child
that is on the stack would close a cycle. -/

structure Ordered (children : ν → List ν) (stack : Finset ν) (s : Marks ν) : Prop where
  visited_iff : ∀ n, n ∈ s.visited ↔ n ∈ s.order ∨ n ∈ stack
  not_stack : ∀ n ∈ s.order, n ∉ stack
  nodup : s.order.Nodup
  precedes : ∀ n ∈ s.order, ∀ c ∈ children n, Precedes s.order c n

variable {stack : Finset ν}

theorem Ordered.enter {s : Marks ν} (h : Ordered children stack s) (hnew : node ∉ s.visited) :
    Ordered children (insert node stack) { s with visited := insert node s.visited } := by
  refine ⟨fun n => ?_, fun n hn hmem => ?_, h.nodup, h.precedes⟩
  · show n ∈ insert node s.visited ↔ n ∈ s.order ∨ n ∈ insert node stack
    rw [Finset.mem_insert, Finset.mem_insert, h.visited_iff]
    exact or_left_comm
  · rcases Finset.mem_insert.mp hmem with rfl | hmem
    · exact hnew ((h.visited_iff n).mpr (Or.inl hn))
    · exact h.not_stack n hn hmem

theorem Ordered.leave {s : Marks ν} (h : Ordered children (insert node stack) s) (hnode : node ∉ stack)
    (hchildren : ∀ c ∈ children node, c ∈ s.order) :
    Ordered children stack { s with order := s.order ++ [node] } := by
  have hnew : node ∉ s.order := fun hmem => h.not_stack node hmem (Finset.mem_insert_self node stack)
  refine ⟨fun n => ?_, fun n hn => ?_, ?_, fun n hn c hc => ?_⟩
  · show n ∈ s.visited ↔ n ∈ s.order ++ [node] ∨ n ∈ stack
    rw [h.visited_iff, Finset.mem_insert, List.mem_append, List.mem_singleton, or_assoc]
  · rcases List.mem_append.mp hn with hn | hn
    · exact fun hmem => h.not_stack n hn (Finset.mem_insert_of_mem hmem)
    · rw [List.mem_singleton.mp hn]
      exact hnode
  · refine List.nodup_append.mpr ⟨h.nodup, List.nodup_singleton node, fun a ha b hb hab => ?_⟩
    rw [List.mem_singleton] at hb
    exact hnew (hb ▸ hab ▸ ha)
  · rcases List.mem_append.mp hn with hn | hn
    · exact (h.precedes n hn c hc).trans (List.sublist_append_left s.order [node])
    · rw [List.mem_singleton.mp hn] at hc ⊢
      exact (List.singleton_sublist.mpr (hchildren c hc)).append (List.Sublist.refl [node])

omit [DecidableEq ν] in
theorem foldlM_ordered (stack : Finset ν) (nodes cs : List ν) {f : Marks ν → ν → Option (Marks ν)}
    (hf : ∀ s c s', Ordered children stack s → (∀ n ∈ s.order, n ∈ nodes) → c ∈ cs → f s c = some s' →
      Ordered children stack s' ∧ (∀ n ∈ s'.order, n ∈ nodes) ∧ s.visited ⊆ s'.visited ∧ c ∈ s'.visited)
    {s s' : Marks ν} (h : Ordered children stack s) (hin : ∀ n ∈ s.order, n ∈ nodes)
    (hrun : cs.foldlM f s = some s') :
    Ordered children stack s' ∧ (∀ n ∈ s'.order, n ∈ nodes) ∧ s.visited ⊆ s'.visited ∧ ∀ c ∈ cs,
      c ∈ s'.visited := by
  induction cs generalizing s with
  | nil =>
    obtain rfl := Option.some.inj hrun
    exact ⟨h, hin, subset_rfl, nofun⟩
  | cons c cs ih =>
    rw [List.foldlM_cons] at hrun
    obtain ⟨t, hcall, hrun⟩ := Option.bind_eq_some_iff.mp hrun
    obtain ⟨ht, htin, hst, hc⟩ := hf s c t h hin List.mem_cons_self hcall
    obtain ⟨hs', hs'in, hts', hcs⟩ :=
      ih (fun s c s' hs hsin hmem => hf s c s' hs hsin (List.mem_cons_of_mem _ hmem))
      ht htin hrun
    exact ⟨hs', hs'in, hst.trans hts', List.forall_mem_cons.mpr ⟨hts' hc, hcs⟩⟩

variable {nodes : List ν}

/-- **A call lists its node behind its children**, if no cycle runs through the nodes of the graph. -/
theorem visit_ordered (hclosed : ∀ n ∈ nodes, ∀ c ∈ children n, c ∈ nodes)
    (hacyclic : ∀ n ∈ nodes, ¬ TransGen (Edge children) n n) {s s' : Marks ν} (h : Ordered children stack s)
    (hin : ∀ n ∈ s.order, n ∈ nodes) (hnode : node ∈ nodes) (hnew : node ∉ s.visited)
    (hstack : ∀ x ∈ stack, TransGen (Edge children) x node) (hrun : visit children fuel s node = some s') :
    Ordered children stack s' ∧ (∀ n ∈ s'.order, n ∈ nodes) ∧ s.visited ⊆ s'.visited ∧
      node ∈ s'.visited := by
  induction fuel generalizing s s' node stack with
  | zero => cases hrun
  | succ fuel ih =>
    rw [visit] at hrun
    obtain ⟨t, hfold, hrun⟩ := Option.bind_eq_some_iff.mp hrun
    obtain rfl := Option.some.inj hrun
    -- everything on the stack leads to the node
    have hreach : ∀ x ∈ insert node stack, ReflTransGen (Edge children) x node := by
      intro x hx
      rcases Finset.mem_insert.mp hx with rfl | hx
      · exact .refl
      · exact (hstack x hx).to_reflTransGen
    obtain ⟨ht, htin, hst, hcs⟩ := foldlM_ordered (insert node stack) nodes (children node)
      (fun u c u' hu huin hc hcall => by
        split at hcall
        · next hold =>
          obtain rfl := Option.some.inj hcall
          exact ⟨hu, huin, subset_rfl, hold⟩
        · next hnewc =>
          exact ih hu huin (hclosed node hnode c hc) hnewc
            (fun x hx => TransGen.tail' (hreach x hx) hc) hcall)
      (h.enter hnew) hin hfold
    have hnotstack : node ∉ stack := fun hmem => hnew ((h.visited_iff node).mpr (Or.inr hmem))
    -- a child that is visited is listed, for one on the stack would close a cycle
    have hchildren : ∀ c ∈ children node, c ∈ t.order := by
      intro c hc
      rcases (ht.visited_iff c).mp (hcs c hc) with hmem | hmem
      · exact hmem
      · exact absurd (TransGen.tail' (hreach c hmem) hc) (hacyclic c (hclosed node hnode c hc))
    refine ⟨ht.leave hnotstack hchildren, fun n hn => ?_, (Finset.subset_insert _ _).trans hst,
      hst (Finset.mem_insert_self node _)⟩
    rcases List.mem_append.mp hn with hn | hn
    · exact htin n hn
    · rw [List.mem_singleton.mp hn]
      exact hnode

theorem visitAll_ordered (hclosed : ∀ n ∈ nodes, ∀ c ∈ children n, c ∈ nodes)
    (hacyclic : ∀ n ∈ nodes, ¬ TransGen (Edge children) n n) (hroots : ∀ r, r ∈ roots ↔ r ∈ nodes)
    {s' : Marks ν} (hrun : visitAll (visit children fuel) roots ⟨∅, []⟩ = some s') :
    s'.order.Nodup ∧ (∀ n, n ∈ s'.order ↔ n ∈ nodes) ∧
      ∀ n ∈ s'.order, ∀ c ∈ children n, Precedes s'.order c n := by
  have hempty : Ordered children ∅ (⟨∅, []⟩ : Marks ν) := by
    refine ⟨fun n => ?_, nofun, List.nodup_nil, nofun⟩
    show n ∈ (∅ : Finset ν) ↔ n ∈ [] ∨ n ∈ (∅ : Finset ν)
    simp
  obtain ⟨hs', hin, -, hall⟩ := foldlM_ordered ∅ nodes roots
    (fun u c u' hu huin hc hcall => by
      split at hcall
      · next hold =>
        obtain rfl := Option.some.inj hcall
        exact ⟨hu, huin, subset_rfl, hold⟩
      · next hnew => exact visit_ordered hclosed hacyclic hu huin ((hroots c).mp hc) hnew nofun hcall)
    hempty nofun hrun
  refine ⟨hs'.nodup, fun n => ⟨hin n, fun hn => ?_⟩, hs'.precedes⟩
  rcases (hs'.visited_iff n).mp (hall n ((hroots n).mpr hn)) with hmem | hmem
  · exact hmem
  · exact absurd hmem (Finset.notMem_empty n)

/-! ## Enough depth

Each call marks its node, and the nodes to visit are among finitely many. -/

section Depth

variable {nodes visited : Finset ν}

theorem card_unvisited_insert_lt {n : ν} (hn : n ∈ nodes) (hnew : n ∉ visited) :
    (nodes \ insert n visited).card < (nodes \ visited).card := by
  refine Finset.card_lt_card ((Finset.ssubset_iff_of_subset ?_).mpr ⟨n, ?_, ?_⟩)
  · exact Finset.sdiff_subset_sdiff subset_rfl (Finset.subset_insert n visited)
  · exact Finset.mem_sdiff.mpr ⟨hn, hnew⟩
  · exact fun hmem => (Finset.mem_sdiff.mp hmem).2 (Finset.mem_insert_self n visited)

theorem card_unvisited_mono {visited' : Finset ν} (h : visited ⊆ visited') :
    (nodes \ visited').card ≤ (nodes \ visited).card :=
  Finset.card_le_card (Finset.sdiff_subset_sdiff subset_rfl h)

variable {recurse : Search ν → ν → Option (Option (List ν) × Search ν)} {node : ν} {s : Search ν}

theorem scan_visited (hrec : ∀ s c r s', recurse s c = some (r, s') → s.visited ⊆ s'.visited)
    {cs : List ν} {s' : Search ν} {r : Option (List ν)}
    (hrun : scan recurse node cs s = some (r, s')) :
    s.visited ⊆ s'.visited := by
  induction cs generalizing s with
  | nil =>
    rw [scan] at hrun
    cases hrun
    exact subset_rfl
  | cons c cs ih =>
    rw [scan] at hrun
    split at hrun
    · split at hrun
      · cases hrun
      · next hcall =>
        cases hrun
        exact hrec _ _ _ _ hcall
      · next hcall => exact (hrec _ _ _ _ hcall).trans (ih hrun)
    · split at hrun
      · cases hrun
        exact subset_rfl
      · exact ih hrun

variable {fuel : Nat}

theorem findCycle_visited {s' : Search ν} {r : Option (List ν)}
    (hrun : findCycle children fuel s node = some (r, s')) :
    s.visited ⊆ s'.visited := by
  induction fuel generalizing s s' node r with
  | zero => cases hrun
  | succ fuel ih =>
    rw [findCycle] at hrun
    exact (Finset.subset_insert _ _).trans (scan_visited (fun s c r s' => ih) hrun)

theorem scan_isSome {bound : Nat}
    (hvisited : ∀ s c r s', recurse s c = some (r, s') → s.visited ⊆ s'.visited)
    (hrec : ∀ s c, c ∈ nodes → c ∉ s.visited → (nodes \ s.visited).card < bound →
      (recurse s c).isSome)
    {cs : List ν} (hcs : ∀ c ∈ cs, c ∈ nodes) (hbound : (nodes \ s.visited).card < bound) :
    (scan recurse node cs s).isSome := by
  induction cs generalizing s with
  | nil => rfl
  | cons c cs ih =>
    obtain ⟨hc, hcs⟩ := List.forall_mem_cons.mp hcs
    rw [scan]
    split
    · next hnew =>
      obtain ⟨⟨r, t⟩, hcall⟩ := Option.isSome_iff_exists.mp (hrec s c hc hnew hbound)
      rw [hcall]
      cases r with
      | some cycle => rfl
      | none => exact ih hcs ((card_unvisited_mono (hvisited _ _ _ _ hcall)).trans_lt hbound)
    · split
      · rfl
      · exact ih hcs hbound

theorem findCycle_isSome (hclosed : ∀ n ∈ nodes, ∀ c ∈ children n, c ∈ nodes) (hnode : node ∈ nodes)
    (hnew : node ∉ s.visited) (hfuel : (nodes \ s.visited).card ≤ fuel) :
    (findCycle children fuel s node).isSome := by
  induction fuel generalizing s node with
  | zero =>
    have hpos : 0 < (nodes \ s.visited).card :=
      Finset.card_pos.mpr ⟨node, Finset.mem_sdiff.mpr ⟨hnode, hnew⟩⟩
    omega
  | succ fuel ih =>
    rw [findCycle]
    have hlt : (nodes \ insert node s.visited).card < fuel + 1 :=
      (card_unvisited_insert_lt hnode hnew).trans_le hfuel
    exact scan_isSome (fun s c r s' => findCycle_visited)
      (fun s c hc hnewc hbound => ih hc hnewc (Nat.le_of_lt_succ hbound)) (hclosed node hnode) hlt

theorem findCycleAll_isSome (hclosed : ∀ n ∈ nodes, ∀ c ∈ children n, c ∈ nodes) (hfuel : nodes.card ≤ fuel)
    {roots : List ν} (hroots : ∀ r ∈ roots, r ∈ nodes) (s : Search ν) :
    (findCycleAll (findCycle children fuel) roots s).isSome := by
  induction roots generalizing s with
  | nil => rfl
  | cons root roots ih =>
    obtain ⟨hroot, hroots⟩ := List.forall_mem_cons.mp hroots
    rw [findCycleAll]
    split
    · next hnew =>
      have hle : (nodes \ s.visited).card ≤ fuel := (Finset.card_le_card Finset.sdiff_subset).trans hfuel
      obtain ⟨⟨r, t⟩, hcall⟩ := Option.isSome_iff_exists.mp (findCycle_isSome hclosed hroot hnew hle)
      rw [hcall]
      cases r with
      | some cycle => rfl
      | none => exact ih hroots t
    · exact ih hroots s

omit [DecidableEq ν] in
theorem foldlM_visited {f : Marks ν → ν → Option (Marks ν)}
    (hf : ∀ s c s', f s c = some s' → s.visited ⊆ s'.visited) {cs : List ν} {s s' : Marks ν}
    (hrun : cs.foldlM f s = some s') : s.visited ⊆ s'.visited := by
  induction cs generalizing s with
  | nil =>
    obtain rfl := Option.some.inj hrun
    exact subset_rfl
  | cons c cs ih =>
    rw [List.foldlM_cons] at hrun
    obtain ⟨t, hcall, hrun⟩ := Option.bind_eq_some_iff.mp hrun
    exact (hf s c t hcall).trans (ih hrun)

theorem visitNew_visited {f : Marks ν → ν → Option (Marks ν)}
    (hf : ∀ s c s', f s c = some s' → s.visited ⊆ s'.visited) {s s' : Marks ν} {c : ν}
    (hrun : (if c ∈ s.visited then some s else f s c) = some s') : s.visited ⊆ s'.visited := by
  split at hrun
  · obtain rfl := Option.some.inj hrun
    exact subset_rfl
  · exact hf s c s' hrun

theorem visit_visited {fuel : Nat} {s s' : Marks ν} {node : ν}
    (hrun : visit children fuel s node = some s') :
    s.visited ⊆ s'.visited := by
  induction fuel generalizing s s' node with
  | zero => cases hrun
  | succ fuel ih =>
    rw [visit] at hrun
    obtain ⟨t, hfold, hrun⟩ := Option.bind_eq_some_iff.mp hrun
    obtain rfl := Option.some.inj hrun
    exact (Finset.subset_insert _ _).trans
      (foldlM_visited (fun s c s' => visitNew_visited fun s c s' => ih) hfold)

theorem foldlM_isSome {nodes : Finset ν} {f : Marks ν → ν → Option (Marks ν)} {bound : Nat}
    (hvisited : ∀ s c s', f s c = some s' → s.visited ⊆ s'.visited)
    (hf : ∀ s c, c ∈ nodes → c ∉ s.visited → (nodes \ s.visited).card < bound → (f s c).isSome)
    {cs : List ν} (hcs : ∀ c ∈ cs, c ∈ nodes) {s : Marks ν} (hbound : (nodes \ s.visited).card < bound) :
    (cs.foldlM (fun s c => if c ∈ s.visited then some s else f s c) s).isSome := by
  induction cs generalizing s with
  | nil => rfl
  | cons c cs ih =>
    obtain ⟨hc, hcs⟩ := List.forall_mem_cons.mp hcs
    have hcall : (if c ∈ s.visited then some s else f s c).isSome := by
      split
      · rfl
      · next hnew => exact hf s c hc hnew hbound
    obtain ⟨t, hcall⟩ := Option.isSome_iff_exists.mp hcall
    rw [List.foldlM_cons, hcall]
    exact ih hcs ((card_unvisited_mono (visitNew_visited hvisited hcall)).trans_lt hbound)

theorem visit_isSome {nodes : Finset ν} (hclosed : ∀ n ∈ nodes, ∀ c ∈ children n, c ∈ nodes) {fuel : Nat}
    {s : Marks ν} {node : ν} (hnode : node ∈ nodes) (hnew : node ∉ s.visited)
    (hfuel : (nodes \ s.visited).card ≤ fuel) : (visit children fuel s node).isSome := by
  induction fuel generalizing s node with
  | zero =>
    have hpos : 0 < (nodes \ s.visited).card :=
      Finset.card_pos.mpr ⟨node, Finset.mem_sdiff.mpr ⟨hnode, hnew⟩⟩
    omega
  | succ fuel ih =>
    have hlt : (nodes \ insert node s.visited).card < fuel + 1 :=
      (card_unvisited_insert_lt hnode hnew).trans_le hfuel
    have hfold : ((children node).foldlM
      (fun s c => if c ∈ s.visited then some s else visit children fuel s c)
        { s with visited := insert node s.visited }).isSome :=
      foldlM_isSome (fun s c s' => visit_visited)
        (fun s c hc hnewc hbound => ih hc hnewc (Nat.le_of_lt_succ hbound)) (hclosed node hnode) hlt
    obtain ⟨t, hfold⟩ := Option.isSome_iff_exists.mp hfold
    rw [visit, hfold]
    rfl

theorem visitAll_isSome {nodes : Finset ν} (hclosed : ∀ n ∈ nodes, ∀ c ∈ children n, c ∈ nodes) {fuel : Nat}
    (hfuel : nodes.card ≤ fuel) {roots : List ν} (hroots : ∀ r ∈ roots, r ∈ nodes) (s : Marks ν) :
    (visitAll (visit children fuel) roots s).isSome := by
  have hle : ∀ s : Marks ν, (nodes \ s.visited).card ≤ fuel :=
    fun s => (Finset.card_le_card Finset.sdiff_subset).trans hfuel
  exact foldlM_isSome (fun s c s' => visit_visited)
    (fun s c hc hnew _ => visit_isSome hclosed hc hnew (hle s)) hroots
    (Nat.lt_succ_of_le (hle s))

end Depth

/-! ## Self loops

A node that is its own child is visited when the turn of the child comes, so the order does not see it. -/

theorem foldlM_filter_visited {f : Marks ν → ν → Option (Marks ν)}
    (hf : ∀ s c s', f s c = some s' → s.visited ⊆ s'.visited) {node : ν} (cs : List ν) {s : Marks ν}
    (h : node ∈ s.visited) :
    cs.foldlM (fun s c => if c ∈ s.visited then some s else f s c) s =
      (cs.filter (· ≠ node)).foldlM (fun s c => if c ∈ s.visited then some s else f s c) s := by
  induction cs generalizing s with
  | nil => rfl
  | cons c cs ih =>
    by_cases hc : c = node
    · subst hc
      rw [List.foldlM_cons, if_pos h, List.filter_cons_of_neg (by simp)]
      exact ih h
    · rw [List.filter_cons_of_pos (by simpa using hc), List.foldlM_cons, List.foldlM_cons]
      exact Option.bind_congr fun t ht => ih (visitNew_visited hf ht h)

theorem visit_filter_self (fuel : Nat) :
    visit children fuel = visit (fun n => (children n).filter (· ≠ n)) fuel := by
  induction fuel with
  | zero => rfl
  | succ fuel ih =>
    funext s node
    rw [visit, visit, foldlM_filter_visited (fun s c s' => visit_visited) _
      (Finset.mem_insert_self node s.visited), ih]

end Postorder
