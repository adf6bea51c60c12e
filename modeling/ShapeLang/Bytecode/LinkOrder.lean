import ShapeLang.Bytecode.Identity

/-!
# ShapeLang — the order of the linked functions

The linker sorts blobs by their hashes, depth first from the entry and then from whatever else the map
of blobs holds, in the order in which it is walked. For a compilation that links, the same order comes
out of the callee names alone:

  * `callGraph`, `LinkOrder` — the sort, over names and plain calls;
  * `Layout.linkOrder` — the linker's order is one of these;
  * `LinkOrder.length_le`, `LinkOrder.mem` — it has each function once;
  * `sum_take_eq` — what comes before an entry, added up over the whole list.
-/

namespace ShapeLang.Bytecode

open Relation

variable {β κ η : Type}

/-! ## The order by names -/

section Names

variable (unit : Compilation β)

/-- The plain callees of a function, as its callee list has them. -/
noncomputable def plainCallees (x : FunctionBlobBuilder β) : List String :=
  open Classical in x.calledFunctions.filter fun m => PlainCall unit x.name m

noncomputable def callGraph : Topo.Graph String Unit where
  children n := (unit.builders.find? (·.name = n)).map (plainCallees unit)
  missing _ := ()
  circular := ()

/-- An order the linker may use: depth first along plain calls from `__main__`, callees first, and
then from the functions that are left, in some order `keys`. -/
def LinkOrder (order : List String) : Prop :=
  ∃ keys : List String, keys.Perm unit.names ∧
    (callGraph unit).sort (keys.length + 1) "__main__" keys = .ok order

end Names

variable {unit : Compilation β} {order : List String}

theorem find?_builder {x : FunctionBlobBuilder β} (hx : x ∈ unit.builders) :
    unit.builders.find? (·.name = x.name) = some x := by
  cases hfind : unit.builders.find? (·.name = x.name) with
  | none => simpa using List.find?_eq_none.mp hfind x hx
  | some y =>
    have hname : y.name = x.name := by simpa using List.find?_some hfind
    rw [unit.builder_unique (List.mem_of_find?_eq_some hfind) hx hname]

theorem mem_names_of_children {n : String} {cs : List String}
    (h : (callGraph unit).children n = some cs) : n ∈ unit.names := by
  obtain ⟨x, hx, -⟩ := Option.map_eq_some_iff.mp h
  have hname : x.name = n := by simpa using List.find?_some hx
  exact List.mem_map.mpr ⟨x, List.mem_of_find?_eq_some hx, hname⟩

theorem LinkOrder.mem (h : LinkOrder unit order) {n : String} (hn : n ∈ unit.names) : n ∈ order := by
  obtain ⟨keys, hperm, hsort⟩ := h
  obtain ⟨s, -, -, -, hkeys⟩ := Topo.Graph.sort_sorted hsort
  exact hkeys n (hperm.mem_iff.mpr hn)

/-- Callees come first. -/
theorem LinkOrder.idxOf_lt (h : LinkOrder unit order) {n m : String} (hcall : PlainCall unit n m) :
    order.idxOf m < order.idxOf n := by
  classical
  obtain ⟨x, hx, rfl, hmem, -⟩ := hcall.1
  have hn := h.mem (List.mem_map.mpr ⟨x, hx, rfl⟩)
  obtain ⟨keys, -, hsort⟩ := h
  obtain ⟨s, hsorted, rfl, -⟩ := Topo.Graph.sort_sorted hsort
  have hcallees : (unit.builders.find? (·.name = x.name)).map (plainCallees unit) =
      some (plainCallees unit x) := by
    rw [find?_builder hx]
    rfl
  exact hsorted.idxOf_lt hn hcallees (List.mem_filter.mpr ⟨hmem, decide_eq_true hcall⟩)

theorem LinkOrder.length_le (h : LinkOrder unit order) : order.length ≤ unit.names.length := by
  obtain ⟨keys, -, hsort⟩ := h
  obtain ⟨s, hsorted, rfl, -⟩ := Topo.Graph.sort_sorted hsort
  refine (hsorted.nodup.subperm fun n hn => ?_).length_le
  obtain ⟨cs, hcs, -⟩ := hsorted.children_mem hn
  exact mem_names_of_children hcs

/-! ## The linker's order -/

section Link

variable [DecidableEq η] {H : Sha256 (Body κ) η} {unit : Compilation (Body κ)} {program : Program κ η}
  {lp : LinkedProgram κ η} {blobs : List (Blob κ η)}

/-- Two lists filtered alike, one of them under other labels. -/
theorem map_filter_eq_filter {α L : Type} {p : α → Bool} {q : L → Bool} {r : α → L} {l : List α}
    {l' : List L} (h : List.Forall₂ (fun a b => p a = q b ∧ (p a = true → r a = b)) l l') :
    (l.filter p).map r = l'.filter q := by
  induction h with
  | nil => rfl
  | @cons a b l l' hab _ ih =>
    cases hp : p a with
    | false =>
      rw [List.filter_cons_of_neg (by simp [hp]), List.filter_cons_of_neg (by simp [← hab.1, hp]), ih]
    | true =>
      rw [List.filter_cons_of_pos hp, List.filter_cons_of_pos (hab.1 ▸ hp), List.map_cons, ih,
        hab.2 hp]

/-- The name of the blob with a hash. -/
def nameOf (store : FunctionStore (Body κ) η) (hash : η) : String :=
  ((FunctionStore.get store hash).map (·.name)).getD ""

/-- The pointers of a blob are, under their names, the plain callees of its function. -/
theorem map_nameOf_dependencies (hgood : PointersGood H (buildContentAddressedProgram H unit))
    {b : Blob κ η} (hb : (buildContentAddressedProgram H unit).blob? b.name = some b)
    {x : FunctionBlobBuilder (Body κ)} (hx : x ∈ unit.builders) (hname : x.name = b.name) :
    (b.dependencies.filter (· ≠ H.zero)).map
        (nameOf (buildContentAddressedProgram H unit).functionStore) = plainCallees unit x := by
  classical
  have ht := build_tracks H unit
  have hcyc := (compileBlobs_linked H unit).mem_mutualEdges
  obtain ⟨y, hy, hyn, -, hcallees⟩ := build_fromBuilder H unit _ b hb
  obtain rfl : y = x := unit.builder_unique hy hx (hyn.trans hname.symm)
  have haligned := (ht.linked.ok _ b hb).aligned
  unfold plainCallees
  refine map_filter_eq_filter (List.forall₂_iff_get.mpr ⟨by rw [haligned, hcallees], ?_⟩)
  intro i hi hi'
  have hd : b.dependencies[i]? = some (b.dependencies.get ⟨i, hi⟩) := List.getElem?_eq_getElem hi
  have hm : b.calleeNames[i]? = some (y.calledFunctions.get ⟨i, hi'⟩) := by
    rw [hcallees]
    exact List.getElem?_eq_getElem hi'
  have hzero := ht.eq_zero_iff hcyc hb hm hd
  generalize b.dependencies.get ⟨i, hi⟩ = d at hd hzero
  generalize y.calledFunctions.get ⟨i, hi'⟩ = m at hm hzero
  have hplain : d ≠ H.zero ↔ PlainCall unit y.name m := by
    rw [hyn]
    constructor
    · intro hne
      obtain ⟨m', c, hp⟩ := ht.pointsTo_of_ne_zero hcyc hb hd hne
      obtain rfl : m' = m := Option.some.inj (hp.name.symm.trans hm)
      exact hp.call
    · rintro ⟨⟨z, -, -, -, hin⟩, hne, hback⟩ hz
      rcases hzero.mp hz with heq | hcycle | hout
      · exact hne heq.symm
      · exact hback hcycle.2.2
      · exact hout hin
  refine ⟨?_, fun hne => ?_⟩
  · simp only [hplain]
  · -- a good pointer is the hash of the blob with the callee's name
    obtain ⟨hmem, -⟩ := ht.linked.coherent.blob?_eq_some.mp hb
    obtain ⟨c, hc, hcname⟩ := hgood _ hmem i d hd (by simpa using hne)
    rw [nameOf, (FunctionStore.get_eq_some ht.linked.coherent.keys_nodup).mpr hc]
    exact Option.some.inj (hcname.symm.trans hm)

/-- **The linker's order**, by names. -/
theorem Layout.linkOrder (h : Layout H unit program lp blobs)
    (hstore : program.functionStore = (buildContentAddressedProgram H unit).functionStore)
    (hentry : (buildContentAddressedProgram H unit).blobNameToHash "__main__" = some program.entry)
    (hsort : topoSort H.zero program.functionStore program.entry = .ok (blobs.map (·.contentHash))) :
    LinkOrder unit (blobs.map (·.name)) := by
  have hlinked := build_linked H unit
  have hcoh := hlinked.coherent
  have hgood := (pointersGood_iff H unit).mpr h.hashesSettle
  rw [hstore] at hsort
  have hget : ∀ {e : η × Blob κ η}, e ∈ (buildContentAddressedProgram H unit).functionStore →
      nameOf (buildContentAddressedProgram H unit).functionStore e.1 = e.2.name := by
    intro e he
    rw [nameOf, (FunctionStore.get_eq_some hcoh.keys_nodup).mpr he]
    rfl
  have hstored : ∀ {hash : η} {cs : List η},
      (dependencyGraph H.zero (buildContentAddressedProgram H unit).functionStore).children hash
        = some cs →
      ∃ b, (hash, b) ∈ (buildContentAddressedProgram H unit).functionStore ∧
        cs = b.dependencies.filter (· ≠ H.zero) := by
    intro hash cs hcs
    obtain ⟨b, hb, rfl⟩ := children_eq_some.mp hcs
    exact ⟨b, (FunctionStore.get_eq_some hcoh.keys_nodup).mp hb, rfl⟩
  have hrelabel : Topo.Graph.Relabels
      (dependencyGraph H.zero (buildContentAddressedProgram H unit).functionStore) (callGraph unit)
      (fun hash => ∃ b, (hash, b) ∈ (buildContentAddressedProgram H unit).functionStore)
      (nameOf (buildContentAddressedProgram H unit).functionStore) := by
    refine ⟨?_, fun hash cs _ hcs d hd => ?_, fun hash cs _ hcs => ?_⟩
    · rintro a b ⟨c, hc⟩ ⟨c', hc'⟩ hsame
      rw [hget hc, hget hc'] at hsame
      exact congrArg Prod.fst (List.inj_on_of_nodup_map hcoh.names_nodup hc hc' hsame)
    · obtain ⟨b, hb, rfl⟩ := hstored hcs
      obtain ⟨hd, hne⟩ := List.mem_filter.mp hd
      obtain ⟨i, hi⟩ := List.mem_iff_getElem?.mp hd
      obtain ⟨c, hc, -⟩ := hgood _ hb i d hi (of_decide_eq_true hne)
      exact ⟨c, hc⟩
    · obtain ⟨b, hb, rfl⟩ := hstored hcs
      obtain ⟨hblob, -⟩ := hcoh.mem_iff.mp hb
      obtain ⟨x, hx, hxn, -⟩ := build_fromBuilder H unit _ b hblob
      rw [hget hb, map_nameOf_dependencies hgood hblob hx hxn]
      show (unit.builders.find? (·.name = b.name)).map (plainCallees unit) = _
      rw [← hxn, find?_builder hx]
      rfl
  -- the entry and the keys of the map, by names
  obtain ⟨main, hmain, hmainName⟩ := hcoh.registered _ _ hentry
  have hkeys : ∀ k ∈ (buildContentAddressedProgram H unit).functionStore.map Prod.fst,
      ∃ b, (k, b) ∈ (buildContentAddressedProgram H unit).functionStore := by
    intro k hk
    obtain ⟨e, he, rfl⟩ := List.mem_map.mp hk
    exact ⟨e.2, he⟩
  have hnames := Topo.Graph.sort_relabel hrelabel ⟨main, hmain⟩ hkeys hsort
  have hroot : nameOf (buildContentAddressedProgram H unit).functionStore program.entry
      = "__main__" := (hget hmain).trans hmainName
  have horder : (blobs.map (·.contentHash)).map
      (nameOf (buildContentAddressedProgram H unit).functionStore) = blobs.map (·.name) := by
    rw [List.map_map]
    exact List.map_congr_left fun b hb => hget ((h.sorted.mem_iff b).mp hb)
  rw [hroot, horder] at hnames
  refine ⟨_, ?_, by rw [List.length_map, List.length_map]; exact hnames⟩
  have hmap : ((buildContentAddressedProgram H unit).functionStore.map Prod.fst).map
      (nameOf (buildContentAddressedProgram H unit).functionStore)
        = (buildContentAddressedProgram H unit).functionStore.map (·.2.name) := by
    rw [List.map_map]
    exact List.map_congr_left fun e he => hget he
  rw [hmap]
  exact hlinked.names_perm

/-- A blob stands at its place in the order. -/
theorem SortedBlobs.idxOf_name {store : FunctionStore (Body κ) η} {zero : η}
    (h : SortedBlobs zero store blobs) {j : Nat} {b : Blob κ η} (hj : blobs[j]? = some b) :
    (blobs.map (·.name)).idxOf b.name = j := by
  obtain ⟨hlt, rfl⟩ := List.getElem?_eq_some_iff.mp hj
  have hlt' : j < (blobs.map (·.name)).length := by
    rw [List.length_map]
    exact hlt
  have hidx := h.names_nodup.idxOf_getElem j hlt'
  rwa [List.getElem_map] at hidx

end Link

/-! ## What comes before -/

/-- The sum over the first `k` entries, as a sum over all. -/
theorem sum_take_eq {α L : Type} [DecidableEq L] (label : α → L) (size : α → Nat) {l : List α}
    (hnodup : (l.map label).Nodup) (k : Nat) :
    ((l.map size).take k).sum
      = (l.map fun a => if (l.map label).idxOf (label a) < k then size a else 0).sum := by
  induction l generalizing k with
  | nil => simp
  | cons a l ih =>
    rw [List.map_cons, List.nodup_cons] at hnodup
    -- the others are one further than in the tail
    have hshift : ∀ b ∈ l, ((a :: l).map label).idxOf (label b) = (l.map label).idxOf (label b) + 1 := by
      intro b hb
      have hne : label a ≠ label b := fun heq => hnodup.1 (heq ▸ List.mem_map_of_mem hb)
      rw [List.map_cons, List.idxOf_cons_ne _ hne]
    cases k with
    | zero => simp
    | succ k =>
      rw [List.map_cons, List.take_succ_cons, List.sum_cons, ih hnodup.2, List.map_cons, List.sum_cons]
      have hfirst : ((a :: l).map label).idxOf (label a) < k + 1 := by
        rw [List.map_cons, List.idxOf_cons_self]
        exact Nat.succ_pos k
      rw [if_pos hfirst]
      congr 2
      refine List.map_congr_left fun b hb => ?_
      rw [hshift b hb]
      simp only [Nat.add_lt_add_iff_right]

end ShapeLang.Bytecode
