import ShapeLang.Bytecode.LinkStore
import ShapeLang.Bytecode.Linker
import ShapeLang.Lib.Fallible

/-!
# ShapeLang — what the linker does

The linker's result, read off once:

  * `sortedBlobs_spec` — the sort lists every stored blob, and every dependency of one is listed;
  * `indexBy_eq_some` — the two indices of the linker are positions in that list;
  * `linkBlobs_ok`, `exists_linkBlobs` — with which program the rest of linking succeeds, and when.
-/

namespace ShapeLang.Bytecode

open Topo

variable {β κ η : Type} [DecidableEq η] {zero : η}

/-! ## Stores -/

/-- A store in which hashes and names are each unambiguous. -/
structure WellKeyed (store : FunctionStore β η) : Prop where
  keys_nodup : (store.map Prod.fst).Nodup
  keyed : ∀ e ∈ store, e.1 = e.2.contentHash
  names_nodup : (store.map (·.2.name)).Nodup

omit [DecidableEq η] in
theorem Coherent.wellKeyed {H : Sha256 β η} {st : LinkState β η} (h : Coherent H st) :
    WellKeyed st.functionStore :=
  ⟨h.keys_nodup, h.keyed, h.names_nodup⟩

variable {store : FunctionStore β η} {hash : η}

theorem WellKeyed.get_eq_some (h : WellKeyed store) {b : FunctionBlob β η} :
    FunctionStore.get store hash = some b ↔ (b.contentHash, b) ∈ store ∧ hash = b.contentHash := by
  rw [FunctionStore.get_eq_some h.keys_nodup]
  constructor
  · intro hmem
    have hk : hash = b.contentHash := h.keyed _ hmem
    exact ⟨hk ▸ hmem, hk⟩
  · rintro ⟨hmem, rfl⟩
    exact hmem

/-! ## The sort -/

theorem children_eq_some {cs : List η} :
    (dependencyGraph zero store).children hash = some cs ↔ ∃ b,
      FunctionStore.get store hash = some b ∧ cs = b.dependencies.filter (· ≠ zero) := by
  show (FunctionStore.get store hash).map _ = some cs ↔ _
  rw [Option.map_eq_some_iff]
  constructor
  · rintro ⟨b, hb, rfl⟩
    exact ⟨b, hb, rfl⟩
  · rintro ⟨b, hb, rfl⟩
    exact ⟨b, hb, rfl⟩

/-- A store whose dependencies are all there and decrease a rank is sorted. -/
theorem topoSort_ok (h : WellKeyed store) (rank : η → Nat)
    (hdeps : ∀ e ∈ store, ∀ d ∈ e.2.dependencies, d ≠ zero → d ∈ store.map Prod.fst ∧ rank d < rank e.1)
    (hrank : ∀ e ∈ store, rank e.1 < store.length + 1) {entry : η} (hentry : entry ∈ store.map Prod.fst) :
    ∃ order, topoSort zero store entry = .ok order := by
  -- the sort is that of the graph of dependencies, ZERO left out
  have hpresent : ∀ hash ∈ store.map Prod.fst,
      ((dependencyGraph zero store).children hash).isSome := by
    intro hash hmem
    obtain ⟨e, he, rfl⟩ := List.mem_map.mp hmem
    have hget := (FunctionStore.get_eq_some h.keys_nodup).mpr he
    rw [children_eq_some.mpr ⟨e.2, hget, rfl⟩]
    rfl
  have hstored : ∀ {hash cs}, (dependencyGraph zero store).children hash = some cs →
      ∃ b, (hash, b) ∈ store ∧ cs = b.dependencies.filter (· ≠ zero) := by
    intro hash cs hcs
    obtain ⟨b, hb, rfl⟩ := children_eq_some.mp hcs
    exact ⟨b, (FunctionStore.get_eq_some h.keys_nodup).mp hb, rfl⟩
  have hdep : ∀ n cs, (dependencyGraph zero store).children n = some cs → ∀ c ∈ cs,
      c ∈ store.map Prod.fst ∧ rank c < rank n := by
    intro n cs hcs c hc
    obtain ⟨b, hb, rfl⟩ := hstored hcs
    obtain ⟨hc, hne⟩ := List.mem_filter.mp hc
    exact hdeps _ hb c hc (of_decide_eq_true hne)
  refine Graph.sort_ok rank ⟨fun n cs hcs c hc => ?_, fun n cs hcs c hc => ?_⟩
    (fun n hn => ?_) (hpresent entry hentry) hpresent
  · exact hpresent c (hdep n cs hcs c hc).1
  · exact (hdep n cs hcs c hc).2
  · obtain ⟨cs, hcs⟩ := Option.isSome_iff_exists.mp hn
    obtain ⟨b, hb, -⟩ := hstored hcs
    exact hrank _ hb

/-- What is known of the blobs the linker works on. -/
structure SortedBlobs (zero : η) (store : FunctionStore (Body κ) η) (blobs : List (Blob κ η)) :
    Prop where
  mem_iff : ∀ b, b ∈ blobs ↔ (b.contentHash, b) ∈ store
  hashes_nodup : (blobs.map (·.contentHash)).Nodup
  names_nodup : (blobs.map (·.name)).Nodup
  dependency : ∀ b ∈ blobs, ∀ d ∈ b.dependencies, d ≠ zero → ∃ c ∈ blobs, c.contentHash = d ∧
    (blobs.map (·.contentHash)).idxOf d < (blobs.map (·.contentHash)).idxOf b.contentHash

theorem storedBlob_eq_ok {b : FunctionBlob β η} :
    storedBlob store hash = .ok b ↔ FunctionStore.get store hash = some b := by
  rw [storedBlob]
  cases FunctionStore.get store hash with
  | none => simp
  | some b' => simp

variable {order : List η} {blobs : List (Blob κ η)}

/-- The blobs of a sorted list of hashes. -/
theorem blobs_of_order {store : FunctionStore (Body κ) η} (h : WellKeyed store)
    (hall : List.Forall₂ (fun hash b => storedBlob store hash = .ok b) order blobs) :
    blobs.map (·.contentHash) = order ∧ ∀ b ∈ blobs, (b.contentHash, b) ∈ store := by
  induction hall with
  | nil => exact ⟨rfl, fun b hb => absurd hb List.not_mem_nil⟩
  | @cons hash b order blobs hb _ ih =>
    obtain ⟨hmem, hk⟩ := h.get_eq_some.mp (storedBlob_eq_ok.mp hb)
    refine ⟨?_, fun x hx => ?_⟩
    · rw [List.map_cons, ih.1, hk]
    · rcases List.mem_cons.mp hx with rfl | hx
      · exact hmem
      · exact ih.2 x hx

variable {program : Program κ η}

/-- The blobs stand in the order of the sort. -/
theorem topoSort_of_sortedBlobs (h : WellKeyed program.functionStore)
    (hok : sortedBlobs zero program = .ok blobs) :
    topoSort zero program.functionStore program.entry = .ok (blobs.map (·.contentHash)) := by
  unfold sortedBlobs at hok
  obtain ⟨order, hsort, hmap⟩ := Fallible.bind_eq_ok.mp hok
  rw [(blobs_of_order h (Fallible.mapM_eq_ok.mp hmap)).1]
  exact hsort

theorem sortedBlobs_spec (h : WellKeyed program.functionStore)
    (hok : sortedBlobs zero program = .ok blobs) :
    SortedBlobs zero program.functionStore blobs := by
  unfold sortedBlobs at hok
  obtain ⟨order, hsort, hmap⟩ := Fallible.bind_eq_ok.mp hok
  obtain ⟨horder, hstored⟩ := blobs_of_order h (Fallible.mapM_eq_ok.mp hmap)
  obtain ⟨s, hsorted, rfl, -, hkeys⟩ := Graph.sort_sorted hsort
  -- every stored blob is reached, since the sort starts from each key
  have hmem : ∀ b, b ∈ blobs ↔ (b.contentHash, b) ∈ program.functionStore := by
    intro b
    refine ⟨hstored b, fun hb => ?_⟩
    have hin := hkeys b.contentHash (List.mem_map.mpr ⟨_, hb, rfl⟩)
    rw [← horder] at hin
    obtain ⟨b', hb', hhash⟩ := List.mem_map.mp hin
    obtain rfl : b' = b := congrArg Prod.snd (List.inj_on_of_nodup_map h.keys_nodup
      (hstored b' hb') hb hhash)
    exact hb'
  have hnd : (blobs.map (·.contentHash)).Nodup := horder ▸ hsorted.nodup
  refine ⟨hmem, hnd, ?_, fun b hb d hd hne => ?_⟩
  -- hashes tell blobs apart, and so do names
  · refine List.Nodup.map_on (fun b hb b' hb' hname => ?_) (List.Nodup.of_map _ hnd)
    exact congrArg Prod.snd (List.inj_on_of_nodup_map h.names_nodup (hstored b hb) (hstored b' hb')
      hname)
  · have hb' := hstored b hb
    have hchildren : (dependencyGraph zero program.functionStore).children b.contentHash = some _ :=
      children_eq_some.mpr ⟨b, (FunctionStore.get_eq_some h.keys_nodup).mpr hb', rfl⟩
    have hin : b.contentHash ∈ s.order := horder ▸ List.mem_map.mpr ⟨b, hb, rfl⟩
    have hdc : d ∈ b.dependencies.filter (· ≠ zero) := List.mem_filter.mpr ⟨hd, by simpa using hne⟩
    obtain ⟨cs, hcs, hall⟩ := hsorted.children_mem hin
    obtain rfl := Option.some.inj (hcs.symm.trans hchildren)
    have hdmem := hall d hdc
    -- a dependency is finished before the blob that has it
    have hlt := hsorted.idxOf_lt hin hchildren hdc
    rw [← horder] at hdmem hlt
    obtain ⟨c, hc, rfl⟩ := List.mem_map.mp hdmem
    exact ⟨c, hc, rfl, hlt⟩

theorem sortedBlobs_ok_of_topoSort (hsort : topoSort zero program.functionStore program.entry = .ok order) :
    ∃ blobs, sortedBlobs zero program = .ok blobs := by
  obtain ⟨s, hsorted, rfl, -, -⟩ := Graph.sort_sorted hsort
  have hall : ∀ hash ∈ s.order, ∃ b, storedBlob program.functionStore hash = .ok b := by
    intro hash hmem
    obtain ⟨cs, hcs, -⟩ := hsorted.children_mem hmem
    obtain ⟨b, hb, -⟩ := children_eq_some.mp hcs
    exact ⟨b, storedBlob_eq_ok.mpr hb⟩
  obtain ⟨blobs, hblobs⟩ := Fallible.exists_mapM_eq_ok.mpr hall
  refine ⟨blobs, ?_⟩
  unfold sortedBlobs
  rw [hsort]
  exact hblobs

/-! ## Indices -/

variable {α L : Type} {label : α → L} {l : List α} {i : Nat}

/-- An index is made of positions. -/
theorem indexBy_foldl [DecidableEq L] (start : Nat) (index : L → Option Nat) {k : L}
    (h : (l.zipIdx start).foldl (fun m e => Function.update m (label e.1) (some e.2)) index k = some i) :
    index k = some i ∨ ∃ j a, l[j]? = some a ∧ label a = k ∧ i = start + j := by
  induction l generalizing start index with
  | nil => exact Or.inl h
  | cons a l ih =>
    rw [List.zipIdx_cons, List.foldl_cons] at h
    rcases ih (start + 1) _ h with hind | ⟨j, b, hb, hk, hi⟩
    · by_cases hak : label a = k
      · rw [← hak, Function.update_self] at hind
        exact Or.inr ⟨0, a, rfl, hak, (Option.some.inj hind).symm⟩
      · rw [Function.update_of_ne (Ne.symm hak)] at hind
        exact Or.inl hind
    · exact Or.inr ⟨j + 1, b, hb, hk, by omega⟩

theorem indexBy_isSome [DecidableEq L] (label : α → L) (start : Nat) (index : L → Option Nat) {k : L}
    (h : (index k).isSome ∨ ∃ a ∈ l, label a = k) :
    ((l.zipIdx start).foldl (fun m e => Function.update m (label e.1) (some e.2)) index k).isSome := by
  induction l generalizing start index with
  | nil =>
    rcases h with h | ⟨a, ha, -⟩
    · exact h
    · exact absurd ha List.not_mem_nil
  | cons a l ih =>
    rw [List.zipIdx_cons, List.foldl_cons]
    refine ih (start + 1) _ ?_
    by_cases hak : label a = k
    · subst hak
      rw [Function.update_self]
      exact Or.inl rfl
    · rw [Function.update_of_ne (Ne.symm hak)]
      rcases h with h | ⟨b, hb, hbk⟩
      · exact Or.inl h
      · rcases List.mem_cons.mp hb with rfl | hb
        · exact absurd hbk hak
        · exact Or.inr ⟨b, hb, hbk⟩

/-- **The index of distinct labels is the position.** -/
theorem indexBy_eq_some [DecidableEq L] (hnd : (l.map label).Nodup) {k : L} :
    indexBy label l k = some i ↔ ∃ a, l[i]? = some a ∧ label a = k := by
  have hsound : ∀ {j : Nat}, indexBy label l k = some j → ∃ a, l[j]? = some a ∧ label a = k := by
    intro j h
    rcases indexBy_foldl 0 _ h with h | ⟨j', a, ha, hk, rfl⟩
    · cases h
    · rw [Nat.zero_add]
      exact ⟨a, ha, hk⟩
  refine ⟨hsound, ?_⟩
  rintro ⟨a, ha, hk⟩
  obtain ⟨j, hj⟩ := Option.isSome_iff_exists.mp (indexBy_isSome label (l := l) 0
    (fun _ => none) (Or.inr ⟨a, List.mem_of_getElem? ha, hk⟩))
  obtain ⟨a', ha', hk'⟩ := hsound (j := j) hj
  -- two positions with one label
  have hpos : i = j := by
    have hi : (l.map label)[i]? = some k := by rw [List.getElem?_map, ha, Option.map_some, hk]
    have hj' : (l.map label)[j]? = some k := by rw [List.getElem?_map, ha', Option.map_some, hk']
    obtain ⟨hlt, hik⟩ := List.getElem?_eq_some_iff.mp hi
    obtain ⟨hlt', hjk⟩ := List.getElem?_eq_some_iff.mp hj'
    exact (List.Nodup.getElem_inj_iff hnd).mp (hik.trans hjk.symm)
  rw [hpos]
  exact hj

theorem forall₂_getElem? {γ : Type} {R : α → γ → Prop} {l' : List γ} (h : List.Forall₂ R l l')
    {a : α} {c : γ} (ha : l[i]? = some a) (hc : l'[i]? = some c) :
    R a c := by
  induction h generalizing i with
  | nil => cases ha
  | cons hr _ ih =>
    cases i with
    | zero =>
      obtain rfl := Option.some.inj ha
      obtain rfl := Option.some.inj hc
      exact hr
    | succ i => exact ih ha hc

/-! ## Linking the sorted blobs -/

/-- The layout of a closure comes with the program or can be reconstructed. -/
def LayoutOk (layouts : String → Option ClosureLayout) (b : Blob κ η) : Prop :=
  (layouts b.name).isSome ∨ b.body.isClosure = false ∨
    ∃ layout, reconstructTransferredClosureLayout b.body = .ok layout

/-- Every foreign call of a body has an entry in the table. -/
def ForeignOk (table : List ForeignFunctionEntry) (body : Body κ) : Prop :=
  ∀ instr ∈ body.instructions, ∀ ordinal, instr.operand = some (.foreignFunction ordinal) →
    ∃ hash, body.foreignDependencies[ordinal.toNat]? = some hash ∧ (foreignHashToIdx table hash).isSome

/-- What the sorted blobs have to satisfy. -/
structure Linkable (program : Program κ η) (blobs : List (Blob κ η)) : Prop where
  constants : (blobs.map (·.body.constants.length)).sum ≤ maxConstants
  strings : (blobs.map (·.body.strings.length)).sum ≤ maxStrings
  layouts : ∀ b ∈ blobs, LayoutOk program.closureFunctionLayoutsByName b
  foreign : ∀ b ∈ blobs, ForeignOk program.foreignFunctions b.body

omit [DecidableEq η] in
theorem exists_remapClosureFunctionLayouts :
    (∃ layouts, remapClosureFunctionLayouts program blobs = .ok layouts) ↔
      ∀ b ∈ blobs, LayoutOk program.closureFunctionLayoutsByName b := by
  unfold remapClosureFunctionLayouts
  rw [Fallible.exists_mapM_eq_ok]
  refine forall₂_congr fun b _ => ?_
  unfold LayoutOk
  cases program.closureFunctionLayoutsByName b.name with
  | some layout => simp
  | none =>
    cases b.body.isClosure with
    | false => simp
    | true =>
      cases reconstructTransferredClosureLayout b.body with
      | ok layout => simp
      | error e => simp

variable {b : Blob κ η} {instr : Instruction} {hashToId : η → Option Nat} {nameToId : String → Option Nat}

theorem exists_remapInstruction {off : BlobOffsets} {id : Nat} {table : List ForeignFunctionEntry} :
    (∃ r, remapInstruction zero instr off b id hashToId nameToId (foreignHashToIdx table) = .ok r) ↔
      ∀ ordinal, instr.operand = some (.foreignFunction ordinal) →
        ∃ hash, b.body.foreignDependencies[ordinal.toNat]? = some hash ∧
          (foreignHashToIdx table hash).isSome := by
  unfold remapInstruction
  cases hop : instr.operand with
  | none => simp
  | some operand =>
    -- only a foreign call can fail
    have hforeign : (∃ r, remapOperand zero operand off b id hashToId nameToId
        (foreignHashToIdx table) = .ok r) ↔ ∀ ordinal, operand = .foreignFunction ordinal →
          ∃ hash, b.body.foreignDependencies[ordinal.toNat]? = some hash ∧
            (foreignHashToIdx table hash).isSome := by
      cases operand with
      | foreignFunction ordinal =>
        simp only [remapOperand, Operand.foreignFunction.injEq, forall_eq']
        cases b.body.foreignDependencies[ordinal.toNat]? with
        | none => simp
        | some hash =>
          simp only [Option.some.injEq, exists_eq_left']
          cases foreignHashToIdx table hash with
          | none => simp
          | some idx => simp
      | _ => simp [remapOperand]
    constructor
    · rintro ⟨r, hr⟩ ordinal hord
      obtain ⟨operand', hoperand, -⟩ := Fallible.bind_eq_ok.mp hr
      exact hforeign.mp ⟨operand', hoperand⟩ ordinal (Option.some.inj hord)
    · intro h
      obtain ⟨operand', hoperand⟩ := hforeign.mpr fun ordinal hord => h ordinal (congrArg some hord)
      exact ⟨_, Fallible.bind_eq_ok.mpr ⟨operand', hoperand, rfl⟩⟩

variable {placed : (Blob κ η × BlobOffsets) × Nat}

theorem exists_remapInstructions :
    (∃ r, remapInstructions zero program blobs placed = .ok r) ↔
      ForeignOk program.foreignFunctions placed.1.1.body := by
  unfold remapInstructions ForeignOk
  rw [Fallible.exists_mapM_eq_ok]
  exact forall₂_congr fun instr _ => exists_remapInstruction

omit [DecidableEq η] in
theorem blobOffsets_length (off : BlobOffsets) (blobs : List (Blob κ η)) :
    (blobOffsets off blobs).length = blobs.length := by
  induction blobs generalizing off with
  | nil => rfl
  | cons b blobs ih => rw [blobOffsets, List.length_cons, List.length_cons, ih]

omit [DecidableEq η] in
theorem placedBlobs_map_blob (blobs : List (Blob κ η)) :
    (placedBlobs blobs).map (·.1.1) = blobs := by
  have hfst : (placedBlobs blobs).map (·.1) = blobs.zip (blobOffsets ⟨0, 0, 0⟩ blobs) :=
    List.zipIdx_map_fst ..
  calc (placedBlobs blobs).map (·.1.1)
      = ((placedBlobs blobs).map (·.1)).map Prod.fst := (List.map_map ..).symm
    _ = blobs := by rw [hfst, List.map_fst_zip (Nat.le_of_eq (blobOffsets_length _ _).symm)]

omit [DecidableEq η] in
/-- A placed blob stands at its function id. -/
theorem getElem?_of_mem_placedBlobs (h : placed ∈ placedBlobs blobs) :
    blobs[placed.2]? = some placed.1.1 := by
  have hz : (blobs.zip (blobOffsets ⟨0, 0, 0⟩ blobs))[placed.2]? = some placed.1 :=
    List.mem_zipIdx_iff_getElem?.mp h
  exact (List.getElem?_zip_eq_some.mp hz).1

omit [DecidableEq η] in
theorem getElem?_placedBlobs (h : placed ∈ placedBlobs blobs) :
    (placedBlobs blobs)[placed.2]? = some placed := by
  have hz := List.mem_zipIdx_iff_getElem?.mp h
  rw [placedBlobs, List.getElem?_zipIdx, hz]
  simp

omit [DecidableEq η] in
theorem exists_placedBlobs (hb : b ∈ blobs) :
    ∃ placed ∈ placedBlobs blobs, placed.1.1 = b := by
  rw [← placedBlobs_map_blob blobs] at hb
  exact List.mem_map.mp hb

/-! ## Positions -/

/-- The sizes of the pools before the `i`-th blob. -/
def offsetsAt (blobs : List (Blob κ η)) (i : Nat) : BlobOffsets where
  instructionBase := ((blobs.map (·.body.instructions.length)).take i).sum
  constBase := ((blobs.map (·.body.constants.length)).take i).sum
  stringBase := ((blobs.map (·.body.strings.length)).take i).sum

omit [DecidableEq η] in
theorem getElem?_blobOffsets (off : BlobOffsets) (blobs : List (Blob κ η)) (i : Nat) :
    (blobOffsets off blobs)[i]? = blobs[i]?.map fun _ =>
      ⟨off.instructionBase + (offsetsAt blobs i).instructionBase,
        off.constBase + (offsetsAt blobs i).constBase,
        off.stringBase + (offsetsAt blobs i).stringBase⟩ := by
  induction blobs generalizing off i with
  | nil => rfl
  | cons b blobs ih =>
    rw [blobOffsets]
    cases i with
    | zero => rfl
    | succ i =>
      rw [List.getElem?_cons_succ, ih, List.getElem?_cons_succ]
      simp only [offsetsAt, List.map_cons, List.take_succ_cons, List.sum_cons, Nat.add_assoc]

omit [DecidableEq η] in
theorem placed_offsets (h : placed ∈ placedBlobs blobs) : placed.1.2 = offsetsAt blobs placed.2 := by
  have hz : (blobs.zip (blobOffsets ⟨0, 0, 0⟩ blobs))[placed.2]? = some placed.1 :=
    List.mem_zipIdx_iff_getElem?.mp h
  have hoff := (List.getElem?_zip_eq_some.mp hz).2
  rw [getElem?_blobOffsets, getElem?_of_mem_placedBlobs h] at hoff
  rw [← Option.some.inj hoff]
  simp only [Nat.zero_add]

/-- An element of the `i`-th part stands that many places after the parts before it. -/
theorem getElem?_flatten_part {parts : List (List α)} {part : List α} (h : parts[i]? = some part) {k : Nat}
    (hk : k < part.length) :
    parts.flatten[((parts.map List.length).take i).sum + k]? = part[k]? := by
  induction parts generalizing i with
  | nil => cases h
  | cons p parts ih =>
    cases i with
    | zero =>
      obtain rfl : p = part := Option.some.inj h
      rw [List.take_zero, List.sum_nil, Nat.zero_add, List.flatten_cons,
        List.getElem?_append_left hk]
    | succ i =>
      rw [List.map_cons, List.take_succ_cons, List.sum_cons, List.flatten_cons,
        List.getElem?_append_right (by omega), ← ih h]
      congr 1
      omega

/-- The program that linking makes of the blobs. -/
structure IsLinked (zero : η) (program : Program κ η) (blobs : List (Blob κ η))
    (lp : LinkedProgram κ η) : Prop where
  instructions : ∃ parts, List.Forall₂ (fun placed part =>
    remapInstructions zero program blobs placed = .ok part) (placedBlobs blobs) parts ∧
      lp.instructions = parts.flatten
  constants : lp.constants = (placedBlobs blobs).flatMap (remapConstants zero blobs)
  strings : lp.strings = blobs.flatMap (·.body.strings)
  functions : lp.functions = (placedBlobs blobs).map fun placed =>
    linkedFunction placed.1.1 placed.1.2
  foreignFunctions : lp.foreignFunctions = program.foreignFunctions

variable {lp : LinkedProgram κ η}

theorem linkBlobs_ok (h : linkBlobs zero program blobs = .ok lp) :
    Linkable program blobs ∧ IsLinked zero program blobs lp := by
  unfold linkBlobs at h
  simp only at h
  split at h
  · cases h
  rename_i hconst
  split at h
  · cases h
  rename_i hstr
  obtain ⟨layouts, hlay, h⟩ := Fallible.bind_eq_ok.mp h
  obtain ⟨parts, hparts, h⟩ := Fallible.bind_eq_ok.mp h
  obtain rfl := Except.ok.inj h
  refine ⟨⟨Nat.not_lt.mp hconst, Nat.not_lt.mp hstr,
    exists_remapClosureFunctionLayouts.mp ⟨layouts, hlay⟩, fun b hb => ?_⟩,
    ⟨⟨parts, Fallible.mapM_eq_ok.mp hparts, rfl⟩, rfl, rfl, rfl, rfl⟩⟩
  obtain ⟨placed, hplaced, rfl⟩ := exists_placedBlobs hb
  exact exists_remapInstructions.mp (Fallible.exists_mapM_eq_ok.mp ⟨parts, hparts⟩ placed hplaced)

theorem exists_linkBlobs (zero : η) (h : Linkable program blobs) :
    ∃ lp, linkBlobs zero program blobs = .ok lp := by
  obtain ⟨layouts, hlay⟩ := exists_remapClosureFunctionLayouts.mpr h.layouts
  obtain ⟨parts, hparts⟩ := (Fallible.exists_mapM_eq_ok (f := remapInstructions zero program blobs)
    (l := placedBlobs blobs)).mpr fun placed hplaced => exists_remapInstructions.mpr <| by
      refine h.foreign _ ?_
      rw [← placedBlobs_map_blob blobs]
      exact List.mem_map.mpr ⟨placed, hplaced, rfl⟩
  unfold linkBlobs
  simp only [if_neg (Nat.not_lt.mpr h.constants), if_neg (Nat.not_lt.mpr h.strings), hlay, hparts]
  exact ⟨_, rfl⟩

theorem remapOperand_error {operand : Operand} {off : BlobOffsets} {id : Nat}
    {foreignIdx : ForeignHash → Option Nat} {e : LinkError η}
    (h : remapOperand zero operand off b id hashToId nameToId foreignIdx = .error e) :
    (∀ hash, e ≠ .missingBlob hash) ∧ e ≠ .circularDependency := by
  cases operand with
  | foreignFunction ordinal =>
    rw [remapOperand] at h
    split at h
    · obtain rfl := Except.error.inj h
      exact ⟨nofun, nofun⟩
    · split at h
      · obtain rfl := Except.error.inj h
        exact ⟨nofun, nofun⟩
      · cases h
  | _ => cases h

/-- The instructions of a placed blob in the linked program. -/
theorem IsLinked.getElem?_instructions (h : IsLinked zero program blobs lp)
    (hplaced : placed ∈ placedBlobs blobs) {k : Nat}
    (hk : placed.1.1.body.instructions[k]? = some instr) :
    ∃ r, lp.instructions[placed.1.2.instructionBase + k]? = some r ∧
      remapInstruction zero instr placed.1.2 placed.1.1 placed.2 (indexBy (·.contentHash) blobs)
        (indexBy (·.name) blobs) (foreignHashToIdx program.foreignFunctions) = .ok r := by
  obtain ⟨parts, hparts, hflat⟩ := h.instructions
  have hlen : parts.map List.length = blobs.map (·.body.instructions.length) := by
    conv => rhs; rw [← placedBlobs_map_blob blobs, List.map_map]
    clear hflat hplaced
    generalize placedBlobs blobs = placeds at hparts
    induction hparts with
    | nil => rfl
    | cons hpart _ ih =>
      rw [List.map_cons, List.map_cons, ih, ← (Fallible.mapM_eq_ok.mp hpart).length_eq]
      rfl
  -- the part of this blob
  have hat := getElem?_placedBlobs hplaced
  obtain ⟨part, hpart, hremap⟩ : ∃ part, parts[placed.2]? = some part ∧
      remapInstructions zero program blobs placed = .ok part := by
    have hlt := (List.getElem?_eq_some_iff.mp hat).1
    rw [hparts.length_eq] at hlt
    exact ⟨_, List.getElem?_eq_getElem hlt, forall₂_getElem? hparts hat
      (List.getElem?_eq_getElem hlt)⟩
  have hall := Fallible.mapM_eq_ok.mp hremap
  have hklt := (List.getElem?_eq_some_iff.mp hk).1
  rw [hall.length_eq] at hklt
  refine ⟨part[k], ?_, forall₂_getElem? hall hk (List.getElem?_eq_getElem hklt)⟩
  rw [hflat, placed_offsets hplaced, offsetsAt, ← hlen, getElem?_flatten_part hpart hklt,
    List.getElem?_eq_getElem hklt]

/-- The constants of a placed blob in the linked program. -/
theorem IsLinked.getElem?_constants (h : IsLinked zero program blobs lp)
    (hplaced : placed ∈ placedBlobs blobs) {c : Constant κ}
    (hi : placed.1.1.body.constants[i]? = some c) :
    lp.constants[placed.1.2.constBase + i]? = some (remapConstant zero c placed.1.1 placed.2
      (indexBy (·.contentHash) blobs) (indexBy (·.name) blobs)) := by
  have hparts : ((placedBlobs blobs).map (remapConstants zero blobs)).map List.length
      = blobs.map (·.body.constants.length) := by
    conv => rhs; rw [← placedBlobs_map_blob blobs, List.map_map]
    rw [List.map_map]
    exact List.map_congr_left fun placed _ => List.length_map ..
  have hpart : ((placedBlobs blobs).map (remapConstants zero blobs))[placed.2]?
      = some (remapConstants zero blobs placed) := by
    rw [List.getElem?_map, getElem?_placedBlobs hplaced]
    rfl
  have hlt : i < (remapConstants zero blobs placed).length := by
    rw [remapConstants, List.length_map]
    exact (List.getElem?_eq_some_iff.mp hi).1
  rw [h.constants, List.flatMap_def, placed_offsets hplaced, offsetsAt, ← hparts,
    getElem?_flatten_part hpart hlt, remapConstants, List.getElem?_map, hi]
  rfl

/-- The strings of a placed blob in the linked program. -/
theorem IsLinked.getElem?_strings (h : IsLinked zero program blobs lp)
    (hplaced : placed ∈ placedBlobs blobs) {text : String}
    (hi : placed.1.1.body.strings[i]? = some text) :
    lp.strings[placed.1.2.stringBase + i]? = some text := by
  have hparts : (blobs.map (·.body.strings)).map List.length = blobs.map (·.body.strings.length) := by
    rw [List.map_map]
    rfl
  have hpart : (blobs.map (·.body.strings))[placed.2]? = some placed.1.1.body.strings := by
    rw [List.getElem?_map, getElem?_of_mem_placedBlobs hplaced]
    rfl
  rw [h.strings, List.flatMap_def, placed_offsets hplaced, offsetsAt, ← hparts,
    getElem?_flatten_part hpart (List.getElem?_eq_some_iff.mp hi).1, hi]

/-- A base and an index stay below the sum of the sizes. -/
theorem take_sum_add_lt {sizes : List Nat} {n size : Nat} (hn : sizes[n]? = some size) (hi : i < size) :
    (sizes.take n).sum + i < sizes.sum := by
  induction sizes generalizing n with
  | nil => cases hn
  | cons a sizes ih =>
    cases n with
    | zero =>
      obtain rfl : a = size := Option.some.inj hn
      rw [List.take_zero, List.sum_nil, List.sum_cons]
      omega
    | succ n =>
      have hlt := ih hn
      rw [List.take_succ_cons, List.sum_cons, List.sum_cons]
      omega

/-- Linking the sorted blobs fails for its own reasons only. -/
theorem linkBlobs_ne_error :
    (∀ hash, linkBlobs zero program blobs ≠ .error (.missingBlob hash)) ∧
      linkBlobs zero program blobs ≠ .error .circularDependency := by
  have hcases : ∀ e, linkBlobs zero program blobs = .error e →
      (∀ hash, e ≠ .missingBlob hash) ∧ e ≠ .circularDependency := by
    intro e he
    unfold linkBlobs at he
    simp only at he
    -- the limits of the two pools, then the layouts, then the operands
    split at he
    · obtain rfl := Except.error.inj he
      exact ⟨nofun, nofun⟩
    split at he
    · obtain rfl := Except.error.inj he
      exact ⟨nofun, nofun⟩
    rcases Fallible.bind_eq_error.mp he with he | ⟨layouts, -, he⟩
    · obtain ⟨b, -, hb⟩ := Fallible.mapM_eq_error he
      split at hb
      · cases hb
      · split at hb
        · cases hb
        · split at hb
          · cases hb
          · obtain rfl := Except.error.inj hb
            exact ⟨nofun, nofun⟩
    rcases Fallible.bind_eq_error.mp he with he | ⟨parts, -, he⟩
    · obtain ⟨placed, -, hplaced⟩ := Fallible.mapM_eq_error he
      obtain ⟨instr, -, hinstr⟩ := Fallible.mapM_eq_error hplaced
      unfold remapInstruction at hinstr
      split at hinstr
      · cases hinstr
      · rcases Fallible.bind_eq_error.mp hinstr with hop | ⟨operand, -, hop⟩
        · exact remapOperand_error hop
        · cases hop
    · cases he
  exact ⟨fun hash h => (hcases _ h).1 hash rfl, fun h => (hcases _ h).2 rfl⟩

end ShapeLang.Bytecode
