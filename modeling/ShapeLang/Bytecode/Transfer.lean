import ShapeLang.Bytecode.Resolution

/-!
# ShapeLang — linking what was serialised

A program goes to disk and to other machines in serialised form. Two things are not written: the
callee names of a blob, which the linker needs where a dependency is the sentinel, and the compiled
closure layouts, which the linker otherwise has to reconstruct.

  * `Program.transferred` — the program that is read back;
  * `SameTargets` — two linked programs whose call operands and function constants lead to functions of
    the same names;
  * `TransferSafe` — no reference along a call cycle, and every closure's layout can be reconstructed;
  * `link_transferred_iff` — reading back keeps the targets exactly then.
-/

namespace ShapeLang.Bytecode

variable {κ η : Type}

/-! ## Serialising -/

/-- A blob without the names that are not serialised. -/
def FunctionBlob.transferred {β : Type} (b : FunctionBlob β η) : FunctionBlob β η :=
  { b with calleeNames := [] }

/-- The program read back from its serialised form. -/
def Program.transferred (program : Program κ η) : Program κ η :=
  { program with
    functionStore := program.functionStore.map fun e => (e.1, e.2.transferred)
    closureFunctionLayoutsByName := fun _ => none }

/-! ## Targets -/

def Operand.callee : Operand → Option UInt16
  | .function fid => some fid
  | .closureAlloc fid _ => some fid
  | _ => none

def Constant.callee : Constant κ → Option UInt16
  | .function fid => some fid
  | .other _ => none

def Instruction.callee (instr : Instruction) : Option UInt16 := instr.operand.bind Operand.callee

/-- The dependency indices a body refers to. -/
def Body.references (body : Body κ) : List UInt16 :=
  body.instructions.filterMap Instruction.callee ++ body.constants.filterMap Constant.callee

namespace LinkedProgram

def functionName (lp : LinkedProgram κ η) (fid : UInt16) : Option String :=
  lp.functions[fid.toNat]?.map (·.name)

/-- For each instruction, the name of the function it refers to. -/
def instructionTargets (lp : LinkedProgram κ η) : List (Option String) :=
  lp.instructions.map fun instr => instr.callee.bind lp.functionName

def constantTargets (lp : LinkedProgram κ η) : List (Option String) :=
  lp.constants.map fun c => c.callee.bind lp.functionName

end LinkedProgram

/-- The same functions in the same order, and the same names at all references. -/
structure SameTargets (lp lq : LinkedProgram κ η) : Prop where
  functions : lp.functions.map (·.name) = lq.functions.map (·.name)
  instructions : lp.instructionTargets = lq.instructionTargets
  constants : lp.constantTargets = lq.constantTargets

/-- No reference leads to a function on a call cycle with the function that makes it, and every
closure's layout can be reconstructed. -/
structure TransferSafe (unit : Compilation (Body κ)) : Prop where
  references : ∀ x ∈ unit.builders, ∀ idx ∈ x.body.references, ∀ callee,
    x.calledFunctions[idx.toNat]? = some callee → ¬ CycleCall unit x.name callee
  layouts : ∀ x ∈ unit.builders, x.body.isClosure = true →
    ∃ layout, reconstructTransferredClosureLayout x.body = .ok layout

section Link

variable [DecidableEq η] {zero : η}

/-! ## Sorting is the same on both sides -/

variable (store : FunctionStore (Body κ) η)

theorem get_transferred (hash : η) :
    FunctionStore.get (store.map fun e => (e.1, e.2.transferred)) hash
      = (FunctionStore.get store hash).map FunctionBlob.transferred := by
  unfold FunctionStore.get
  induction store with
  | nil => rfl
  | cons e store ih =>
    rw [List.map_cons, List.find?_cons, List.find?_cons]
    cases decide (e.1 = hash) with
    | true => rfl
    | false => exact ih

theorem topoSort_transferred (entry : η) :
    topoSort zero (store.map fun e => (e.1, e.2.transferred)) entry = topoSort zero store entry := by
  have hgraph : dependencyGraph zero (store.map fun e => (e.1, e.2.transferred))
      = dependencyGraph zero store := by
    unfold dependencyGraph
    congr 1
    funext hash
    rw [get_transferred, Option.map_map]
    rfl
  unfold topoSort
  rw [hgraph, List.length_map, List.map_map]
  rfl

variable {program : Program κ η} {blobs : List (Blob κ η)}

theorem sortedBlobs_transferred (h : sortedBlobs zero program = .ok blobs) :
    sortedBlobs zero program.transferred = .ok (blobs.map FunctionBlob.transferred) := by
  unfold sortedBlobs at h ⊢
  obtain ⟨order, horder, hmap⟩ := Fallible.bind_eq_ok.mp h
  have hsort : topoSort zero program.transferred.functionStore program.transferred.entry
      = .ok order := (topoSort_transferred _ _).trans horder
  rw [hsort]
  refine Fallible.mapM_eq_ok.mpr ?_
  rw [List.forall₂_map_right_iff]
  refine (Fallible.mapM_eq_ok.mp hmap).imp fun hash b hb => ?_
  rw [storedBlob_eq_ok] at hb ⊢
  show FunctionStore.get (program.functionStore.map _) hash = _
  rw [get_transferred, hb]
  rfl

theorem indexBy_map {α γ L : Type} [DecidableEq L] (label : α → L) (f : γ → α) (l : List γ) :
    indexBy label (l.map f) = indexBy (fun a => label (f a)) l := by
  unfold indexBy
  rw [List.zipIdx_map, List.foldl_map]
  rfl

omit [DecidableEq η] in
theorem blobOffsets_transferred (off : BlobOffsets) (blobs : List (Blob κ η)) :
    blobOffsets off (blobs.map FunctionBlob.transferred) = blobOffsets off blobs := by
  induction blobs generalizing off with
  | nil => rfl
  | cons b blobs ih =>
    rw [List.map_cons, blobOffsets, blobOffsets, ih]
    rfl

/-- A placed blob on the other side. -/
def placedTransferred (placed : (Blob κ η × BlobOffsets) × Nat) : (Blob κ η × BlobOffsets) × Nat :=
  ((placed.1.1.transferred, placed.1.2), placed.2)

omit [DecidableEq η] in
theorem placedBlobs_transferred (blobs : List (Blob κ η)) :
    placedBlobs (blobs.map FunctionBlob.transferred) = (placedBlobs blobs).map placedTransferred := by
  unfold placedBlobs
  rw [blobOffsets_transferred, List.zip_map_left, List.zipIdx_map]
  rfl

/-! ## One reference -/

/-- Without names, the sentinel is the function itself. -/
theorem remapFid_transferred (idx : UInt16) (b : Blob κ η) (id : Nat) (hashToId : η → Option Nat)
    (nameToId : String → Option Nat) :
    remapFid zero idx b.transferred id hashToId nameToId
      = if b.dependencies[idx.toNat]? = some zero then .ofNat id
        else remapFid zero idx b id hashToId nameToId := by
  have hdeps : b.transferred.dependencies = b.dependencies := rfl
  have hnames : b.transferred.calleeNames = [] := rfl
  unfold remapFid
  rw [hdeps, hnames]
  cases b.dependencies[idx.toNat]? with
  | none => simp
  | some d =>
    by_cases hd : d = zero
    · simp [hd]
    · simp [hd]

/-- Where the linker leads a reference of a placed blob. -/
def reference (zero : η) (blobs : List (Blob κ η)) (placed : (Blob κ η × BlobOffsets) × Nat)
    (idx : UInt16) : UInt16 :=
  remapFid zero idx placed.1.1 placed.2 (indexBy (·.contentHash) blobs) (indexBy (·.name) blobs)

theorem remapInstruction_callee {instr r : Instruction} {off : BlobOffsets} {b : Blob κ η} {id : Nat}
    {hashToId : η → Option Nat} {nameToId : String → Option Nat} {foreignIdx : ForeignHash → Option Nat}
    (h : remapInstruction zero instr off b id hashToId nameToId foreignIdx = .ok r) :
    r.callee = instr.callee.map fun idx => remapFid zero idx b id hashToId nameToId := by
  unfold remapInstruction at h
  unfold Instruction.callee
  cases hop : instr.operand with
  | none =>
    rw [hop] at h
    obtain rfl := Except.ok.inj h
    rw [hop]
    rfl
  | some operand =>
    rw [hop] at h
    obtain ⟨operand', hoperand, hr⟩ := Fallible.bind_eq_ok.mp h
    obtain rfl := Except.ok.inj hr
    show operand'.callee = operand.callee.map _
    -- a foreign call is the one operand whose remapping can fail, and it has no callee
    cases operand with
    | foreignFunction ordinal =>
      rw [remapOperand] at hoperand
      split at hoperand
      · cases hoperand
      · split at hoperand
        · cases hoperand
        · obtain rfl := Except.ok.inj hoperand
          rfl
    | _ =>
      obtain rfl := Except.ok.inj hoperand
      rfl

omit [DecidableEq η] in
theorem remapConstant_callee [DecidableEq η] (c : Constant κ) (b : Blob κ η) (id : Nat)
    (hashToId : η → Option Nat) (nameToId : String → Option Nat) :
    (remapConstant zero c b id hashToId nameToId).callee
      = c.callee.map fun idx => remapFid zero idx b id hashToId nameToId := by
  cases c <;> rfl

variable {lp : LinkedProgram κ η}

theorem IsLinked.functions_name (h : IsLinked zero program blobs lp) :
    lp.functions.map (·.name) = blobs.map (·.name) := by
  rw [h.functions, List.map_map]
  conv => rhs; rw [← placedBlobs_map_blob blobs, List.map_map]
  rfl

theorem IsLinked.functionName_eq (h : IsLinked zero program blobs lp) (fid : UInt16) :
    lp.functionName fid = (blobs.map (·.name))[fid.toNat]? := by
  rw [← h.functions_name, List.getElem?_map]
  rfl

theorem IsLinked.instructionTargets_eq (h : IsLinked zero program blobs lp) :
    lp.instructionTargets = (placedBlobs blobs).flatMap fun placed =>
      placed.1.1.body.instructions.map fun instr =>
        (instr.callee.map (reference zero blobs placed)).bind lp.functionName := by
  obtain ⟨parts, hparts, hflat⟩ := h.instructions
  rw [LinkedProgram.instructionTargets, hflat, List.map_flatten]
  clear hflat
  generalize placedBlobs blobs = placeds at hparts
  induction hparts with
  | nil => rfl
  | @cons placed part placeds parts hpart _ ih =>
    rw [List.map_cons, List.flatten_cons, ih, List.flatMap_cons]
    congr 1
    -- instruction by instruction
    have hall := Fallible.mapM_eq_ok.mp hpart
    clear hpart ih
    generalize placed.1.1.body.instructions = instrs at hall
    induction hall with
    | nil => rfl
    | cons hinstr _ ih =>
      rw [List.map_cons, List.map_cons, ih, remapInstruction_callee hinstr]
      rfl

theorem IsLinked.constantTargets_eq (h : IsLinked zero program blobs lp) :
    lp.constantTargets = (placedBlobs blobs).flatMap fun placed =>
      placed.1.1.body.constants.map fun c =>
        (c.callee.map (reference zero blobs placed)).bind lp.functionName := by
  rw [LinkedProgram.constantTargets, h.constants, List.map_flatMap]
  refine List.flatMap_congr fun placed _ => ?_
  rw [remapConstants, List.map_map]
  refine List.map_congr_left fun c _ => ?_
  show (remapConstant zero c _ _ _ _).callee.bind _ = _
  rw [remapConstant_callee]
  rfl

/-- Two concatenations with parts of the same lengths. -/
theorem flatMap_eq_iff {α γ : Type} {l : List α} {f g : α → List γ}
    (hlen : ∀ a ∈ l, (f a).length = (g a).length) :
    l.flatMap f = l.flatMap g ↔ ∀ a ∈ l, f a = g a := by
  constructor
  · intro h
    induction l with
    | nil => exact fun a ha => absurd ha List.not_mem_nil
    | cons a l ih =>
      rw [List.flatMap_cons, List.flatMap_cons] at h
      obtain ⟨hhead, htail⟩ := List.append_inj h (hlen a List.mem_cons_self)
      intro x hx
      rcases List.mem_cons.mp hx with rfl | hx
      · exact hhead
      · exact ih (fun y hy => hlen y (List.mem_cons_of_mem _ hy)) htail x hx
  · exact fun h => List.flatMap_congr h

/-! ## Both sides -/

theorem reference_transferred (blobs : List (Blob κ η)) (placed : (Blob κ η × BlobOffsets) × Nat)
    (idx : UInt16) :
    reference zero (blobs.map FunctionBlob.transferred) (placedTransferred placed) idx
      = if placed.1.1.dependencies[idx.toNat]? = some zero then .ofNat placed.2
        else reference zero blobs placed idx := by
  unfold reference
  rw [indexBy_map, indexBy_map]
  exact remapFid_transferred idx placed.1.1 placed.2 _ _

/-- The targets agree when each reference does. -/
theorem sameTargets_iff {lq : LinkedProgram κ η} (hp : IsLinked zero program blobs lp)
    (hq : IsLinked zero program.transferred (blobs.map FunctionBlob.transferred) lq) :
    SameTargets lp lq ↔ ∀ placed ∈ placedBlobs blobs, ∀ idx ∈ placed.1.1.body.references,
      (blobs.map (·.name))[(reference zero blobs placed idx).toNat]?
        = (blobs.map (·.name))[(reference zero (blobs.map FunctionBlob.transferred)
            (placedTransferred placed) idx).toNat]? := by
  have hnames : (blobs.map FunctionBlob.transferred).map (·.name) = blobs.map (·.name) := by
    rw [List.map_map]
    rfl
  have hfun : lp.functions.map (·.name) = lq.functions.map (·.name) := by
    rw [hp.functions_name, hq.functions_name, hnames]
  have hname : ∀ fid, lq.functionName fid = lp.functionName fid := by
    intro fid
    rw [hp.functionName_eq, hq.functionName_eq, hnames]
  have hi : lp.instructionTargets = lq.instructionTargets ↔ ∀ placed ∈ placedBlobs blobs,
      ∀ instr ∈ placed.1.1.body.instructions,
        (instr.callee.map (reference zero blobs placed)).bind lp.functionName
          = (instr.callee.map (reference zero (blobs.map FunctionBlob.transferred)
              (placedTransferred placed))).bind lp.functionName := by
    rw [hp.instructionTargets_eq, hq.instructionTargets_eq, placedBlobs_transferred,
      List.flatMap_map, flatMap_eq_iff fun placed _ => by
        rw [List.length_map, List.length_map]
        rfl, funext hname]
    exact forall₂_congr fun placed _ => List.map_inj_left
  have hc : lp.constantTargets = lq.constantTargets ↔ ∀ placed ∈ placedBlobs blobs,
      ∀ c ∈ placed.1.1.body.constants,
        (c.callee.map (reference zero blobs placed)).bind lp.functionName
          = (c.callee.map (reference zero (blobs.map FunctionBlob.transferred)
              (placedTransferred placed))).bind lp.functionName := by
    rw [hp.constantTargets_eq, hq.constantTargets_eq, placedBlobs_transferred, List.flatMap_map,
      flatMap_eq_iff fun placed _ => by
        rw [List.length_map, List.length_map]
        rfl, funext hname]
    exact forall₂_congr fun placed _ => List.map_inj_left
  -- a place without a reference agrees, one with a reference agrees as the reference does
  have hsome : ∀ (placed : (Blob κ η × BlobOffsets) × Nat) (o : Option UInt16),
      ((o.map (reference zero blobs placed)).bind lp.functionName
        = (o.map (reference zero (blobs.map FunctionBlob.transferred)
            (placedTransferred placed))).bind lp.functionName) ↔
      ∀ idx, o = some idx → (blobs.map (·.name))[(reference zero blobs placed idx).toNat]?
        = (blobs.map (·.name))[(reference zero (blobs.map FunctionBlob.transferred)
            (placedTransferred placed) idx).toNat]? := by
    intro placed o
    cases o with
    | none => simp
    | some idx => simp [hp.functionName_eq]
  constructor
  · rintro ⟨-, hins, hcon⟩ placed hplaced idx hidx
    rcases List.mem_append.mp hidx with hidx | hidx
    · obtain ⟨instr, hinstr, hcallee⟩ := List.mem_filterMap.mp hidx
      exact (hsome placed _).mp (hi.mp hins placed hplaced instr hinstr) idx hcallee
    · obtain ⟨c, hcm, hcallee⟩ := List.mem_filterMap.mp hidx
      exact (hsome placed _).mp (hc.mp hcon placed hplaced c hcm) idx hcallee
  · intro h
    refine ⟨hfun, hi.mpr fun placed hplaced instr hinstr => (hsome placed _).mpr fun idx hidx => ?_,
      hc.mpr fun placed hplaced c hcm => (hsome placed _).mpr fun idx hidx => ?_⟩
    · exact h placed hplaced idx (List.mem_append_left _ (List.mem_filterMap.mpr ⟨instr, hinstr, hidx⟩))
    · exact h placed hplaced idx (List.mem_append_right _ (List.mem_filterMap.mpr ⟨c, hcm, hidx⟩))

theorem reference_of_zero {placed : (Blob κ η × BlobOffsets) × Nat} {idx : UInt16} {m : String}
    (hz : placed.1.1.dependencies[idx.toNat]? = some zero)
    (hm : placed.1.1.calleeNames[idx.toNat]? = some m) :
    reference zero blobs placed idx = .ofNat (if m ≠ placed.1.1.name then
      (indexBy (·.name) blobs m).getD placed.2 else placed.2) := by
  unfold reference remapFid
  simp only [hz, hm, if_true]
  split <;> rfl

end Link

/-! ## Compiled programs -/

section Compiled

variable [DecidableEq η]

variable {H : Sha256 (Body κ) η} {unit : Compilation (Body κ)} {blobs : List (Blob κ η)}

/-- The blobs of a linked compilation, by name. -/
theorem SortedBlobs.blob?
    (h : SortedBlobs H.zero (buildContentAddressedProgram H unit).functionStore blobs)
    (b : Blob κ η) :
    b ∈ blobs ↔ (buildContentAddressedProgram H unit).blob? b.name = some b := by
  rw [h.mem_iff, (build_linked H unit).coherent.mem_iff]
  exact ⟨fun hb => hb.1, fun hb => ⟨hb, rfl⟩⟩

/-- The position of a function among the sorted blobs. -/
theorem SortedBlobs.exists_index
    (h : SortedBlobs H.zero (buildContentAddressedProgram H unit).functionStore blobs) {m : String}
    (hm : m ∈ unit.names) : ∃ i b, indexBy (·.name) blobs m = some i ∧ blobs[i]? = some b ∧
      b.name = m := by
  obtain ⟨b, hb⟩ := (build_linked H unit).exists_blob hm
  have hname := ((build_linked H unit).coherent.blob?_finalized hb).2
  have hmem := (h.blob? b).mpr (hname.symm ▸ hb)
  obtain ⟨i, hi⟩ := List.mem_iff_getElem?.mp hmem
  exact ⟨i, b, (indexBy_eq_some h.names_nodup).mpr ⟨b, hi, hname⟩, hi, hname⟩

/-- The sorted blobs have the names of the functions. -/
theorem SortedBlobs.names_perm
    (h : SortedBlobs H.zero (buildContentAddressedProgram H unit).functionStore blobs) :
    (blobs.map (·.name)).Perm unit.names := by
  have hlinked := build_linked H unit
  refine (List.perm_ext_iff_of_nodup h.names_nodup unit.names_nodup).mpr fun n => ?_
  show n ∈ blobs.map (·.name) ↔ n ∈ unit.names
  rw [← hlinked.isSome_iff, Option.isSome_iff_exists, List.mem_map]
  constructor
  · rintro ⟨b, hb, rfl⟩
    exact ⟨b, (h.blob? b).mp hb⟩
  · rintro ⟨b, hb⟩
    have hname := (hlinked.coherent.blob?_finalized hb).2
    exact ⟨b, (h.blob? b).mpr (hname.symm ▸ hb), hname⟩

theorem SortedBlobs.length_eq
    (h : SortedBlobs H.zero (buildContentAddressedProgram H unit).functionStore blobs) :
    blobs.length = unit.names.length := by
  rw [← h.names_perm.length_eq, List.length_map]

variable {placed : (Blob κ η × BlobOffsets) × Nat}

/-- Off the cycles a reference is the same on both sides. -/
theorem reference_transferred_eq
    (h : SortedBlobs H.zero (buildContentAddressedProgram H unit).functionStore blobs)
    (hplaced : placed ∈ placedBlobs blobs) {idx : UInt16}
    (hcycle : ∀ m, placed.1.1.calleeNames[idx.toNat]? = some m →
      ¬ CycleCall unit placed.1.1.name m) :
    reference H.zero (blobs.map FunctionBlob.transferred) (placedTransferred placed) idx
      = reference H.zero blobs placed idx := by
  rw [reference_transferred]
  split
  · rename_i hz
    have htracks := build_tracks H unit
    have hb := (h.blob? _).mp (List.mem_of_getElem? (getElem?_of_mem_placedBlobs hplaced))
    have hlt := (List.getElem?_eq_some_iff.mp hz).1
    rw [(htracks.linked.ok _ _ hb).aligned] at hlt
    obtain ⟨m, hm⟩ : ∃ m, placed.1.1.calleeNames[idx.toNat]? = some m :=
      ⟨_, List.getElem?_eq_getElem hlt⟩
    rw [reference_of_zero hz hm]
    rcases (htracks.eq_zero_iff (compileBlobs_linked H unit).mem_mutualEdges hb hm hz).mp rfl with
      hself | hcyc | hunknown
    · rw [if_neg (not_not.mpr hself)]
    · exact absurd hcyc (hcycle m hm)
    · -- a callee that is not there falls back to the function itself
      have hnone : indexBy (·.name) blobs m = none := by
        cases hidx : indexBy (·.name) blobs m with
        | none => rfl
        | some i =>
          obtain ⟨c, hc, hcname⟩ := (indexBy_eq_some h.names_nodup).mp hidx
          have hcb := (h.blob? c).mp (List.mem_of_getElem? hc)
          refine absurd ?_ hunknown
          rw [← hcname, ← htracks.linked.isSome_iff, hcb]
          rfl
      rw [hnone]
      split <;> rfl
  · rfl

/-- Along a cycle a reference leads to another function, as long as ids fit in sixteen bits. -/
theorem reference_transferred_ne
    (h : SortedBlobs H.zero (buildContentAddressedProgram H unit).functionStore blobs)
    (hfit : unit.names.length ≤ 65536) (hplaced : placed ∈ placedBlobs blobs) {idx : UInt16}
    {m : String} (hm : placed.1.1.calleeNames[idx.toNat]? = some m)
    (hcyc : CycleCall unit placed.1.1.name m) :
    (blobs.map (·.name))[(reference H.zero blobs placed idx).toNat]?
      ≠ (blobs.map (·.name))[(reference H.zero (blobs.map FunctionBlob.transferred)
          (placedTransferred placed) idx).toNat]? := by
  have htracks := build_tracks H unit
  have hat := getElem?_of_mem_placedBlobs hplaced
  have hb := (h.blob? _).mp (List.mem_of_getElem? hat)
  have hlt := (List.getElem?_eq_some_iff.mp hm).1
  rw [← (htracks.linked.ok _ _ hb).aligned] at hlt
  -- the pointer of a call along a cycle was reset to ZERO
  have hz : placed.1.1.dependencies[idx.toNat]? = some H.zero := by
    rw [List.getElem?_eq_getElem hlt]
    exact congrArg some ((htracks.eq_zero_iff (compileBlobs_linked H unit).mem_mutualEdges hb hm
      (List.getElem?_eq_getElem hlt)).mpr (Or.inr (Or.inl hcyc)))
  have hmn : m ∈ unit.names := by
    obtain ⟨x, -, -, -, hin⟩ := hcyc.1
    exact hin
  obtain ⟨i, c, hi, hc, hcname⟩ := h.exists_index hmn
  have hlen := h.length_eq
  have hsmall : ∀ {j : Nat} {c : Blob κ η}, blobs[j]? = some c → (UInt16.ofNat j).toNat = j := by
    intro j c hj
    have hjlt := (List.getElem?_eq_some_iff.mp hj).1
    rw [UInt16.toNat_ofNat']
    exact Nat.mod_eq_of_lt (by omega)
  -- ZERO is resolved by name at the sender; the receiver has no names and takes the blob itself
  rw [reference_transferred, if_pos hz, reference_of_zero hz hm, if_pos (Ne.symm hcyc.2.1), hi,
    Option.getD_some, hsmall hc, hsmall hat, List.getElem?_map, List.getElem?_map, hc, hat]
  intro heq
  exact hcyc.2.1 ((Option.some.inj heq).symm.trans hcname)

/-- Reading back a program keeps the targets of its references. -/
def TransferKeepsTargets (zero : η) (program : Program κ η) : Prop :=
  ∀ lp, link zero program = .ok lp → ∃ lq, link zero program.transferred = .ok lq ∧ SameTargets lp lq

omit [DecidableEq η] in
theorem linkable_transferred_iff {program : Program κ η} (h : Linkable program blobs) :
    Linkable program.transferred (blobs.map FunctionBlob.transferred) ↔
      ∀ b ∈ blobs, b.body.isClosure = true →
        ∃ layout, reconstructTransferredClosureLayout b.body = .ok layout := by
  constructor
  · intro hq b hb hclosure
    rcases hq.layouts _ (List.mem_map.mpr ⟨b, hb, rfl⟩) with hsome | hfalse | hok
    · cases hsome
    · exact absurd (hclosure.symm.trans hfalse) nofun
    · exact hok
  · intro hlay
    refine ⟨?_, ?_, fun b' hb' => ?_, fun b' hb' => ?_⟩
    · rw [List.map_map]
      exact h.constants
    · rw [List.map_map]
      exact h.strings
    · obtain ⟨b, hb, rfl⟩ := List.mem_map.mp hb'
      cases hclosure : b.body.isClosure with
      | false => exact Or.inr (Or.inl hclosure)
      | true => exact Or.inr (Or.inr (hlay b hb hclosure))
    · obtain ⟨b, hb, rfl⟩ := List.mem_map.mp hb'
      exact h.foreign b hb

/-- **Linking what was serialised.** A program that links keeps its targets if no reference leads along a
call cycle and every closure's layout can be reconstructed; when function ids fit in sixteen bits, only
then. -/
theorem link_transferred_iff (H : Sha256 (Body κ) η) (unit : Compilation (Body κ))
    (program : Program κ η)
    (hstore : program.functionStore = (buildContentAddressedProgram H unit).functionStore)
    (hlinks : ∃ lp, link H.zero program = .ok lp) :
    (TransferSafe unit → TransferKeepsTargets H.zero program) ∧
      (unit.names.length ≤ 65536 → (TransferKeepsTargets H.zero program ↔ TransferSafe unit)) := by
  obtain ⟨lp, hlp⟩ := hlinks
  unfold link at hlp
  obtain ⟨blobs, hblobs, hlp'⟩ := Fallible.bind_eq_ok.mp hlp
  obtain ⟨hlinkable, hp⟩ := linkBlobs_ok hlp'
  have hsorted : SortedBlobs H.zero (buildContentAddressedProgram H unit).functionStore blobs := by
    rw [← hstore]
    refine sortedBlobs_spec ?_ hblobs
    rw [hstore]
    exact (build_linked H unit).coherent.wellKeyed
  have hblobs' := sortedBlobs_transferred hblobs
  -- blobs and functions of the compilation
  have hsource : ∀ b ∈ blobs, ∃ x ∈ unit.builders, x.name = b.name ∧ b.body = x.body ∧
      b.calleeNames = x.calledFunctions :=
    fun b hb => build_fromBuilder H unit b.name b ((hsorted.blob? b).mp hb)
  have hblob : ∀ x ∈ unit.builders, ∃ b ∈ blobs, x.name = b.name ∧ b.body = x.body ∧
      b.calleeNames = x.calledFunctions := by
    intro x hx
    obtain ⟨i, b, -, hb, hname⟩ := hsorted.exists_index (List.mem_map.mpr ⟨x, hx, rfl⟩)
    have hmem := List.mem_of_getElem? hb
    obtain ⟨y, hy, hyn, hbody, hcallees⟩ := hsource b hmem
    obtain rfl : y = x := unit.builder_unique hy hx (hyn.trans hname)
    exact ⟨b, hmem, hname.symm, hbody, hcallees⟩
  have hforward : TransferSafe unit → TransferKeepsTargets H.zero program := by
    intro hsafe lp₁ hlp₁
    obtain rfl : lp = lp₁ := Except.ok.inj (hlp.symm.trans hlp₁)
    have hlay := (linkable_transferred_iff hlinkable).mpr fun b hb hclosure => by
      obtain ⟨x, hx, -, hbody, -⟩ := hsource b hb
      rw [hbody] at hclosure ⊢
      exact hsafe.layouts x hx hclosure
    obtain ⟨lq, hlq⟩ := exists_linkBlobs H.zero hlay
    refine ⟨lq, ?_, ?_⟩
    · unfold link
      rw [hblobs']
      exact hlq
    · refine (sameTargets_iff hp (linkBlobs_ok hlq).2).mpr fun placed hplaced idx hidx => ?_
      have hmem := List.mem_of_getElem? (getElem?_of_mem_placedBlobs hplaced)
      obtain ⟨x, hx, hxn, hbody, hcallees⟩ := hsource _ hmem
      rw [reference_transferred_eq hsorted hplaced fun m hm => ?_]
      rw [← hxn]
      rw [hbody] at hidx
      rw [hcallees] at hm
      exact hsafe.references x hx idx hidx m hm
  refine ⟨hforward, fun hfit => ⟨fun hkeeps => ?_, hforward⟩⟩
  obtain ⟨lq, hlq, hsame⟩ := hkeeps lp hlp
  unfold link at hlq
  rw [hblobs'] at hlq
  obtain ⟨hlinkable', hq⟩ := linkBlobs_ok hlq
  refine ⟨fun x hx idx hidx callee hcallee hcyc => ?_, fun x hx hclosure => ?_⟩
  · obtain ⟨b, hb, hxn, hbody, hcallees⟩ := hblob x hx
    obtain ⟨placed, hplaced, rfl⟩ := exists_placedBlobs hb
    have hm : placed.1.1.calleeNames[idx.toNat]? = some callee := by
      rw [hcallees]
      exact hcallee
    exact reference_transferred_ne hsorted hfit hplaced hm (hxn ▸ hcyc)
      ((sameTargets_iff hp hq).mp hsame placed hplaced idx (by rw [hbody]; exact hidx))
  · obtain ⟨b, hb, -, hbody, -⟩ := hblob x hx
    rw [← hbody] at hclosure ⊢
    exact (linkable_transferred_iff hlinkable).mp hlinkable' b hb hclosure

end Compiled

/-! ## A call, and a call cycle -/

/-- The program of a compilation without foreign functions and closures. -/
def compiledProgram (unit : Compilation (Body Unit)) :
    Program Unit (ContentDigest (Body Unit)) where
  entry := ((buildContentAddressedProgram (contentSha256 (Body Unit)) unit).blobNameToHash
    "__main__").getD .zero
  functionStore := (buildContentAddressedProgram (contentSha256 (Body Unit)) unit).functionStore
  foreignFunctions := []
  closureFunctionLayoutsByName := fun _ => none

/-- A body that calls its dependencies `idxs` in turn. -/
def callBody (idxs : List UInt16) : Body Unit :=
  { emptyBody Unit with instructions := idxs.map fun idx => ⟨.other 0, some (.function idx)⟩ }

/-- `__main__` calls `a`. -/
def oneCallUnit : Compilation (Body Unit) where
  builders := [⟨"a", [], ∅, callBody []⟩, ⟨"__main__", ["a"], ∅, callBody [0]⟩]
  names_nodup := by decide

/-- `even` and `odd` call each other; `__main__` calls `even`. -/
def evenOddUnit : Compilation (Body Unit) where
  builders := [⟨"even", ["odd"], ∅, callBody [0]⟩, ⟨"odd", ["even"], ∅, callBody [0]⟩,
    ⟨"__main__", ["even"], ∅, callBody [0]⟩]
  names_nodup := by decide

theorem link_transferred_iff_oneCallUnit :
    (∃ lp, link .zero (compiledProgram oneCallUnit) = .ok lp) ∧
      (TransferKeepsTargets .zero (compiledProgram oneCallUnit) ↔ TransferSafe oneCallUnit) := by
  have hok : (link .zero (compiledProgram oneCallUnit)).isOk = true := by decide +kernel
  have hlinks : ∃ lp, link .zero (compiledProgram oneCallUnit) = .ok lp := by
    cases hlink : link .zero (compiledProgram oneCallUnit) with
    | ok lp => exact ⟨lp, rfl⟩
    | error e =>
      rw [hlink] at hok
      cases hok
  exact ⟨hlinks, (link_transferred_iff (contentSha256 (Body Unit)) oneCallUnit
    (compiledProgram oneCallUnit) rfl hlinks).2 (by decide)⟩

/-- **A cycle loses its calls.** Read back, `even` calls itself instead of `odd`. -/
theorem transfer_redirects_cycle :
    ¬ ∀ (H : Sha256 (Body Unit) (ContentDigest (Body Unit))) (unit : Compilation (Body Unit))
        (program : Program Unit (ContentDigest (Body Unit))),
      program.functionStore = (buildContentAddressedProgram H unit).functionStore →
        TransferKeepsTargets H.zero program := by
  intro hclaim
  have hkeeps := hclaim (contentSha256 (Body Unit)) evenOddUnit (compiledProgram evenOddUnit) rfl
  have hdiffer : ∃ lp ∈ (link .zero (compiledProgram evenOddUnit)).toOption,
      ∀ lq ∈ (link .zero (compiledProgram evenOddUnit).transferred).toOption,
        lp.instructionTargets ≠ lq.instructionTargets := by
    decide +kernel
  obtain ⟨lp, hlp, hne⟩ := hdiffer
  cases hlink : link .zero (compiledProgram evenOddUnit) with
  | error e =>
    rw [hlink] at hlp
    cases hlp
  | ok lp' =>
    rw [hlink] at hlp
    obtain rfl : lp' = lp := Option.some.inj hlp
    obtain ⟨lq, hlq, hsame⟩ := hkeeps lp' hlink
    refine hne lq ?_ hsame.instructions
    show (link .zero (compiledProgram evenOddUnit).transferred).toOption = some lq
    rw [show link .zero (compiledProgram evenOddUnit).transferred = .ok lq from hlq]
    rfl

end ShapeLang.Bytecode
