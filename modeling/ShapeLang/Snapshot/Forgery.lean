import ShapeLang.Lib.Fallible
import ShapeLang.Snapshot.Ledger

/-!
# ShapeLang — restored objects and their masks

A wire value may come from anybody. Both restore paths rebuild the slots and the kinds of an object from
its fields, but take its heap mask from the wire as it is, so the two may disagree: a set bit over a number
makes the object hand out the number as a heap child, a clear bit over a string loses the string's share.

This file relates the objects a restore leaves on the heap to the object bodies it reads: the bodies are
listed by a walk over the wire value alone (`treeBodies`, `graphBodies`), and the restored objects agree
with their masks exactly if every listed body is honest about its fields.
-/

namespace ShapeLang.Snapshot

open ShapeLang.Value

/-! ## Agreement of a restored object -/

/-- The bits are null, or an address handed out between `base` and `top`. -/
def IsPointer (base top : Nat) (bits : Bits) : Prop :=
  bits = 0 ∨ ∃ a, bits = .addr a ∧ base ≤ a ∧ a < top

/-- Bit `i` of the mask is set exactly if field `i` has a heap kind and its slot holds a pointer (or
null). -/
def MaskAgrees (base top : Nat) (o : TypedObjectStorage Bits) : Prop :=
  ∀ (i : Nat) (bits : Bits) (kind : NativeKind), o.slots[i]? = some bits → o.fieldKinds[i]? = some kind →
    (o.heapMask.getLsbD i = true ↔ kind.isHeap = true ∧ IsPointer base top bits)

/-- Every object the restore from `h` to `h'` has built agrees with its mask, pointers being addresses of
this restore. -/
def ForgesNothing (h h' : Heap) : Prop :=
  ∀ (a : Nat) (o : TypedObjectStorage Bits), h.cells.length ≤ a → h'.cells[a]? = some (.typedObject o) →
    MaskAgrees h.cells.length h'.cells.length o

/-! ## The bodies a restore reads -/

/-- The wire form of an object: its fields and its mask. -/
structure ObjectBody where
  slotData : List SerializableVMValue
  heapMask : Word

/-- Whether a field comes back with a heap kind and a pointer or null in its slot. Characters and module
functions have a heap kind and an inline number, which is null only if it is 0. -/
def restoresToPointer (env : RestoreEnv) : SerializableVMValue → Bool
  | .int _ | .number _ | .bool _ | .none | .unit => false
  | .char c => c.val.toBitVec.setWidth 64 = (0 : Word)
  | .moduleFunction name => env.moduleFnId name = some 0
  | _ => true

/-- The mask says of each field whether it comes back as a pointer. -/
def ObjectBody.Honest (env : RestoreEnv) (b : ObjectBody) : Prop :=
  ∀ (i : Nat) (sv : SerializableVMValue), b.slotData[i]? = some sv →
    (b.heapMask.getLsbD i = true ↔ restoresToPointer env sv = true)

mutual

/-- The object bodies that the tree path reads. -/
def treeBodies : SerializableVMValue → List ObjectBody
  | .heapNode handle body => (nodeBodies handle body []).1
  | .typedObject _ slotData heapMask => treeBodiesList slotData ++ [⟨slotData, heapMask⟩]
  | .array elems => if startsWithTypedObject elems then treeBodiesList elems else []
  | _ => []

def treeBodiesList : List SerializableVMValue → List ObjectBody
  | [] => []
  | sv :: svs => treeBodies sv ++ treeBodiesList svs

/-- The object bodies that the graph path reads under a node, and the handles known afterwards. A body
under a handle that is already known is not read. -/
def nodeBodies (handle : Word) : SerializableVMValue → List Word → List ObjectBody × List Word
  | .typedObject _ slotData heapMask, known =>
    let (bodies, known) := childrenBodies slotData (handle :: known)
    (⟨slotData, heapMask⟩ :: bodies, known)
  | .array elems, known => childrenBodies elems (handle :: known)
  | .hashMap _ values, known =>
    let (bodies, known) := childrenBodies values known
    (bodies, handle :: known)
  | _, known => ([], known)

def childrenBodies : List SerializableVMValue → List Word → List ObjectBody × List Word
  | [], known => ([], known)
  | sv :: svs, known =>
    let (first, known) := match sv with
      | .heapNode handle body => if handle ∈ known then ([], known) else nodeBodies handle body known
      | .heapRef _ => ([], known)
      | leaf => (treeBodies leaf, known)
    let (rest, known) := childrenBodies svs known
    (first ++ rest, known)

end

/-- The bodies read for one child of a node. -/
def childBodies (sv : SerializableVMValue) (known : List Word) : List ObjectBody × List Word :=
  match sv with
  | .heapNode handle body => if handle ∈ known then ([], known) else nodeBodies handle body known
  | .heapRef _ => ([], known)
  | leaf => (treeBodies leaf, known)

theorem childrenBodies_cons (sv : SerializableVMValue) (svs : List SerializableVMValue)
    (known : List Word) :
    childrenBodies (sv :: svs) known =
      ((childBodies sv known).1 ++ (childrenBodies svs (childBodies sv known).2).1,
        (childrenBodies svs (childBodies sv known).2).2) := by
  cases sv <;> simp only [childrenBodies, childBodies]

/-- The bodies the second pass reads for a slot. Nodes are there already. -/
def linkBodies : SerializableVMValue → List ObjectBody
  | .heapNode .. | .heapRef _ => []
  | sv => treeBodies sv

/-- The handles the first pass knows: nodes and shared cells. -/
structure KnownHandles where
  nodes : List Word := []
  cells : List Word := []

mutual

/-- The bodies the first pass reads. -/
def cellBodies : SerializableVMValue → KnownHandles → List ObjectBody × KnownHandles
  | .sharedCell handle inner, known =>
    if handle ∈ known.cells then ([], known)
    else
      let (bodies, known) := cellBodies inner known
      (bodies ++ linkBodies inner, { known with cells := handle :: known.cells })
  | .heapNode handle body, known =>
    if handle ∈ known.nodes then ([], known)
    else
      let (bodies, nodes) := nodeBodies handle body known.nodes
      (bodies, { known with nodes })
  | .typedObject _ slotData _, known => cellBodiesList slotData known
  | _, known => ([], known)

def cellBodiesList : List SerializableVMValue → KnownHandles → List ObjectBody × KnownHandles
  | [], known => ([], known)
  | sv :: svs, known =>
    let (first, known) := cellBodies sv known
    let (rest, known) := cellBodiesList svs known
    (first ++ rest, known)

end

/-- The bodies that the two passes read over a list of slots. -/
def graphBodies (roots : List (SerializableVMValue × NativeKind)) : List ObjectBody :=
  (cellBodiesList (roots.map (·.1)) {}).1 ++ roots.flatMap fun root => linkBodies root.1

/-! ## What reading bodies leaves on the heap -/

/-- Every object among the cells agrees with its mask. -/
def ObjectsAgree (base top : Nat) (cells : List Alloc) : Prop :=
  ∀ o, Alloc.typedObject o ∈ cells → MaskAgrees base top o

/-- The cells `new` are what reading `bodies` leaves behind, `lo` addresses being handed out by then. -/
def Adds (env : RestoreEnv) (base lo : Nat) (new : List Alloc) (bodies : List ObjectBody) : Prop :=
  ∀ top, lo ≤ top → (ObjectsAgree base top new ↔ ∀ b ∈ bodies, b.Honest env)

section

variable {env : RestoreEnv} {base lo hi : Nat}

variable {bodies : List ObjectBody}

theorem Adds.mono {new : List Alloc} (h : Adds env base lo new bodies) (hle : lo ≤ hi) :
    Adds env base hi new bodies :=
  fun top htop => h top (hle.trans htop)

theorem adds_nil : Adds env base lo [] [] := by
  intro top _
  simp [ObjectsAgree]

variable {bodies₁ bodies₂ : List ObjectBody}

theorem Adds.append {new₁ new₂ : List Alloc} (h₁ : Adds env base lo new₁ bodies₁)
    (h₂ : Adds env base lo new₂ bodies₂) :
    Adds env base lo (new₁ ++ new₂) (bodies₁ ++ bodies₂) := by
  intro top htop
  have hsplit : ObjectsAgree base top (new₁ ++ new₂) ↔
      ObjectsAgree base top new₁ ∧ ObjectsAgree base top new₂ := by
    simp only [ObjectsAgree, List.mem_append]
    constructor
    · intro h
      exact ⟨fun o ho => h o (Or.inl ho), fun o ho => h o (Or.inr ho)⟩
    · rintro ⟨hl, hr⟩ o (ho | ho)
      · exact hl o ho
      · exact hr o ho
  rw [hsplit, h₁ top htop, h₂ top htop]
  simp only [List.mem_append, or_imp, forall_and]

/-- A cell that is no object adds no obligation. -/
theorem adds_leaf {cell : Alloc} (hcell : ∀ o, cell ≠ .typedObject o) : Adds env base lo [cell] [] := by
  intro top _
  constructor
  · intro _ b hb
    exact absurd hb List.not_mem_nil
  · intro _ o ho
    exact absurd (List.mem_singleton.mp ho).symm (hcell o)

/-- An object that always agrees adds no obligation either. -/
theorem adds_agreeing {o : TypedObjectStorage Bits} (ho : ∀ top, lo ≤ top → MaskAgrees base top o) :
    Adds env base lo [.typedObject o] [] := by
  intro top htop
  constructor
  · intro _ b hb
    exact absurd hb List.not_mem_nil
  · intro _ o' ho'
    obtain rfl := Alloc.typedObject.inj (List.mem_singleton.mp ho')
    exact ho top htop

/-- The slot a field comes back as: a pointer, null, or data that no pointer looks like. -/
inductive Classified (env : RestoreEnv) (base top : Nat) (sv : SerializableVMValue)
    (slot : KindedSlot) : Prop where
  | pointer (hsv : restoresToPointer env sv = true) (hkind : slot.kind.isHeap = true) (a : Nat)
      (haddr : slot.bits = .addr a) (hlo : base ≤ a) (hhi : a < top)
  | null (hsv : restoresToPointer env sv = true) (hkind : slot.kind.isHeap = true) (hbits : slot.bits = 0)
  | data (hsv : restoresToPointer env sv = false) (w : Word) (hbits : slot.bits = .word w)
      (hdata : slot.kind.isHeap = true → w ≠ 0)

variable {top : Nat} {sv : SerializableVMValue} {slot : KindedSlot}

theorem Classified.mono {top' : Nat} (h : Classified env base top sv slot) (hle : top ≤ top') :
    Classified env base top' sv slot := by
  cases h with
  | pointer hsv hkind a haddr hlo hhi => exact .pointer hsv hkind a haddr hlo (by omega)
  | null hsv hkind hbits => exact .null hsv hkind hbits
  | data hsv w hbits hdata => exact .data hsv w hbits hdata

theorem Classified.isPointer_iff (h : Classified env base top sv slot) :
    slot.kind.isHeap = true ∧ IsPointer base top slot.bits ↔ restoresToPointer env sv = true := by
  cases h with
  | pointer hsv hkind a haddr hlo hhi =>
    simp only [hsv, hkind, true_and, iff_true]
    exact Or.inr ⟨a, haddr, hlo, hhi⟩
  | null hsv hkind hbits =>
    simp only [hsv, hkind, true_and, iff_true]
    exact Or.inl hbits
  | data hsv w hbits hdata =>
    simp only [hsv, Bool.false_eq_true, iff_false]
    rintro ⟨hkind, hnull | ⟨a, haddr, -⟩⟩
    · rw [hbits] at hnull
      exact hdata hkind (Bits.word.inj hnull)
    · rw [hbits] at haddr
      cases haddr

variable {svs : List SerializableVMValue} {fields : List KindedSlot}

/-- An object over restored fields agrees with the wire's mask exactly if its body is honest. -/
theorem adds_objectOf (hfields : List.Forall₂ (Classified env base top) svs fields) (hle : top ≤ lo)
    (schemaId heapMask : Word) :
    Adds env base lo [objectOf schemaId heapMask fields] [⟨svs, heapMask⟩] := by
  intro top' htop'
  have hmask : MaskAgrees base top'
        { schemaId, slots := fields.map (·.bits), heapMask, fieldKinds := fields.map (·.kind) } ↔
      ObjectBody.Honest env ⟨svs, heapMask⟩ := by
    constructor
    · intro h i sv hsv
      obtain ⟨slot, hslot, hclass⟩ := Fallible.forall₂_getElem?_left hfields hsv
      rw [h i slot.bits slot.kind (by simp [hslot]) (by simp [hslot])]
      exact (hclass.mono (by omega)).isPointer_iff
    · intro h i bits kind hbits hkind
      rw [List.getElem?_map] at hbits hkind
      obtain ⟨slot, hslot, rfl⟩ := Option.map_eq_some_iff.mp hbits
      obtain rfl : slot.kind = kind := by simpa [hslot] using hkind
      obtain ⟨sv, hsv, hclass⟩ := Fallible.forall₂_getElem?_right hfields hslot
      rw [(hclass.mono (by omega)).isPointer_iff]
      exact h i sv hsv
  constructor
  · intro h b hb
    obtain rfl := List.mem_singleton.mp hb
    exact hmask.mp (h _ (List.mem_singleton_self _))
  · intro h o ho
    obtain rfl := Alloc.typedObject.inj (List.mem_singleton.mp ho)
    exact hmask.mpr (h _ (List.mem_singleton_self _))

/-! ## Values without children -/

/-- The step from `cells` to `cells'` has read `bodies`. -/
def Reads (env : RestoreEnv) (base : Nat) (cells cells' : List Alloc) (bodies : List ObjectBody) : Prop :=
  ∃ new, cells' = cells ++ new ∧ Adds env base cells'.length new bodies

theorem reads_refl (cells : List Alloc) : Reads env base cells cells [] :=
  ⟨[], (List.append_nil cells).symm, adds_nil⟩

theorem Reads.length_le {cells cells' : List Alloc} (h : Reads env base cells cells' bodies) :
    cells.length ≤ cells'.length := by
  obtain ⟨new, rfl, -⟩ := h
  simp

theorem Reads.trans {cells₁ cells₂ cells₃ : List Alloc} (h₁ : Reads env base cells₁ cells₂ bodies₁)
    (h₂ : Reads env base cells₂ cells₃ bodies₂) :
    Reads env base cells₁ cells₃ (bodies₁ ++ bodies₂) := by
  have hle := h₂.length_le
  obtain ⟨new₁, rfl, hadds₁⟩ := h₁
  obtain ⟨new₂, rfl, hadds₂⟩ := h₂
  exact ⟨new₁ ++ new₂, List.append_assoc _ _ _, (hadds₁.mono hle).append hadds₂⟩

theorem reads_alloc_leaf {cell : Alloc} (hcell : ∀ o, cell ≠ .typedObject o) (cells : List Alloc) :
    Reads env base cells (cells ++ [cell]) [] :=
  ⟨[cell], rfl, adds_leaf hcell⟩

variable {h : Heap} {kind : NativeKind}

/-- A fresh cell's slot is a pointer of this restore. -/
theorem classified_allocSlot (hbase : base ≤ h.cells.length) (hsv : restoresToPointer env sv = true)
    (content : Alloc) (hkind : kind.isHeap = true) :
    Classified env base (allocSlot h content kind).2.cells.length sv (allocSlot h content kind).1 := by
  refine .pointer hsv hkind h.cells.length rfl hbase ?_
  simp [allocSlot]

/-- The slot of a payload: the address of a string, or a scalar. -/
def IsPayload (base top : Nat) (payload : KindedSlot) : Prop :=
  (payload.kind.isHeap = true ∧ ∃ a, payload.bits = .addr a ∧ base ≤ a ∧ a < top) ∨
    payload.kind.isHeap = false

variable {h' : Heap}

theorem innerKindedFromSerializable_reads (hbase : base ≤ h.cells.length)
    (hr : innerKindedFromSerializable sv h = .ok (slot, h')) :
    Reads env base h.cells h'.cells [] ∧ IsPayload base h'.cells.length slot := by
  cases sv
  case int i =>
    cases hr
    exact ⟨reads_refl _, Or.inr rfl⟩
  case number f =>
    cases hr
    exact ⟨reads_refl _, Or.inr rfl⟩
  case bool b =>
    cases hr
    exact ⟨reads_refl _, Or.inr rfl⟩
  case string s =>
    cases hr
    refine ⟨reads_alloc_leaf (fun o ho => Alloc.noConfusion ho) _, Or.inl ⟨rfl, ?_⟩⟩
    exact ⟨h.cells.length, rfl, hbase, by simp⟩
  case unit =>
    cases hr
    exact ⟨reads_refl _, Or.inr rfl⟩
  case none =>
    cases hr
    exact ⟨reads_refl _, Or.inr rfl⟩
  all_goals cases hr

variable {payload : KindedSlot}

/-- A builtin variant object sets its own mask, and sets it right. -/
theorem maskAgrees_variant (hpayload : IsPayload base top payload) (schemaId variant : Word) :
    MaskAgrees base top
      { schemaId
        slots := [.word variant, payload.bits]
        heapMask := if payload.bits ≠ 0 ∧ payload.kind.isHeap then (1 : Word) <<< 1 else 0
        fieldKinds := [.int64, payload.kind] } := by
  intro i bits kind hbits hkind
  match i with
  | 0 =>
    obtain rfl := Option.some.inj hkind
    refine iff_of_false ?_ fun h => Bool.false_ne_true h.1
    dsimp only
    split <;> decide
  | 1 =>
    obtain rfl := Option.some.inj hkind
    obtain rfl := Option.some.inj hbits
    rcases hpayload with ⟨hheap, a, haddr, hlo, hhi⟩ | hscalar
    · have hne : payload.bits ≠ 0 := by
        rw [haddr]
        intro h
        cases h
      simp only [hne, hheap, ne_eq, not_false_eq_true, and_self, if_true, true_and]
      exact iff_of_true (by decide) (Or.inr ⟨a, haddr, hlo, hhi⟩)
    · simp [hscalar]
  | i + 2 => cases hbits

variable {schemaId : Word}

theorem buildVariant_reads {variant : Word} (hbase : base ≤ h.cells.length)
    (hpayload : IsPayload base h.cells.length payload) (hsv : restoresToPointer env sv = true)
    (hr : buildVariant schemaId variant payload h = (slot, h')) :
    Reads env base h.cells h'.cells [] ∧ Classified env base h'.cells.length sv slot := by
  obtain rfl : (buildVariant schemaId variant payload h).2 = h' := congrArg Prod.snd hr
  obtain rfl : (buildVariant schemaId variant payload h).1 = slot := congrArg Prod.fst hr
  refine ⟨⟨_, rfl, adds_agreeing ?_⟩, classified_allocSlot hbase hsv _ rfl⟩
  intro top htop
  refine maskAgrees_variant ?_ schemaId variant
  rcases hpayload with ⟨hheap, a, haddr, hlo, hhi⟩ | hscalar
  · refine Or.inl ⟨hheap, a, haddr, hlo, ?_⟩
    have hlength : (buildVariant schemaId variant payload h).2.cells.length = h.cells.length + 1 := by
      simp [buildVariant, allocSlot]
    omega
  · exact Or.inr hscalar

theorem resultToKindedSlot_reads {isOk : Bool} {payload : SerializableVMValue}
    (hbase : base ≤ h.cells.length) (hr : resultToKindedSlot env isOk payload h = .ok (slot, h')) :
    Reads env base h.cells h'.cells [] ∧
      Classified env base h'.cells.length (.resultData isOk payload) slot := by
  obtain ⟨⟨inner, h₁⟩, hinner, hr⟩ := Fallible.bind_eq_ok.mp hr
  have hpayload : Reads env base h.cells h₁.cells [] ∧ IsPayload base h₁.cells.length inner :=
    innerKindedFromSerializable_reads hbase hinner
  have hsv : restoresToPointer env (.resultData isOk payload) = true := rfl
  obtain ⟨hreads, hclass⟩ := buildVariant_reads (hbase.trans hpayload.1.length_le) hpayload.2 hsv
    (Except.ok.inj hr)
  exact ⟨hpayload.1.trans hreads, hclass⟩

theorem optionToKindedSlot_reads {isSome : Bool} {payload : Option SerializableVMValue}
    (hbase : base ≤ h.cells.length)
    (hr : optionToKindedSlot env isSome payload h = .ok (slot, h')) :
    Reads env base h.cells h'.cells [] ∧
      Classified env base h'.cells.length (.optionData isSome payload) slot := by
  obtain ⟨⟨inner, h₁⟩, hinner, hr⟩ := Fallible.bind_eq_ok.mp hr
  have hpayload : Reads env base h.cells h₁.cells [] ∧ IsPayload base h₁.cells.length inner := by
    cases payload with
    | some payload => exact innerKindedFromSerializable_reads hbase hinner
    | none =>
      cases isSome with
      | true => exact nomatch hinner
      | false =>
        obtain ⟨rfl, rfl⟩ := Prod.mk.inj (Except.ok.inj hinner)
        exact ⟨reads_refl _, Or.inr rfl⟩
  have hsv : restoresToPointer env (.optionData isSome payload) = true := rfl
  obtain ⟨hreads, hclass⟩ := buildVariant_reads (hbase.trans hpayload.1.length_le) hpayload.2 hsv
    (Except.ok.inj hr)
  exact ⟨hpayload.1.trans hreads, hclass⟩

theorem isHeap_of_intBits {i w : Word} (h : intBits kind i = some w) :
    kind.isHeap = false := by
  cases kind <;> first | rfl | exact nomatch h

theorem mismatch_ne_ok {α : Type} {r : α} : mismatch kind ≠ .ok r := by
  cases kind <;> exact fun h => nomatch h

variable {expected : NativeKind}

/-- **A value without children** reads no body, and comes back as its arm says. -/
theorem leafToKindedSlot_reads (hbase : base ≤ h.cells.length)
    (hr : leafToKindedSlot env sv expected h = .ok (slot, h')) :
    Reads env base h.cells h'.cells [] ∧ Classified env base h'.cells.length sv slot := by
  have halloc : ∀ (content : Alloc) (kind : NativeKind), (∀ o, content ≠ .typedObject o) →
      kind.isHeap = true → restoresToPointer env sv = true →
      Except.ok (ε := RestoreError) (allocSlot h content kind) = .ok (slot, h') →
      Reads env base h.cells h'.cells [] ∧ Classified env base h'.cells.length sv slot := by
    intro content kind hcontent hkind hsv hslot
    have hclass : Classified env base _ sv _ := classified_allocSlot hbase hsv content hkind
    rw [Except.ok.inj hslot] at hclass
    refine ⟨?_, hclass⟩
    obtain rfl : (allocSlot h content kind).2 = h' := congrArg Prod.snd (Except.ok.inj hslot)
    exact reads_alloc_leaf hcontent _
  have hdata : ∀ (w : Word) (kind : NativeKind), restoresToPointer env sv = false →
      (kind.isHeap = true → w ≠ 0) →
      Except.ok (ε := RestoreError) (KindedSlot.mk (.word w) kind, h) = .ok (slot, h') →
      Reads env base h.cells h'.cells [] ∧ Classified env base h'.cells.length sv slot := by
    intro w kind hsv hw hslot
    cases hslot
    exact ⟨reads_refl _, .data hsv w rfl hw⟩
  unfold leafToKindedSlot at hr
  split at hr
  all_goals first
    | exact halloc _ _ (fun o ho => Alloc.noConfusion ho) rfl rfl hr
    | exact hdata _ _ rfl (fun h => absurd h (by decide)) hr
    | exact resultToKindedSlot_reads hbase hr
    | exact optionToKindedSlot_reads hbase hr
    | exact absurd hr mismatch_ne_ok
    | (cases hr; done)
    | skip
  · -- An integer, at the width of the expected kind.
    split at hr
    · rename_i hbits
      exact hdata _ _ rfl (fun h => absurd h (by rw [isHeap_of_intBits hbits]; decide)) hr
    · exact absurd hr mismatch_ne_ok
  · -- A character is null exactly if it is NUL.
    rename_i c
    by_cases hc : c.val.toBitVec.setWidth 64 = (0 : Word)
    · cases hr
      exact ⟨reads_refl _, .null (by simpa [restoresToPointer] using hc) rfl (congrArg Bits.word hc)⟩
    · exact hdata _ _ (by simpa [restoresToPointer] using hc) (fun _ => hc) hr
  · -- A module function is null exactly if its id is 0.
    rename_i name
    split at hr
    · rename_i id hid
      by_cases hzero : id = 0
      · cases hr
        refine ⟨reads_refl _, .null ?_ rfl (congrArg Bits.word hzero)⟩
        simp [restoresToPointer, hid, hzero]
      · refine hdata _ _ ?_ (fun _ => hzero) hr
        simpa [restoresToPointer, hid] using hzero
    · exact nomatch hr
  · -- A map of strings.
    split at hr
    · exact nomatch hr
    · obtain ⟨entries, -, hr⟩ := Fallible.bind_eq_ok.mp hr
      exact halloc _ _ (fun o ho => Alloc.noConfusion ho) rfl rfl hr

/-! ## Values with children -/

/-- The tree path on `sv`. -/
def TreeSpec (env : RestoreEnv) (sv : SerializableVMValue) : Prop :=
  ∀ (base : Nat) (expected : NativeKind) (h h' : Heap) (slot : KindedSlot), base ≤ h.cells.length →
    serializableToKindedSlot env sv expected h = .ok (slot, h') →
    Reads env base h.cells h'.cells (treeBodies sv) ∧ Classified env base h'.cells.length sv slot

/-- The link context holds pointers of this restore, one for each known node, and one cell for each known
cell. -/
structure Linked (base : Nat) (s : RestoreState) (known cells : List Word) : Prop where
  pointer : ∀ handle slot, s.ctx.heapNodeMap handle = some slot →
    slot.kind.isHeap = true ∧ ∃ a, slot.bits = .addr a ∧ base ≤ a ∧ a < s.heap.cells.length
  known_iff : ∀ handle, (s.ctx.heapNodeMap handle).isSome = true ↔ handle ∈ known
  cells_iff : ∀ handle, (s.ctx.identityMap handle).isSome = true ↔ handle ∈ cells

theorem linked_empty (h : Heap) : Linked base { heap := h, ctx := {} } [] [] :=
  ⟨fun _ _ hslot => (nomatch hslot), fun handle => by simp, fun handle => by simp⟩

variable {cells : List Word} {s s' : RestoreState} {known : List Word}

theorem Linked.grow (hs : Linked base s known cells) (hnodes : s'.ctx.heapNodeMap = s.ctx.heapNodeMap)
    (hcells : s'.ctx.identityMap = s.ctx.identityMap) (hle : s.heap.cells.length ≤ s'.heap.cells.length) :
    Linked base s' known cells := by
  refine ⟨?_, ?_, ?_⟩
  · intro handle slot hslot
    rw [hnodes] at hslot
    obtain ⟨hkind, a, haddr, hlo, hhi⟩ := hs.pointer handle slot hslot
    exact ⟨hkind, a, haddr, hlo, by omega⟩
  · intro handle
    rw [hnodes]
    exact hs.known_iff handle
  · intro handle
    rw [hcells]
    exact hs.cells_iff handle

theorem Linked.recordNode (hs : Linked base s known cells) (handle : Word) {a : Nat}
    (hkind : kind.isHeap = true) (hlo : base ≤ a) (hhi : a < s.heap.cells.length) :
    Linked base (s.recordNode handle ⟨.addr a, kind⟩) (handle :: known) cells := by
  refine ⟨?_, ?_, hs.cells_iff⟩
  · intro handle' slot hslot
    rw [RestoreState.heapNodeMap_recordNode] at hslot
    rw [RestoreState.cells_recordNode]
    by_cases heq : handle' = handle
    · subst heq
      rw [Function.update_self] at hslot
      obtain rfl := Option.some.inj hslot
      exact ⟨hkind, a, rfl, hlo, hhi⟩
    · rw [Function.update_of_ne heq] at hslot
      exact hs.pointer handle' slot hslot
  · intro handle'
    rw [RestoreState.heapNodeMap_recordNode, List.mem_cons]
    by_cases heq : handle' = handle
    · subst heq
      simp
    · rw [Function.update_of_ne heq, hs.known_iff handle']
      simp [heq]

variable {handle : Word}

/-- A looked-up node is a pointer of this restore. -/
theorem Linked.lookupNode (hs : Linked base s known cells) (hr : s.lookupNode handle = .ok (slot, s'))
    (hsv : restoresToPointer env sv = true) :
    s'.heap.cells = s.heap.cells ∧ Linked base s' known cells ∧
      Classified env base s'.heap.cells.length sv slot := by
  obtain ⟨hslot, rfl⟩ := RestoreState.lookupNode_eq_ok.mp hr
  have hcells : (slot.clone s.heap).cells = s.heap.cells := slot.cells_clone s.heap
  obtain ⟨hkind, a, haddr, hlo, hhi⟩ := hs.pointer handle slot hslot
  refine ⟨hcells, hs.grow rfl rfl (Nat.le_of_eq (congrArg List.length hcells).symm), ?_⟩
  exact .pointer hsv hkind a haddr hlo (by rw [hcells]; exact hhi)

/-- The graph path on the body of a node. -/
def NodeSpec (env : RestoreEnv) (body : SerializableVMValue) : Prop :=
  ∀ (base : Nat) (handle : Word) (s s' : RestoreState) (known cells : List Word),
    base ≤ s.heap.cells.length → Linked base s known cells →
    materializeNodeBase env handle body s = .ok s' →
    Reads env base s.heap.cells s'.heap.cells (nodeBodies handle body known).1 ∧
      Linked base s' (nodeBodies handle body known).2 cells

/-- The graph path on a child of a node. -/
def ChildSpec (env : RestoreEnv) (sv : SerializableVMValue) : Prop :=
  ∀ (base : Nat) (s s' : RestoreState) (slot : KindedSlot) (known cells : List Word),
    base ≤ s.heap.cells.length → Linked base s known cells →
    resolveChild env sv s = .ok (slot, s') →
    Reads env base s.heap.cells s'.heap.cells (childBodies sv known).1 ∧
      Linked base s' (childBodies sv known).2 cells ∧ Classified env base s'.heap.cells.length sv slot

variable {slotData : List SerializableVMValue}

theorem fieldsToKindedSlots_reads (hspec : ∀ sv ∈ slotData, TreeSpec env sv) {i : Nat}
    (hbase : base ≤ h.cells.length)
    (hr : fieldsToKindedSlots env schemaId i slotData h = .ok (fields, h')) :
    Reads env base h.cells h'.cells (treeBodiesList slotData) ∧
      List.Forall₂ (Classified env base h'.cells.length) slotData fields := by
  induction slotData generalizing i h fields with
  | nil =>
    obtain ⟨rfl, rfl⟩ := Prod.mk.inj (Except.ok.inj hr)
    exact ⟨reads_refl _, .nil⟩
  | cons sv slotData ih =>
    rw [fieldsToKindedSlots] at hr
    obtain ⟨⟨slot, h₁⟩, hslot, hr⟩ := Fallible.bind_eq_ok.mp hr
    obtain ⟨⟨slots, h₂⟩, hslots, hr⟩ := Fallible.bind_eq_ok.mp hr
    obtain ⟨rfl, rfl⟩ := Prod.mk.inj (Except.ok.inj hr)
    obtain ⟨hreads, hclass⟩ := hspec sv List.mem_cons_self base _ h h₁ slot hbase
      (Fallible.mapError_eq_ok.mp hslot)
    obtain ⟨hreads', hrest⟩ := ih (fun sv' h' => hspec sv' (List.mem_cons_of_mem _ h'))
      (hbase.trans hreads.length_le) hslots
    refine ⟨?_, .cons (hclass.mono hreads'.length_le) hrest⟩
    rw [treeBodiesList]
    exact hreads.trans hreads'

variable {elems : List SerializableVMValue}

theorem typedObjectElements_reads (hspec : ∀ sv ∈ elems, TreeSpec env sv) {addrs : List Nat}
    (hbase : base ≤ h.cells.length) (hr : typedObjectElements env elems h = .ok (addrs, h')) :
    Reads env base h.cells h'.cells (treeBodiesList elems) := by
  induction elems generalizing h addrs with
  | nil =>
    obtain ⟨rfl, rfl⟩ := Prod.mk.inj (Except.ok.inj hr)
    exact reads_refl _
  | cons sv elems ih =>
    cases sv
    case typedObject schemaId slotData heapMask =>
      rw [typedObjectElements] at hr
      obtain ⟨⟨fields, h₁⟩, hfields, hr⟩ := Fallible.bind_eq_ok.mp hr
      obtain ⟨⟨addrs', h₂⟩, haddrs, hr⟩ := Fallible.bind_eq_ok.mp hr
      obtain ⟨rfl, rfl⟩ := Prod.mk.inj (Except.ok.inj hr)
      -- The element is built as the tree path builds it.
      have hslot : serializableToKindedSlot env (.typedObject schemaId slotData heapMask)
          (.ptr .typedObject) h =
          .ok (allocSlot h₁ (objectOf schemaId heapMask fields) (.ptr .typedObject)) := by
        rw [serializableToKindedSlot, if_pos rfl, hfields]
        rfl
      obtain ⟨hreads, -⟩ := hspec _ List.mem_cons_self base _ h _ _ hbase hslot
      have hreads' := ih (fun sv' h' => hspec sv' (List.mem_cons_of_mem _ h'))
        (hbase.trans hreads.length_le) haddrs
      rw [treeBodiesList]
      exact hreads.trans hreads'
    all_goals exact nomatch hr

/-- Where the children of a node go: `place` edits cell `a` and nothing else. -/
def Filling.Edits (fill : Filling) (a : Nat) (edit : Nat → KindedSlot → Alloc → Alloc) : Prop :=
  ∀ {i : Nat} {slot : KindedSlot} {s s' : RestoreState}, fill.place i slot s = .ok s' →
    s'.ctx = s.ctx ∧ s'.heap.cells = s.heap.cells.modify a (edit i slot)

variable {slots : List KindedSlot}

theorem resolveEach_reads (hspec : ∀ sv ∈ svs, ChildSpec env sv) {fill : Filling} {a : Nat}
    {edit : Nat → KindedSlot → Alloc → Alloc} (hfill : fill.Edits a edit) {i : Nat}
    (hbase : base ≤ s.heap.cells.length) (ha : a < s.heap.cells.length ∨ ∀ i slot, edit i slot = id)
    (hs : Linked base s known cells) (hr : resolveEach env fill i svs s = .ok (slots, s')) :
    Reads env base (s.heap.cells.modify a (editAll edit i slots)) s'.heap.cells
        (childrenBodies svs known).1 ∧
      Linked base s' (childrenBodies svs known).2 cells ∧
      List.Forall₂ (Classified env base s'.heap.cells.length) svs slots := by
  induction svs generalizing i s slots known with
  | nil =>
    obtain ⟨rfl, rfl⟩ := Prod.mk.inj (Except.ok.inj hr)
    refine ⟨?_, hs, .nil⟩
    have hid : editAll edit i [] = id := rfl
    rw [hid, List.modify_id]
    exact reads_refl _
  | cons sv svs ih =>
    rw [resolveEach_cons] at hr
    obtain ⟨-, -, hr⟩ := Fallible.bind_eq_ok.mp hr
    obtain ⟨⟨slot, s₁⟩, hslot, hr⟩ := Fallible.bind_eq_ok.mp hr
    obtain ⟨s₂, hplace, hr⟩ := Fallible.bind_eq_ok.mp hr
    obtain ⟨⟨slots', s₃⟩, hslots, hr⟩ := Fallible.bind_eq_ok.mp hr
    obtain ⟨rfl, rfl⟩ := Prod.mk.inj (Except.ok.inj hr)
    obtain ⟨hreads, hlinked, hclass⟩ := hspec sv List.mem_cons_self base s s₁ slot known cells hbase hs
      (Fallible.mapError_eq_ok.mp hslot)
    obtain ⟨hctx, hcells⟩ := hfill hplace
    obtain ⟨new, hnew, hadds⟩ := hreads
    have hlength : s₂.heap.cells.length = s₁.heap.cells.length := by rw [hcells, List.length_modify]
    have hle : s.heap.cells.length ≤ s₁.heap.cells.length := by simp [hnew]
    obtain ⟨hreads', hlinked', hrest⟩ := ih (fun sv' h' => hspec sv' (List.mem_cons_of_mem _ h'))
      (by omega) (ha.imp_left (by omega)) (hlinked.grow (by rw [hctx]) (by rw [hctx])
        (Nat.le_of_eq hlength.symm)) hslots
    refine ⟨?_, ?_, .cons ?_ hrest⟩
    · -- The edit of the first child commutes with what the first child has added.
      have hmodify : s₂.heap.cells.modify a (editAll edit (i + 1) slots') =
          s.heap.cells.modify a (editAll edit i (slot :: slots')) ++ new := by
        rw [hcells, hnew]
        rcases ha with ha | ha
        · rw [modify_append_of_lt ha, modify_append_of_lt (by simpa using ha), List.modify_modify_eq]
          rfl
        · rw [editAll_id ha, editAll_id ha, ha, List.modify_id, List.modify_id, List.modify_id]
      rw [hmodify] at hreads'
      rw [childrenBodies_cons]
      refine Reads.trans ⟨new, rfl, ?_⟩ hreads'
      refine hadds.mono ?_
      simp [hnew]
    · rw [childrenBodies_cons]
      exact hlinked'
    · refine hclass.mono ?_
      have := hreads'.length_le
      simp only [List.length_modify] at this
      omega

/-! ### The three shapes of a node -/

theorem fillObject_edits (schemaId : Word) (a : Nat) :
    (fillObject schemaId a).Edits a fun i slot => writeSlot i slot.bits := by
  intro i slot s s' hr
  obtain rfl := Except.ok.inj hr
  exact ⟨rfl, rfl⟩

theorem materializeTypedObject_reads {heapMask : Word} (hspec : ∀ sv ∈ slotData, ChildSpec env sv) :
    NodeSpec env (.typedObject schemaId slotData heapMask) := by
  intro base handle s s' known cells hbase hs hr
  rw [materializeNodeBase] at hr
  obtain ⟨⟨fields, s₂⟩, hfields, hr⟩ := Fallible.bind_eq_ok.mp hr
  obtain rfl := Except.ok.inj hr
  have hcells : (RestoreState.recordNode { s with heap := (s.heap.alloc (objectShell schemaId
      slotData.length)).2 } handle ⟨.addr s.heap.cells.length, .ptr .typedObject⟩).heap.cells =
      s.heap.cells ++ [objectShell schemaId slotData.length] := by simp
  have hlinked : Linked base { s with heap := (s.heap.alloc (objectShell schemaId slotData.length)).2 }
      known cells := hs.grow rfl rfl (by simp)
  obtain ⟨hreads, hlinked', hclass⟩ := resolveEach_reads hspec (fillObject_edits schemaId _)
    (by rw [hcells]; simp; omega) (Or.inl (by rw [hcells]; simp))
    (hlinked.recordNode handle rfl hbase (by simp)) hfields
  have hlength : slotData.length = fields.length := hclass.length_eq
  rw [hcells, modify_append_length] at hreads
  obtain ⟨new, hnew, hadds⟩ := hreads
  have hfinal : (s₂.heap.modify s.heap.cells.length (installKinds (fields.map (·.kind)) heapMask)).cells =
      s.heap.cells ++ (objectOf schemaId heapMask fields :: new) := by
    rw [Heap.cells_modify, hnew, List.append_assoc, List.singleton_append, modify_append_length, hlength,
      installKinds_objectShell]
  refine ⟨⟨_, hfinal, ?_⟩, ?_⟩
  · have hsame : (s₂.heap.modify s.heap.cells.length (installKinds (fields.map (·.kind))
        heapMask)).cells.length = s₂.heap.cells.length := by simp
    rw [nodeBodies]
    refine Adds.append (adds_objectOf hclass ?_ schemaId heapMask) (hadds.mono ?_)
    · exact Nat.le_of_eq hsame.symm
    · exact Nat.le_of_eq hsame.symm
  · rw [nodeBodies]
    exact hlinked'.grow rfl rfl (by simp)

theorem fillArray_edits (a : Nat) : (fillArray a).Edits a fun _ => pushSlot := by
  intro i slot s s' hr
  unfold fillArray at hr
  dsimp only at hr
  split at hr
  · rename_i elem hbits hkind
    obtain rfl := Except.ok.inj hr
    have hpush : pushSlot slot = pushElement elem := by rw [pushSlot, hbits]
    exact ⟨rfl, congrArg (s.heap.cells.modify a) hpush.symm⟩
  · cases hr

theorem fillMap_edits (keys : List SerializableVMValue) :
    (fillMap keys).Edits 0 fun _ _ => id := by
  intro i slot s s' hr
  unfold fillMap at hr
  dsimp only at hr
  split at hr
  · obtain rfl := Except.ok.inj hr
    exact ⟨rfl, by rw [List.modify_id]⟩
  · exact nomatch hr

theorem materializeArray_reads (hspec : ∀ sv ∈ elems, ChildSpec env sv) : NodeSpec env (.array elems) := by
  intro base handle s s' known cells hbase hs hr
  rw [materializeNodeBase] at hr
  obtain ⟨⟨slots, s₂⟩, hslots, hr⟩ := Fallible.bind_eq_ok.mp hr
  obtain rfl := Except.ok.inj hr
  have hcells : (RestoreState.recordNode { s with heap := (s.heap.alloc (.array (.typedObject []))).2 }
      handle ⟨.addr s.heap.cells.length, .ptr .typedArray⟩).heap.cells =
      s.heap.cells ++ [.array (.typedObject [])] := by simp
  have hlinked : Linked base { s with heap := (s.heap.alloc (.array (.typedObject []))).2 } known cells :=
    hs.grow rfl rfl (by simp)
  obtain ⟨hreads, hlinked', -⟩ := resolveEach_reads hspec (fillArray_edits _)
    (by rw [hcells]; simp; omega) (Or.inl (by rw [hcells]; simp))
    (hlinked.recordNode handle rfl hbase (by simp)) hslots
  rw [hcells, modify_append_length, editAll_pushSlot] at hreads
  rw [nodeBodies]
  exact ⟨(reads_alloc_leaf (fun o ho => Alloc.noConfusion ho) _).trans hreads, hlinked'⟩

/-- Inserting into a map changes no cell. -/
theorem foldl_insertObject_cells (entries : List (SerializableVMValue × KindedSlot))
    (acc : List (String × Nat) × Heap) :
    (entries.foldl insertObject acc).2.cells = acc.2.cells := by
  induction entries generalizing acc with
  | nil => rfl
  | cons entry entries ih =>
    rw [List.foldl_cons, ih]
    unfold insertObject
    split
    · exact Heap.cells_releaseAll _ _ _
    · rfl

theorem materializeHashMap_reads {keys values : List SerializableVMValue}
    (hspec : ∀ sv ∈ values, ChildSpec env sv) : NodeSpec env (.hashMap keys values) := by
  intro base handle s s' known cells hbase hs hr
  rw [materializeNodeBase] at hr
  split at hr
  · exact nomatch hr
  · obtain ⟨⟨slots, s₁⟩, hslots, hr⟩ := Fallible.bind_eq_ok.mp hr
    obtain rfl := Except.ok.inj hr
    obtain ⟨hreads, hlinked, -⟩ := resolveEach_reads hspec (fillMap_edits keys) hbase
      (Or.inr fun _ _ => rfl) hs hslots
    rw [editAll_id (fun _ _ => rfl), List.modify_id] at hreads
    have hfold := foldl_insertObject_cells (keys.zip slots) ([], s₁.heap)
    have hle := hreads.length_le
    rw [nodeBodies, RestoreState.cells_recordNode]
    refine ⟨?_, ?_⟩
    · have halloc : Reads env base s₁.heap.cells
          (s₁.heap.cells ++
            [.map (.typedObject ((keys.zip slots).foldl insertObject ([], s₁.heap)).1)]) [] :=
        reads_alloc_leaf (fun o ho => Alloc.noConfusion ho) _
      have htrans := hreads.trans halloc
      rw [List.append_nil, ← hfold] at htrans
      exact htrans
    · have hgrown : Linked base { s₁ with heap := (((keys.zip slots).foldl insertObject
          ([], s₁.heap)).2.alloc (.map (.typedObject ((keys.zip slots).foldl insertObject
          ([], s₁.heap)).1))).2 } (childrenBodies values known).2 cells :=
        hlinked.grow rfl rfl (by simp [hfold])
      exact hgrown.recordNode handle rfl (by rw [hfold]; exact hbase.trans hle) (by simp)

/-! ### All values -/

/-- **Both paths read exactly the bodies listed for them**, by induction over the wire value. -/
theorem restore_specs (env : RestoreEnv) (sv : SerializableVMValue) :
    TreeSpec env sv ∧ NodeSpec env sv ∧ ChildSpec env sv := by
  induction sv using SerializableVMValue.children_induction with
  | h sv ih =>
    have hnode : NodeSpec env sv := by
      cases sv
      case typedObject schemaId slotData heapMask =>
        exact materializeTypedObject_reads fun child hchild => (ih child hchild).2.2
      case array elems => exact materializeArray_reads fun child hchild => (ih child hchild).2.2
      case hashMap keys values => exact materializeHashMap_reads fun child hchild => (ih child hchild).2.2
      all_goals exact fun base handle s s' known cells hbase hs hr => nomatch hr
    have htree : TreeSpec env sv := by
      intro base expected h h' slot hbase hr
      cases sv
      case heapNode handle body =>
        rw [serializableToKindedSlot] at hr
        obtain ⟨s₁, hmaterialize, hr⟩ := Fallible.bind_eq_ok.mp hr
        obtain ⟨⟨node, s₂⟩, hlookup, hr⟩ := Fallible.bind_eq_ok.mp hr
        obtain ⟨rfl, rfl⟩ := Prod.mk.inj (Except.ok.inj hr)
        obtain ⟨hreads, hlinked⟩ := (ih body (List.mem_singleton_self _)).2.1 base handle _ s₁ [] []
          hbase (linked_empty h) hmaterialize
        have hsv : restoresToPointer env (.heapNode handle body) = true := rfl
        obtain ⟨hcells, -, hclass⟩ := hlinked.lookupNode hlookup hsv
        rw [RestoreState.cells_releaseBaseShares, hcells, treeBodies]
        rw [hcells] at hclass
        exact ⟨hreads, hclass⟩
      case heapRef handle => exact nomatch hr
      case typedObject schemaId slotData heapMask =>
        rw [serializableToKindedSlot] at hr
        split at hr
        · obtain ⟨⟨fields, h₁⟩, hfields, hr⟩ := Fallible.bind_eq_ok.mp hr
          obtain ⟨hreads, hclass⟩ := fieldsToKindedSlots_reads (fun child hchild => (ih child hchild).1)
            hbase hfields
          obtain ⟨rfl, rfl⟩ := Prod.mk.inj (Except.ok.inj hr)
          have hobject : Reads env base h₁.cells (h₁.cells ++ [objectOf schemaId heapMask fields])
              [⟨slotData, heapMask⟩] :=
            ⟨_, rfl, adds_objectOf hclass (by simp) schemaId heapMask⟩
          have hsv : restoresToPointer env (.typedObject schemaId slotData heapMask) = true := rfl
          rw [treeBodies]
          exact ⟨hreads.trans hobject,
            classified_allocSlot (hbase.trans hreads.length_le) hsv _ rfl⟩
        · exact absurd hr mismatch_ne_ok
      case array elems =>
        have hsv : restoresToPointer env (.array elems) = true := rfl
        rw [serializableToKindedSlot] at hr
        split at hr
        · split at hr
          · rename_i hfirst
            obtain ⟨⟨addrs, h₁⟩, haddrs, hr⟩ := Fallible.bind_eq_ok.mp hr
            have hreads := typedObjectElements_reads (fun child hchild => (ih child hchild).1) hbase haddrs
            obtain ⟨rfl, rfl⟩ := Prod.mk.inj (Except.ok.inj hr)
            have halloc : Reads env base h₁.cells (h₁.cells ++ [.array (.typedObject addrs)]) [] :=
              reads_alloc_leaf (fun o ho => Alloc.noConfusion ho) _
            have htrans := hreads.trans halloc
            rw [List.append_nil] at htrans
            rw [treeBodies, if_pos hfirst]
            exact ⟨htrans, classified_allocSlot (hbase.trans hreads.length_le) hsv _ rfl⟩
          · rename_i hfirst
            obtain ⟨data, -, hr⟩ := Fallible.bind_eq_ok.mp hr
            obtain ⟨rfl, rfl⟩ := Prod.mk.inj (Except.ok.inj hr)
            rw [treeBodies, if_neg hfirst]
            exact ⟨reads_alloc_leaf (fun o ho => Alloc.noConfusion ho) _,
              classified_allocSlot hbase hsv _ rfl⟩
        · exact absurd hr mismatch_ne_ok
      all_goals exact leafToKindedSlot_reads hbase hr
    refine ⟨htree, hnode, ?_⟩
    intro base s s' slot known cells hbase hs hr
    have hleaf : childBodies sv known = (treeBodies sv, known) →
        (serializableToKindedSlot env sv (expectedHeapFieldKind sv) s.heap >>= fun p =>
          Except.ok (p.1, { s with heap := p.2 })) = Except.ok (slot, s') →
        Reads env base s.heap.cells s'.heap.cells (childBodies sv known).1 ∧
          Linked base s' (childBodies sv known).2 cells ∧
          Classified env base s'.heap.cells.length sv slot := by
      intro hbodies hr
      obtain ⟨⟨slot, h₁⟩, hslot, hr⟩ := Fallible.bind_eq_ok.mp hr
      obtain ⟨rfl, rfl⟩ := Prod.mk.inj (Except.ok.inj hr)
      obtain ⟨hreads, hclass⟩ := htree base _ s.heap h₁ slot hbase hslot
      rw [hbodies]
      exact ⟨hreads, hs.grow rfl rfl hreads.length_le, hclass⟩
    cases sv
    case heapNode handle body =>
      rw [resolveChild] at hr
      have hsv : restoresToPointer env (.heapNode handle body) = true := rfl
      rw [childBodies]
      split at hr
      · -- The handle is known: the body is not looked at.
        rename_i hknown
        obtain ⟨hcells, hlinked, hclass⟩ := hs.lookupNode hr hsv
        rw [if_pos ((hs.known_iff handle).mp hknown), hcells]
        rw [hcells] at hclass
        exact ⟨reads_refl _, hlinked, hclass⟩
      · rename_i hunknown
        obtain ⟨s₁, hmaterialize, hlookup⟩ := Fallible.bind_eq_ok.mp hr
        obtain ⟨hreads, hlinked⟩ := (ih body (List.mem_singleton_self _)).2.1 base handle s s₁ known
          cells hbase hs hmaterialize
        obtain ⟨hcells, hlinked', hclass⟩ := hlinked.lookupNode hlookup hsv
        rw [if_neg (mt (hs.known_iff handle).mpr hunknown), hcells]
        rw [hcells] at hclass
        exact ⟨hreads, hlinked', hclass⟩
    case heapRef handle =>
      have hsv : restoresToPointer env (.heapRef handle) = true := rfl
      obtain ⟨hcells, hlinked, hclass⟩ := hs.lookupNode hr hsv
      rw [hcells]
      rw [hcells] at hclass
      exact ⟨reads_refl _, hlinked, hclass⟩
    all_goals exact hleaf rfl hr

/-! ## The two passes -/

theorem linkSharedCell_cells (hr : linkSharedCell handle s = .ok (slot, s')) :
    s'.heap.cells = s.heap.cells ∧ s'.ctx = s.ctx := by
  unfold linkSharedCell at hr
  split at hr
  · exact nomatch hr
  · split at hr
    · obtain ⟨-, rfl⟩ := Prod.mk.inj (Except.ok.inj hr)
      exact ⟨KindedSlot.cells_clone _ _, rfl⟩
    · exact nomatch hr

theorem linkPromotedReference_reads (hr : linkPromotedReference handle s = .ok (slot, s')) :
    Reads env base s.heap.cells s'.heap.cells [] ∧ s'.ctx = s.ctx := by
  obtain ⟨⟨cell, s₁⟩, hcell, hr⟩ := Fallible.bind_eq_ok.mp hr
  obtain ⟨hcells, hctx⟩ := linkSharedCell_cells hcell
  dsimp only at hr
  split at hr
  · obtain ⟨-, rfl⟩ := Prod.mk.inj (Except.ok.inj hr)
    rw [← hcells]
    exact ⟨reads_alloc_leaf (fun o ho => Alloc.noConfusion ho) _, hctx⟩
  · exact nomatch hr

/-- The second pass on one slot. -/
theorem serializableToKindedSlotCtx_reads (hbase : base ≤ s.heap.cells.length)
    (hr : serializableToKindedSlotCtx env sv expected s = .ok (slot, s')) :
    Reads env base s.heap.cells s'.heap.cells (linkBodies sv) ∧ s'.ctx = s.ctx := by
  have htree : linkBodies sv = treeBodies sv →
      (serializableToKindedSlot env sv expected s.heap >>= fun p =>
        Except.ok (p.1, { s with heap := p.2 })) = Except.ok (slot, s') →
      Reads env base s.heap.cells s'.heap.cells (linkBodies sv) ∧ s'.ctx = s.ctx := by
    intro hbodies hr
    obtain ⟨⟨slot, h₁⟩, hslot, hr⟩ := Fallible.bind_eq_ok.mp hr
    obtain ⟨rfl, rfl⟩ := Prod.mk.inj (Except.ok.inj hr)
    rw [hbodies]
    exact ⟨((restore_specs env sv).1 base expected s.heap h₁ slot hbase hslot).1, rfl⟩
  have hnode : ∀ handle, linkBodies sv = [] → s.lookupNode handle = .ok (slot, s') →
      Reads env base s.heap.cells s'.heap.cells (linkBodies sv) ∧ s'.ctx = s.ctx := by
    intro handle hbodies hr
    obtain ⟨-, rfl⟩ := RestoreState.lookupNode_eq_ok.mp hr
    rw [hbodies, KindedSlot.cells_clone]
    exact ⟨reads_refl _, rfl⟩
  have hcell : ∀ handle, linkBodies sv = [] → linkSharedCell handle s = .ok (slot, s') →
      Reads env base s.heap.cells s'.heap.cells (linkBodies sv) ∧ s'.ctx = s.ctx := by
    intro handle hbodies hr
    obtain ⟨hcells, hctx⟩ := linkSharedCell_cells hr
    rw [hbodies, hcells]
    exact ⟨reads_refl _, hctx⟩
  -- promoted references, cells, nodes, and everything else as a tree
  unfold serializableToKindedSlotCtx at hr
  split at hr
  · exact linkPromotedReference_reads hr
  · exact linkPromotedReference_reads hr
  · exact hcell _ rfl hr
  · exact hcell _ rfl hr
  · exact hnode _ rfl hr
  · exact hnode _ rfl hr
  · refine htree ?_ hr
    unfold linkBodies
    split
    · grind
    · grind
    · rfl

/-- The first pass on `sv`. -/
def CellSpec (env : RestoreEnv) (sv : SerializableVMValue) : Prop :=
  ∀ (base : Nat) (s s' : RestoreState) (known : KnownHandles), base ≤ s.heap.cells.length →
    Linked base s known.nodes known.cells → materializeCellBodies env sv s = .ok s' →
    Reads env base s.heap.cells s'.heap.cells (cellBodies sv known).1 ∧
      Linked base s' (cellBodies sv known).2.nodes (cellBodies sv known).2.cells

theorem materializeCellBodiesList_reads (hspec : ∀ sv ∈ svs, CellSpec env sv) {known : KnownHandles}
    (hbase : base ≤ s.heap.cells.length) (hs : Linked base s known.nodes known.cells)
    (hr : materializeCellBodiesList env svs s = .ok s') :
    Reads env base s.heap.cells s'.heap.cells (cellBodiesList svs known).1 ∧
      Linked base s' (cellBodiesList svs known).2.nodes (cellBodiesList svs known).2.cells := by
  induction svs generalizing s known with
  | nil =>
    obtain rfl := Except.ok.inj hr
    exact ⟨reads_refl _, hs⟩
  | cons sv svs ih =>
    rw [materializeCellBodiesList] at hr
    obtain ⟨s₁, hfirst, hrest⟩ := Fallible.bind_eq_ok.mp hr
    obtain ⟨hreads, hlinked⟩ := hspec sv List.mem_cons_self base s s₁ known hbase hs hfirst
    obtain ⟨hreads', hlinked'⟩ := ih (fun sv' h' => hspec sv' (List.mem_cons_of_mem _ h'))
      (hbase.trans hreads.length_le) hlinked hrest
    rw [cellBodiesList]
    exact ⟨hreads.trans hreads', hlinked'⟩

theorem Linked.recordIdentity (hs : Linked base s known cells) (handle : Word) (slot : KindedSlot) :
    Linked base (s.recordIdentity handle slot) known (handle :: cells) := by
  refine ⟨?_, hs.known_iff, ?_⟩
  · rw [RestoreState.cells_recordIdentity]
    exact hs.pointer
  · intro handle'
    show ((Function.update s.ctx.identityMap handle (some slot)) handle').isSome = true ↔ _
    rw [List.mem_cons]
    by_cases heq : handle' = handle
    · subst heq
      simp
    · rw [Function.update_of_ne heq, hs.cells_iff handle']
      simp [heq]

/-- **The first pass reads exactly the bodies listed for it**, by induction over the wire value. -/
theorem cell_spec (env : RestoreEnv) (sv : SerializableVMValue) : CellSpec env sv := by
  induction sv using SerializableVMValue.children_induction with
  | h sv ih =>
    intro base s s' known hbase hs hr
    cases sv
    case sharedCell handle inner =>
      rw [materializeCellBodies] at hr
      rw [cellBodies]
      -- a cell that is known is not read again
      split at hr
      · rename_i hknown
        obtain rfl := Except.ok.inj hr
        rw [if_pos ((hs.cells_iff handle).mp hknown)]
        exact ⟨reads_refl _, hs⟩
      · rename_i hunknown
        rw [if_neg (mt (hs.cells_iff handle).mpr hunknown)]
        split at hr
        · exact nomatch hr
        · obtain ⟨s₁, hinner, hr⟩ := Fallible.bind_eq_ok.mp hr
          obtain ⟨⟨value, s₂⟩, hvalue, hr⟩ := Fallible.bind_eq_ok.mp hr
          obtain rfl := Except.ok.inj hr
          -- the handle is in progress while the inner value is read
          have hentered : Linked base { s with ctx := { s.ctx with
              inProgress := handle :: s.ctx.inProgress } } known.nodes known.cells :=
            hs.grow rfl rfl (Nat.le_refl _)
          obtain ⟨hreads, hlinked⟩ := ih inner (List.mem_singleton_self _) base
            { s with ctx := { s.ctx with inProgress := handle :: s.ctx.inProgress } } s₁ known hbase
            hentered hinner
          obtain ⟨hreads₂, hctx⟩ := serializableToKindedSlotCtx_reads (hbase.trans hreads.length_le) hvalue
          have hcell : Reads env base s₂.heap.cells (s₂.heap.cells ++ [.sharedCell value]) [] :=
            reads_alloc_leaf (fun o ho => Alloc.noConfusion ho) _
          refine ⟨?_, ?_⟩
          · have hall := (hreads.trans hreads₂).trans hcell
            rw [List.append_nil] at hall
            rw [RestoreState.cells_recordIdentity]
            exact hall
          · have hgrown : Linked base { s₂ with heap := (allocSlot s₂.heap (.sharedCell value)
                (.ptr .sharedCell)).2 } (cellBodies inner known).2.nodes
                  (cellBodies inner known).2.cells := by
              refine hlinked.grow (congrArg _ hctx) (congrArg _ hctx) (hreads₂.length_le.trans ?_)
              simp [allocSlot]
            exact (hgrown.recordIdentity handle _).grow rfl rfl (Nat.le_refl _)
    case heapNode handle body =>
      rw [materializeCellBodies] at hr
      rw [cellBodies]
      split at hr
      · rename_i hknown
        obtain rfl := Except.ok.inj hr
        rw [if_pos ((hs.known_iff handle).mp hknown)]
        exact ⟨reads_refl _, hs⟩
      -- a node is read once, like a cell
      · rename_i hunknown
        rw [if_neg (mt (hs.known_iff handle).mpr hunknown)]
        exact (restore_specs env body).2.1 base handle s s' known.nodes known.cells hbase hs hr
    case typedObject schemaId slotData heapMask =>
      rw [materializeCellBodies] at hr
      rw [cellBodies]
      exact materializeCellBodiesList_reads ih hbase hs hr
    all_goals
      obtain rfl := Except.ok.inj hr
      exact ⟨reads_refl _, hs⟩

variable {roots : List (SerializableVMValue × NativeKind)}

theorem linkSlots_reads (hbase : base ≤ s.heap.cells.length)
    (hr : linkSlots env roots s = .ok (slots, s')) :
    Reads env base s.heap.cells s'.heap.cells (roots.flatMap fun root => linkBodies root.1) := by
  induction roots generalizing s slots with
  | nil =>
    obtain ⟨-, rfl⟩ := Prod.mk.inj (Except.ok.inj hr)
    exact reads_refl _
  | cons root roots ih =>
    rw [linkSlots] at hr
    obtain ⟨⟨slot, s₁⟩, hslot, hr⟩ := Fallible.bind_eq_ok.mp hr
    obtain ⟨⟨slots', s₂⟩, hslots, hr⟩ := Fallible.bind_eq_ok.mp hr
    obtain ⟨-, rfl⟩ := Prod.mk.inj (Except.ok.inj hr)
    obtain ⟨hreads, -⟩ := serializableToKindedSlotCtx_reads hbase hslot
    rw [List.flatMap_cons]
    exact hreads.trans (ih (hbase.trans hreads.length_le) hslots)

theorem restoreSlots_reads (hr : restoreSlots env roots h = .ok (slots, h')) :
    Reads env h.cells.length h.cells h'.cells (graphBodies roots) := by
  obtain ⟨s₁, hfirst, hr⟩ := Fallible.bind_eq_ok.mp hr
  obtain ⟨⟨slots', s₂⟩, hslots, hr⟩ := Fallible.bind_eq_ok.mp hr
  obtain ⟨-, rfl⟩ := Prod.mk.inj (Except.ok.inj hr)
  have hempty : Linked h.cells.length { heap := h, ctx := {} } ({} : KnownHandles).nodes
      ({} : KnownHandles).cells := linked_empty h
  obtain ⟨hreads, -⟩ := materializeCellBodiesList_reads (fun sv _ => cell_spec env sv) (Nat.le_refl _)
    hempty hfirst
  rw [RestoreState.cells_releaseBaseShares]
  exact hreads.trans (linkSlots_reads hreads.length_le hslots)

/-- What the cells of a restore agree with is what it has read. -/
theorem Reads.forgesNothing_iff (hreads : Reads env h.cells.length h.cells h'.cells bodies) :
    ForgesNothing h h' ↔ ∀ b ∈ bodies, b.Honest env := by
  obtain ⟨new, hnew, hadds⟩ := hreads
  rw [← hadds _ (Nat.le_refl _)]
  constructor
  · intro hforge o ho
    obtain ⟨i, hi⟩ := List.mem_iff_getElem?.mp ho
    refine hforge (h.cells.length + i) o (Nat.le_add_right _ _) ?_
    rw [hnew, List.getElem?_append_right (Nat.le_add_right _ _), Nat.add_sub_cancel_left, hi]
  · intro hagree a o hle ha
    rw [hnew, List.getElem?_append_right hle] at ha
    exact hagree o (List.mem_of_getElem? ha)

/-- **Restored objects agree with their masks exactly if the bodies are honest.** On both paths, over every
wire value and every heap: an accepted restore has built an object whose mask marks plain data or misses a
pointer if and only if it has read a body whose mask says so of its fields. -/
theorem forgesNothing_iff_honest (env : RestoreEnv) (h : Heap) :
    (∀ (sv : SerializableVMValue) (expected : NativeKind) (slot : KindedSlot) (h' : Heap),
      serializableToKindedSlot env sv expected h = .ok (slot, h') →
        (ForgesNothing h h' ↔ ∀ b ∈ treeBodies sv, b.Honest env)) ∧
    (∀ (roots : List (SerializableVMValue × NativeKind)) (slots : List KindedSlot) (h' : Heap),
      restoreSlots env roots h = .ok (slots, h') →
        (ForgesNothing h h' ↔ ∀ b ∈ graphBodies roots, b.Honest env)) := by
  constructor
  · intro sv expected slot h' hr
    exact ((restore_specs env sv).1 _ expected h h' slot (Nat.le_refl _) hr).1.forgesNothing_iff
  · intro roots slots h' hr
    exact (restoreSlots_reads hr).forgesNothing_iff

end

/-- A host without module functions, for the runs below. -/
def bareEnv : RestoreEnv := ⟨fun _ => none, 1, 2⟩

/-- A string under a set mask bit and an integer under a clear one. -/
def honestObject : SerializableVMValue := .typedObject 7 [.string "a", .int 3] 1

theorem honest_honestObject (env : RestoreEnv) : ObjectBody.Honest env ⟨[.string "a", .int 3], 1⟩ := by
  intro i sv hsv
  match i with
  | 0 =>
    obtain rfl := Option.some.inj hsv
    exact iff_of_true rfl rfl
  | 1 =>
    obtain rfl := Option.some.inj hsv
    exact iff_of_false (by decide) Bool.false_ne_true
  | i + 2 => cases hsv

theorem honest_object_forges_nothing :
    (∃ slot h', serializableToKindedSlot bareEnv honestObject (.ptr .typedObject) ⟨[], fun _ => 0⟩ =
      .ok (slot, h') ∧ ForgesNothing ⟨[], fun _ => 0⟩ h') ∧
    ∃ slots h', restoreSlots bareEnv [(.heapNode 0 honestObject, .ptr .typedObject)] ⟨[], fun _ => 0⟩ =
      .ok (slots, h') ∧ ForgesNothing ⟨[], fun _ => 0⟩ h' := by
  have hhonest : ∀ b ∈ [ObjectBody.mk [.string "a", .int 3] 1], b.Honest bareEnv := by
    intro b hb
    obtain rfl := List.mem_singleton.mp hb
    exact honest_honestObject bareEnv
  have htree : ∃ slot h', serializableToKindedSlot bareEnv honestObject (.ptr .typedObject)
      ⟨[], fun _ => 0⟩ = .ok (slot, h') := ⟨_, _, rfl⟩
  have hgraph : ∃ slots h', restoreSlots bareEnv [(.heapNode 0 honestObject, .ptr .typedObject)]
      ⟨[], fun _ => 0⟩ = .ok (slots, h') := ⟨_, _, rfl⟩
  obtain ⟨slot, h₁, htree⟩ := htree
  obtain ⟨slots, h₂, hgraph⟩ := hgraph
  have hiff := forgesNothing_iff_honest bareEnv ⟨[], fun _ => 0⟩
  exact ⟨⟨slot, h₁, htree, (hiff.1 _ _ _ _ htree).mpr hhonest⟩,
    ⟨slots, h₂, hgraph, (hiff.2 _ _ _ hgraph).mpr hhonest⟩⟩

/-- An integer under a set mask bit, as a peer may send it. -/
def forgedObject : SerializableVMValue := .typedObject 7 [.int 4096] 1

/-- **A forged pointer.** The restore accepts the object, on both paths, and leaves an object that hands out
the integer 4096 as its heap child. -/
theorem forged_object_accepted :
    (∃ slot h', serializableToKindedSlot bareEnv forgedObject (.ptr .typedObject) ⟨[], fun _ => 0⟩ =
      .ok (slot, h') ∧ ¬ForgesNothing ⟨[], fun _ => 0⟩ h') ∧
    ∃ slots h', restoreSlots bareEnv [(.heapNode 0 forgedObject, .ptr .typedObject)] ⟨[], fun _ => 0⟩ =
      .ok (slots, h') ∧ ¬ForgesNothing ⟨[], fun _ => 0⟩ h' := by
  have hforged : ∀ h' : Heap, h'.cells = [.typedObject
      { schemaId := 7, slots := [.word 4096], heapMask := 1, fieldKinds := [.int64] }] →
      ¬ForgesNothing ⟨[], fun _ => 0⟩ h' := by
    intro h' hcells hforge
    have hagree := hforge 0 _ (Nat.le_refl _) (by rw [hcells]; rfl)
    exact Bool.false_ne_true ((hagree 0 (.word 4096) .int64 rfl rfl).mp rfl).1
  exact ⟨⟨_, _, rfl, hforged _ rfl⟩, ⟨_, _, rfl, hforged _ (by decide +kernel)⟩⟩

end ShapeLang.Snapshot
