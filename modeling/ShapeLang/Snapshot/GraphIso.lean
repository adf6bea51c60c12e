import ShapeLang.Snapshot.GraphRestore

/-!
# ShapeLang — graphs of objects

Objects with scalar, string and node fields, arrays of objects and maps of objects. The kind of a scalar
field that comes back is the one its wire value has, which is not always its own: an `Int32` field comes
back as an `Int64` field. So does a `UInt64` field, bit by bit, and from 2^63 on it is another number. The
restored graph is isomorphic to the original one if and only if the roots reach no such field.
-/

namespace ShapeLang.Snapshot

open ShapeLang.Value

/-! ## Scalars and texts -/

/-- What the bits of a scalar slot stand for. -/
inductive ScalarValue where
  | int (n : Int)
  | number (bits : Word)
  | bool (b : Bool)
  | char (c : Char)
  | none
  deriving DecidableEq

/-- The value of a scalar slot. The nullable kinds have no wire form; they are left out. -/
def scalarValue (slot : KindedSlot) : Option ScalarValue :=
  match slot.kind, slot.bits with
  | .int64, .word w | .intSize, .word w => some (.int w.toInt)
  | .int32, .word w => some (.int (w.setWidth 32).toInt)
  | .int16, .word w => some (.int (w.setWidth 16).toInt)
  | .int8, .word w => some (.int (w.setWidth 8).toInt)
  | .uint64, .word w | .uintSize, .word w => some (.int w.toNat)
  | .uint32, .word w => some (.int (w.setWidth 32).toNat)
  | .uint16, .word w => some (.int (w.setWidth 16).toNat)
  | .uint8, .word w => some (.int (w.setWidth 8).toNat)
  | .float64, .word w => some (.number w)
  | .float32, .word w => some (.number (widenFloat (w.setWidth 32)))
  | .bool, bits => some (.bool (bits ≠ 0))
  | .null, _ => some .none
  | .char, .word w | .ptr .char, .word w => (charFromBits w).map .char
  | _, _ => Option.none

/-- An unsigned 64-bit number that does not fit a signed one. -/
def WideUnsigned (slot : KindedSlot) : Prop :=
  (slot.kind = .uint64 ∨ slot.kind = .uintSize) ∧ ∃ w, slot.bits = .word w ∧ w.msb = true

/-- The text of a string slot, in any of its carriers. -/
def slotText (h : Heap) (slot : KindedSlot) : Option String :=
  match slot.kind with
  | .string | .ptr .string => (h.content slot.bits).bind Alloc.text?
  | .stringV2 => (h.content slot.bits).bind Alloc.textObj?
  | _ => none

theorem charFromBits_val (c : Char) : charFromBits (c.val.toBitVec.setWidth 64) = some c := by
  have hlow : ((c.val.toBitVec.setWidth 64).setWidth 32).toNat = c.toNat := by
    rw [BitVec.setWidth_setWidth_of_le _ (by decide), BitVec.setWidth_eq]
    rfl
  have hvalid : c.toNat.isValidChar := c.valid
  rw [charFromBits, hlow]
  simp only [hvalid, if_true, Char.ofNat_toNat]

/-- A restored scalar: the value it had, if the wire has room for it, and no number from 2^63 on. -/
structure ScalarCarried (slot slot' : KindedSlot) : Prop where
  same : ¬WideUnsigned slot → scalarValue slot' = scalarValue slot
  signed : ∀ n, scalarValue slot' = some (.int n) → n < 2 ^ 63

/-- The slot is captured to a plain value, and that comes back, without a fresh cell, as a slot that the
value is carried to. -/
def CarriesValue (env : RestoreEnv) (moduleFnName : Word → Option String) (h : Heap) (slot : KindedSlot) :
    Prop :=
  ∃ sv : SerializableVMValue, sv.IsPlain ∧
    (∀ fuel c, slotToSerializableCtx moduleFnName h (fuel + 1) slot c = .ok (sv, c)) ∧
    ∃ slot', (∀ h₁, serializableToKindedSlot env sv (expectedHeapFieldKind sv) h₁ = .ok (slot', h₁)) ∧
      slot'.bits.addr? = none ∧ ScalarCarried slot slot'

section

variable (env : RestoreEnv) (moduleFnName : Word → Option String) (h : Heap)

/-- An integer comes back as an `Int64`, so its number has to be the one of its 64 wire bits. -/
theorem carriesValue_int {kind : NativeKind} {w i : Word}
    (hcapture : scalarToSerializable h (.word w) kind = .ok (.int i)) (hkind : ∀ hk, kind ≠ .ptr hk)
    (hvalue : ¬WideUnsigned ⟨.word w, kind⟩ → scalarValue ⟨.word w, kind⟩ = some (.int i.toInt)) :
    CarriesValue env moduleFnName h ⟨.word w, kind⟩ := by
  refine ⟨.int i, trivial, ?_, ⟨.word i, .int64⟩, fun _ => rfl, rfl, fun hfits => (hvalue hfits).symm, ?_⟩
  · intro fuel c
    rw [slotToSerializableCtx]
    split
    · rename_i hk heq
      exact absurd heq (hkind hk)
    · exact Fallible.bind_eq_ok.mpr ⟨_, hcapture, rfl⟩
  · intro n hn
    obtain rfl := ScalarValue.int.inj (Option.some.inj hn)
    exact i.toInt_lt

theorem carriesValue_char {kind : NativeKind} {w : Word} (hkind : kind = .char ∨ kind = .ptr .char)
    (hsome : (charFromBits w).isSome = true) : CarriesValue env moduleFnName h ⟨.word w, kind⟩ := by
  obtain ⟨c, hc⟩ := Option.isSome_iff_exists.mp hsome
  have hsv : charToSerializable w = .ok (.char c) := by rw [charToSerializable, hc]
  have hvalue : scalarValue ⟨.word w, kind⟩ = some (.char c) := by
    rcases hkind with rfl | rfl <;> simp [scalarValue, hc]
  have hback : scalarValue ⟨.word (c.val.toBitVec.setWidth 64), .ptr .char⟩ = some (.char c) := by
    simp [scalarValue, charFromBits_val]
  refine ⟨.char c, trivial, ?_, ⟨.word (c.val.toBitVec.setWidth 64), .ptr .char⟩, fun _ => rfl, rfl,
    fun _ => hback.trans hvalue.symm, fun n hn => ?_⟩
  · intro fuel ctx
    rcases hkind with rfl | rfl
    · exact Fallible.bind_eq_ok.mpr ⟨_, hsv, rfl⟩
    · exact Fallible.bind_eq_ok.mpr ⟨_, hsv, rfl⟩
  · rw [hback] at hn
    cases hn

theorem toInt_setWidth_of_lt {n : Nat} (x : BitVec n) (hn : n < 64) :
    (x.setWidth 64).toInt = x.toNat := by
  have hx := x.isLt
  have hle : 2 ^ n ≤ 2 ^ 63 := Nat.pow_le_pow_right (by decide) (by omega)
  have hsmall : (x.setWidth 64).toNat = x.toNat := by
    rw [BitVec.toNat_setWidth]
    exact Nat.mod_eq_of_lt (by omega)
  rw [BitVec.toInt_eq_toNat_of_lt (by omega), hsmall]

/-- A slot that comes back as it is read. -/
theorem carriesValue_same {slot : KindedSlot} (sv : SerializableVMValue) (slot' : KindedSlot)
    (hplain : sv.IsPlain)
    (hcapture : ∀ fuel c, slotToSerializableCtx moduleFnName h (fuel + 1) slot c = .ok (sv, c))
    (hrestore : ∀ h₁, serializableToKindedSlot env sv (expectedHeapFieldKind sv) h₁ = .ok (slot', h₁))
    (haddr : slot'.bits.addr? = none) (hvalue : scalarValue slot' = scalarValue slot)
    (hint : ∀ n, scalarValue slot' ≠ some (.int n)) : CarriesValue env moduleFnName h slot :=
  ⟨sv, hplain, hcapture, slot', hrestore, haddr, fun _ => hvalue, fun n hn => absurd hn (hint n)⟩

/-- **A scalar field** is carried by the wire. -/
theorem carriesValue_of_isSome {slot : KindedSlot} (hsome : (scalarValue slot).isSome = true) :
    CarriesValue env moduleFnName h slot := by
  obtain ⟨bits, kind⟩ := slot
  cases bits with
  | addr a =>
    cases kind
    case bool =>
      exact carriesValue_same env moduleFnName h (.bool true) ⟨.word 1, .bool⟩
        trivial (fun _ _ => rfl) (fun _ => rfl) rfl rfl nofun
    case null =>
      exact carriesValue_same env moduleFnName h .none .none
        trivial (fun _ _ => rfl) (fun _ => rfl) rfl rfl nofun
    case ptr kind => cases kind <;> cases hsome
    all_goals cases hsome
  | word w =>
    cases kind
    case int64 => exact carriesValue_int env moduleFnName h rfl nofun fun _ => rfl
    case intSize => exact carriesValue_int env moduleFnName h rfl nofun fun _ => rfl
    case int32 =>
      refine carriesValue_int env moduleFnName h rfl nofun fun _ => ?_
      rw [BitVec.toInt_signExtend_of_le (by decide)]
      rfl
    case int16 =>
      refine carriesValue_int env moduleFnName h rfl nofun fun _ => ?_
      rw [BitVec.toInt_signExtend_of_le (by decide)]
      rfl
    case int8 =>
      refine carriesValue_int env moduleFnName h rfl nofun fun _ => ?_
      rw [BitVec.toInt_signExtend_of_le (by decide)]
      rfl
    -- above `2^63` the number would turn negative: the hypothesis excludes it
    case uint64 =>
      refine carriesValue_int env moduleFnName h rfl nofun fun hfits => ?_
      rw [BitVec.toInt_eq_toNat_of_msb (Bool.eq_false_iff.mpr fun hw => hfits ⟨Or.inl rfl, w, rfl, hw⟩)]
      rfl
    case uintSize =>
      refine carriesValue_int env moduleFnName h rfl nofun fun hfits => ?_
      rw [BitVec.toInt_eq_toNat_of_msb (Bool.eq_false_iff.mpr fun hw => hfits ⟨Or.inr rfl, w, rfl, hw⟩)]
      rfl
    case uint32 =>
      refine carriesValue_int env moduleFnName h rfl nofun fun _ => ?_
      rw [toInt_setWidth_of_lt _ (by decide)]
      rfl
    case uint16 =>
      refine carriesValue_int env moduleFnName h rfl nofun fun _ => ?_
      rw [toInt_setWidth_of_lt _ (by decide)]
      rfl
    case uint8 =>
      refine carriesValue_int env moduleFnName h rfl nofun fun _ => ?_
      rw [toInt_setWidth_of_lt _ (by decide)]
      rfl
    case float64 =>
      exact carriesValue_same env moduleFnName h (.number w) ⟨.word w, .float64⟩
        trivial (fun _ _ => rfl) (fun _ => rfl) rfl rfl nofun
    -- widened on the wire, and read back as the wider number
    case float32 =>
      exact carriesValue_same env moduleFnName h (.number (widenFloat (w.setWidth 32)))
        ⟨.word (widenFloat (w.setWidth 32)), .float64⟩
        trivial (fun _ _ => rfl) (fun _ => rfl) rfl rfl nofun
    case bool =>
      by_cases hw : w = 0
      · subst hw
        exact carriesValue_same env moduleFnName h (.bool false) ⟨.word 0, .bool⟩
          trivial (fun _ _ => rfl) (fun _ => rfl) rfl rfl nofun
      · have hbits : (Bits.word w ≠ 0) = True := eq_true fun heq => hw (Bits.word.inj heq)
        refine carriesValue_same env moduleFnName h (.bool true) ⟨.word 1, .bool⟩
          trivial ?_ (fun _ => rfl) rfl ?_ nofun
        · intro fuel c
          simp only [slotToSerializableCtx, scalarToSerializable, hbits, decide_true]
          rfl
        · simp [scalarValue, hbits]
          decide
    case null =>
      exact carriesValue_same env moduleFnName h .none .none
        trivial (fun _ _ => rfl) (fun _ => rfl) rfl rfl nofun
    case char =>
      refine carriesValue_char env moduleFnName h (Or.inl rfl) ?_
      simpa [scalarValue] using hsome
    case ptr kind =>
      cases kind
      case char =>
        refine carriesValue_char env moduleFnName h (Or.inr rfl) ?_
        simpa [scalarValue] using hsome
      all_goals cases hsome
    all_goals cases hsome

theorem content_of_bind {bits : Bits} {f : Alloc → Option String} {t : String}
    (htext : (h.content bits).bind f = some t) : ∃ a, bits = .addr a := by
  cases bits with
  | addr a => exact ⟨a, rfl⟩
  | word w => cases htext

/-- **A string field** is captured to its text, and comes back as a fresh string. -/
theorem slotText_captured {slot : KindedSlot} {t : String} (htext : slotText h slot = some t) (fuel : Nat)
    (c : SerializeIdentityCtx) :
    slotToSerializableCtx moduleFnName h (fuel + 1) slot c = .ok (.string t, c) := by
  obtain ⟨bits, kind⟩ := slot
  have hscalar : ∀ text : Alloc → Option String, (h.content bits).bind text = some t →
      textToSerializable h text bits = .ok (.string t) := by
    intro text htext
    rw [textToSerializable, htext]
  have hne : ∀ text : Alloc → Option String, (h.content bits).bind text = some t → bits ≠ 0 := by
    rintro text htext rfl
    cases htext
  cases kind
  case string =>
    refine Fallible.bind_eq_ok.mpr ⟨.string t, ?_, rfl⟩
    rw [scalarToSerializable, if_neg (hne _ htext)]
    exact hscalar _ htext
  case stringV2 =>
    refine Fallible.bind_eq_ok.mpr ⟨.string t, ?_, rfl⟩
    rw [scalarToSerializable, if_neg (hne _ htext)]
    exact hscalar _ htext
  case ptr kind =>
    cases kind
    case string =>
      have hcontent : (h.content bits).bind Alloc.text? = some t := htext
      obtain ⟨a, rfl⟩ := content_of_bind h hcontent
      obtain ⟨cell, hcell, hcelltext⟩ := Option.bind_eq_some_iff.mp hcontent
      have hcell' : h.cells[a]? = some cell := hcell
      show cellToSerializable h _ .string a c = _
      unfold cellToSerializable
      rw [hcell']
      cases cell
      case string s => rw [Option.some.inj hcelltext]
      all_goals cases hcelltext
    all_goals cases htext
  all_goals cases htext

/-- The leaves of these graphs: scalars and texts. -/
def fieldCodec : LeafCodec env moduleFnName h where
  Leaf slot := (scalarValue slot).isSome = true ∨ ∃ t, slotText h slot = some t
  Same slot off new slot' :=
    ((scalarValue slot).isSome = true ∧ ScalarCarried slot slot') ∨
      ∃ t, slotText h slot = some t ∧ slot' = ⟨.addr off, .string⟩ ∧ new = [.string t]
  Fresh cell := ∃ t, cell = .string t
  spec := by
    rintro slot (hscalar | ⟨t, htext⟩)
    · obtain ⟨sv, hplain, hcapture, slot', hrestore, haddr, hvalue⟩ :=
        carriesValue_of_isSome env moduleFnName h hscalar
      refine ⟨sv, hplain, hcapture, fun h₁ => ⟨slot', [], h₁, hrestore h₁, ?_, ?_, ?_, ?_⟩⟩
      · rw [List.append_nil]
      · intro r
        simp [heldBy, haddr]
      · exact Or.inl ⟨hscalar, hvalue⟩
      · exact fun cell hcell => absurd hcell List.not_mem_nil
    · refine ⟨.string t, trivial, slotText_captured moduleFnName h htext, fun h₁ => ?_⟩
      refine ⟨⟨.addr h₁.cells.length, .string⟩, [.string t], _, rfl, rfl, ?_, Or.inr
        ⟨t, htext, rfl, rfl⟩, ?_⟩
      · intro r
        exact shares_allocSlot h₁ (.string t) .string r
      · intro cell hcell
        exact ⟨t, List.mem_singleton.mp hcell⟩

end

/-! ## The graphs of the claim -/

/-- All nodes of a heap. -/
def nodeSet (h : Heap) : Set Nat :=
  {a | ∃ cell kind parts, h.cells[a]? = some cell ∧ cell.node = some (kind, parts)}

/-- The nodes that the roots reach in the heap. -/
def Reachable (h : Heap) (roots : List KindedSlot) : Nat → Prop := Reached h (nodeSet h) roots

/-- **A graph of objects**, arrays and maps, as the roots see it: whatever they reach is whole, and no map
lies on a cycle. -/
structure ObjectGraph (h : Heap) (roots : List KindedSlot) : Prop where
  /-- Addresses are 64-bit numbers. -/
  addressable : h.cells.length < 2 ^ 64
  root : ∀ slot ∈ roots, NodeSlot h (nodeSet h) slot
  object : ∀ a o, Reachable h roots a → h.cells[a]? = some (.typedObject o) →
    o.slots.length = o.fieldKinds.length ∧
    ∀ slot ∈ fieldSlots o,
      (scalarValue slot).isSome = true ∨ (∃ t, slotText h slot = some t) ∨
        NodeSlot h (nodeSet h) slot
  array : ∀ a elems, Reachable h roots a → h.cells[a]? = some (.array (.typedObject elems)) →
    ∀ e ∈ elems, NodeSlot h (nodeSet h) (objectSlot e)
  map : ∀ a entries, Reachable h roots a → h.cells[a]? = some (.map (.typedObject entries)) →
    (entries.map (·.1)).Nodup ∧ (∀ e ∈ entries, NodeSlot h (nodeSet h) (objectSlot e.2)) ∧
      ¬Relation.TransGen (Edge h) a a

/-- The numbers that the roots reach fit the signed ones of the wire. -/
def NumbersFit (h : Heap) (roots : List KindedSlot) : Prop :=
  ∀ a o, Reachable h roots a → h.cells[a]? = some (.typedObject o) →
    ∀ slot ∈ fieldSlots o, ¬WideUnsigned slot

/-- A field and its image: equal scalars, equal texts, or the image of a node. -/
def FieldIso (h : Heap) (roots : List KindedSlot) (h' : Heap) (φ : Nat → Nat) (slot slot' : KindedSlot) :
    Prop :=
  (∃ v, scalarValue slot = some v ∧ scalarValue slot' = some v) ∨
    (∃ t, slotText h slot = some t ∧ slotText h' slot' = some t) ∨
    ∃ a kind, Reachable h roots a ∧ slot = ⟨.addr a, .ptr kind⟩ ∧ slot' = ⟨.addr (φ a), .ptr kind⟩

/-- **The restored graph is the original one**, moved by `φ`: node by node, with one allocation for each
node, and with as many shares on each node as there are edges to it and roots that hold it. -/
structure GraphIso (h : Heap) (roots : List KindedSlot) (h₀ : Heap) (slots : List KindedSlot) (h' : Heap)
    (φ : Nat → Nat) : Prop where
  kept : h₀.cells <+: h'.cells
  inj : ∀ a b, Reachable h roots a → Reachable h roots b → φ a = φ b → a = b
  fresh : ∀ a, Reachable h roots a → h₀.cells.length ≤ φ a
  root : List.Forall₂ (fun root slot => ∃ a, Reachable h roots a ∧ root.bits = .addr a ∧
    slot = ⟨.addr (φ a), root.kind⟩) roots slots
  object : ∀ a o, Reachable h roots a → h.cells[a]? = some (.typedObject o) →
    ∃ o', h'.cells[φ a]? = some (.typedObject o') ∧ o'.schemaId = o.schemaId ∧
      o'.heapMask = o.heapMask ∧ List.Forall₂ (FieldIso h roots h' φ) (fieldSlots o) (fieldSlots o')
  array : ∀ a elems, Reachable h roots a → h.cells[a]? = some (.array (.typedObject elems)) →
    h'.cells[φ a]? = some (.array (.typedObject (elems.map φ)))
  map : ∀ a entries, Reachable h roots a → h.cells[a]? = some (.map (.typedObject entries)) →
    h'.cells[φ a]? = some (.map (.typedObject (entries.map fun e => (e.1, φ e.2))))
  one_each : ∀ r ∈ nodeSet h', h₀.cells.length ≤ r → ∃ a, Reachable h roots a ∧ φ a = r
  refcount : ∀ a, Reachable h roots a → h'.refcount (φ a) =
    edgeCount (h'.cells.drop h₀.cells.length) (φ a) + (heldBy slots).count (φ a)

/-- The roots are captured through one context and restored into `h₀`, to an isomorphic graph. -/
def RestoresGraph (env : RestoreEnv) (moduleFnName : Word → Option String) (h : Heap)
    (roots : List KindedSlot) (h₀ : Heap) : Prop :=
  ∃ svs slots h' φ, serializeSlots moduleFnName h roots = .ok svs ∧
    restoreSlots env (svs.zip (roots.map (·.kind))) h₀ = .ok (slots, h') ∧
    GraphIso h roots h₀ slots h' φ

theorem fieldSlots_rebuilt (schemaId heapMask : Word) (slots : List KindedSlot) :
    fieldSlots { schemaId, slots := slots.map (·.bits), heapMask, fieldKinds := slots.map (·.kind) } =
      slots := by
  show ((slots.map (·.bits)).zip (slots.map (·.kind))).map _ = slots
  rw [List.zip_map', List.map_map]
  exact List.map_id slots

section

variable {env : RestoreEnv} {moduleFnName : Word → Option String} {h : Heap} {roots : List KindedSlot}

/-- What the roots reach is a graph over the two kinds of leaves. -/
theorem ObjectGraph.graph (hg : ObjectGraph h roots) :
    Graph (fieldCodec env moduleFnName h) {a | Reachable h roots a} := by
  refine ⟨hg.addressable, ?_, fun a ha o hcell => (hg.object a o ha hcell).1, ?_, ?_⟩
  · intro a ha
    obtain ⟨cell, kind, parts, hcell, hnode⟩ := ha.mem
    have hpart : ∀ slot ∈ parts, NodeSlot h (nodeSet h) slot →
        NodeSlot h {a | Reachable h roots a} slot := by
      intro slot hslot hslotNode
      exact hslotNode.restrict fun b hb => .part ha hcell hnode hslot hslotNode hb
    refine ⟨cell, kind, parts, hcell, hnode, ?_⟩
    -- object fields may be leaves; elements and values are nodes
    intro slot hslot
    cases cell
    case typedObject o =>
      obtain ⟨-, rfl⟩ := Prod.mk.inj (Option.some.inj hnode)
      rcases (hg.object a o ha hcell).2 slot hslot with hscalar | htext | hslotNode
      · exact Or.inr (Or.inl hscalar)
      · exact Or.inr (Or.inr htext)
      · exact Or.inl (hpart slot hslot hslotNode)
    case array data =>
      cases data
      case typedObject elems =>
        obtain ⟨-, rfl⟩ := Prod.mk.inj (Option.some.inj hnode)
        obtain ⟨e, he, rfl⟩ := List.mem_map.mp hslot
        exact Or.inl (hpart _ hslot (hg.array a elems ha hcell e he))
      all_goals cases hnode
    case map data =>
      cases data
      case typedObject entries =>
        obtain ⟨-, rfl⟩ := Prod.mk.inj (Option.some.inj hnode)
        obtain ⟨e, he, rfl⟩ := List.mem_map.mp hslot
        exact Or.inl (hpart _ hslot ((hg.map a entries ha hcell).2.1 e he))
      all_goals cases hnode
    all_goals cases hnode
  · intro a ha elems hcell e he
    have hnode := hg.array a elems ha hcell e he
    exact hnode.restrict fun b hb => .part ha hcell rfl (List.mem_map_of_mem he) hnode hb
  · intro a ha entries hcell
    obtain ⟨hkeys, hvalues, hacyclic⟩ := hg.map a entries ha hcell
    refine ⟨hkeys, fun e he => ?_, hacyclic⟩
    exact (hvalues e he).restrict fun b hb =>
      .part ha hcell rfl (List.mem_map.mpr ⟨e, he, rfl⟩) (hvalues e he) hb

variable {N : Set Nat} {codec : LeafCodec env moduleFnName h} {φ : Nat → Nat} {lo : Nat}
  {cells : List Alloc}

theorem heldBy_objectSlots {elems : List Nat} {slots : List KindedSlot}
    (hmatch : List.Forall₂ (PartMatch codec N (fun a => some (φ a)) lo cells) (elems.map objectSlot) slots)
    (hnode : ∀ e ∈ elems, NodeSlot h N (objectSlot e)) : heldBy slots = elems.map φ := by
  induction elems generalizing slots with
  | nil =>
    cases hmatch
    rfl
  | cons e elems ih =>
    cases hmatch with
    | @cons _ slot _ slots hpart hrest =>
      have hheld := ih hrest fun e' he' => hnode e' (List.mem_cons_of_mem _ he')
      rcases hpart with ⟨-, a, r, hbits, hr, rfl⟩ | ⟨hnot, -⟩
      · obtain rfl := Bits.addr.inj hbits
        obtain rfl := Option.some.inj hr
        rw [List.map_cons, ← hheld]
        rfl
      · exact absurd (hnode e List.mem_cons_self) hnot

/-- The image of a field. -/
theorem fieldIso_of_partMatch {h' : Heap} {slot slot' : KindedSlot} (hfits : ¬WideUnsigned slot)
    (hpart : PartMatch (fieldCodec env moduleFnName h) {a | Reachable h roots a} (fun a => some (φ a)) lo
      h'.cells slot slot') :
    FieldIso h roots h' φ slot slot' := by
  rcases hpart with ⟨hnode, a, r, hbits, hr, rfl⟩ | ⟨-, -, off, new, -, hseg, hsame⟩
  · obtain ⟨a', ha', _, kind, _, -, -, rfl⟩ := hnode
    obtain rfl := Bits.addr.inj hbits
    obtain rfl := Option.some.inj hr
    exact Or.inr (Or.inr ⟨a', kind, ha', rfl, rfl⟩)
  · rcases hsame with ⟨hsome, hcarried⟩ | ⟨t, htext, rfl, rfl⟩
    · obtain ⟨v, hv⟩ := Option.isSome_iff_exists.mp hsome
      exact Or.inl ⟨v, hv, (hcarried.same hfits).trans hv⟩
    · refine Or.inr (Or.inl ⟨t, htext, ?_⟩)
      have hcell : h'.cells[off + 0]? = some (.string t) := hseg 0 _ rfl
      rw [Nat.add_zero] at hcell
      simp [slotText, Heap.content, hcell, Alloc.text?]

/-- A restored field is no number from 2^63 on. -/
theorem lt_of_partMatch {slot slot' : KindedSlot} {n : Int}
    (hpart : PartMatch (fieldCodec env moduleFnName h) N (fun a => some (φ a)) lo cells slot slot')
    (hvalue : scalarValue slot' = some (.int n)) : n < 2 ^ 63 := by
  rcases hpart with ⟨⟨_, -, _, kind, _, -, -, rfl⟩, a, r, -, -, rfl⟩ | ⟨-, -, off, new, -, -, hsame⟩
  · cases kind <;> cases hvalue
  · rcases hsame with ⟨-, hcarried⟩ | ⟨t, -, rfl, -⟩
    · exact hcarried.signed n hvalue
    · cases hvalue

theorem ObjectGraph.restores (hg : ObjectGraph h roots) (env : RestoreEnv)
    (moduleFnName : Word → Option String) (h₀ : Heap) :
    ∃ svs slots h' new φ, serializeSlots moduleFnName h roots = .ok svs ∧
      restoreSlots env (svs.zip (roots.map (·.kind))) h₀ = .ok (slots, h') ∧
      Restored (fieldCodec env moduleFnName h) {a | Reachable h roots a} roots h₀ slots h' new φ := by
  have hroots : ∀ slot ∈ roots, NodeSlot h {a | Reachable h roots a} slot := by
    intro slot hslot
    exact (hg.root slot hslot).restrict fun b hb => .root hslot (hg.root slot hslot) hb
  exact hg.graph.restores hroots (fun a ha => ha.restrict) h₀

/-- **Capture and both passes restore the graph** whose numbers fit. -/
theorem ObjectGraph.restoresGraph (hg : ObjectGraph h roots) (hfits : NumbersFit h roots)
    (env : RestoreEnv) (moduleFnName : Word → Option String) (h₀ : Heap) :
    RestoresGraph env moduleFnName h roots h₀ := by
  have hgraph : Graph (fieldCodec env moduleFnName h) {a | Reachable h roots a} := hg.graph
  obtain ⟨svs, slots, h', new, φ, hcapture, hrestore, hres⟩ := hg.restores env moduleFnName h₀
  refine ⟨svs, slots, h', φ, hcapture, hrestore, ?_, fun a b ha hb => hres.inj a ha b hb,
    fun a ha => (hres.range a ha).1, hres.root, ?_, ?_, ?_, ?_, ?_⟩
  -- the restored heap extends the old one
  · exact ⟨new, hres.cells.symm⟩
  -- objects: field by field
  · intro a o ha hcell
    obtain ⟨cell, kind, parts, slots', hcell', hnode, hrestored, hmatch⟩ := hres.node a ha
    obtain rfl := Option.some.inj (hcell.symm.trans hcell')
    obtain ⟨-, rfl⟩ := Prod.mk.inj (Option.some.inj hnode)
    refine ⟨_, hrestored, rfl, rfl, ?_⟩
    rw [fieldSlots_rebuilt]
    refine ((List.forall₂_and_left _ _).mpr ⟨fun slot hslot => hslot, hmatch⟩).imp ?_
    rintro slot slot' ⟨hslot, hpart⟩
    exact fieldIso_of_partMatch (hfits a o ha hcell slot hslot) hpart
  -- arrays of objects
  · intro a elems ha hcell
    obtain ⟨cell, kind, parts, slots', hcell', hnode, hrestored, hmatch⟩ := hres.node a ha
    obtain rfl := Option.some.inj (hcell.symm.trans hcell')
    obtain ⟨-, rfl⟩ := Prod.mk.inj (Option.some.inj hnode)
    rw [← heldBy_objectSlots hmatch (hgraph.array a ha elems hcell)]
    exact hrestored
  -- maps: the keys are those of before
  · intro a entries ha hcell
    obtain ⟨cell, kind, parts, slots', hcell', hnode, hrestored, hmatch⟩ := hres.node a ha
    obtain rfl := Option.some.inj (hcell.symm.trans hcell')
    obtain ⟨-, rfl⟩ := Prod.mk.inj (Option.some.inj hnode)
    have hparts : (entries.map fun e => objectSlot e.2) = (entries.map (·.2)).map objectSlot := by
      rw [List.map_map]
      rfl
    rw [hparts] at hmatch
    have hheld : heldBy slots' = (entries.map (·.2)).map φ := by
      refine heldBy_objectSlots hmatch ?_
      intro e he
      obtain ⟨entry, hentry, rfl⟩ := List.mem_map.mp he
      exact (hgraph.map a ha entries hcell).2.1 entry hentry
    rw [hrestored, Alloc.rebuild, hheld, List.map_map, List.zip_map']
    rfl
  -- every new node is the image of one
  · rintro r ⟨cell, kind, parts, hcell, hnode⟩ hlo
    rw [hres.cells, List.getElem?_append_right hlo] at hcell
    rcases hres.fresh _ cell hcell with ⟨t, rfl⟩ | ⟨a, ha, hr⟩
    · cases hnode
    · exact ⟨a, ha, by omega⟩
  -- the counts are the edges and the roots
  · intro a ha
    obtain ⟨hlo, hhi⟩ := hres.range a ha
    rw [hres.refcount (φ a) hlo hhi, hres.cells, List.drop_left]

/-- **A number that does not fit is not restored**, whatever the isomorphism. -/
theorem ObjectGraph.numbersFit (hg : ObjectGraph h roots) {h₀ : Heap}
    (hiso : RestoresGraph env moduleFnName h roots h₀) : NumbersFit h roots := by
  rintro a o ha hcell slot hslot ⟨hkind, w, hbits, hwide⟩
  obtain ⟨svs, slots, h', φ', hcapture, hrestore, hiso⟩ := hiso
  obtain ⟨svs₁, slots₁, h₁, new, φ, hcapture₁, hrestore₁, hres⟩ := hg.restores env moduleFnName h₀
  obtain rfl := Except.ok.inj (hcapture.symm.trans hcapture₁)
  obtain ⟨rfl, rfl⟩ := Prod.mk.inj (Except.ok.inj (hrestore.symm.trans hrestore₁))
  -- the image of the field under the isomorphism has the number
  obtain ⟨o', hcell', -, -, hfields⟩ := hiso.object a o ha hcell
  obtain ⟨i, hi⟩ := List.mem_iff_getElem?.mp hslot
  obtain ⟨slot', hi', hfield⟩ := Fallible.forall₂_getElem?_left hfields hi
  have hvalue : scalarValue slot = some (.int w.toNat) := by
    obtain ⟨bits, kind⟩ := slot
    obtain rfl : bits = .word w := hbits
    rcases hkind with hkind | hkind
    · obtain rfl : kind = .uint64 := hkind
      rfl
    · obtain rfl : kind = .uintSize := hkind
      rfl
  have himage : scalarValue slot' = some (.int w.toNat) := by
    rcases hfield with ⟨v, hv, hv'⟩ | ⟨t, ht, -⟩ | ⟨b, kind, -, rfl, -⟩
    · rw [hv', ← hv, hvalue]
    · rcases hkind with hkind | hkind
      · simp [slotText, hkind] at ht
      · simp [slotText, hkind] at ht
    · cases hbits
  -- but every restored object is the image of a node, and its fields come from the wire
  have hlow := hiso.fresh a ha
  have hrestored := hcell'
  rw [hres.cells, List.getElem?_append_right hlow] at hrestored
  rcases hres.fresh _ _ hrestored with ⟨t, ht⟩ | ⟨b, hb, hat⟩
  · cases ht
  · obtain ⟨cell, kind, parts, slots', -, -, hback, hmatch⟩ := hres.node b hb
    rw [hat, Nat.add_sub_cancel' hlow, hcell'] at hback
    have hslots : fieldSlots o' = slots' := by
      cases cell
      case typedObject ob =>
        obtain rfl := Alloc.typedObject.inj (Option.some.inj hback)
        exact fieldSlots_rebuilt ob.schemaId ob.heapMask slots'
      case map data => cases data <;> cases hback
      all_goals cases hback
    rw [hslots] at hi'
    obtain ⟨part, -, hpart⟩ := Fallible.forall₂_getElem?_right hmatch hi'
    have hlt := lt_of_partMatch hpart himage
    rw [BitVec.msb_eq_decide, decide_eq_true_eq] at hwide
    omega

/-- **A snapshot restores the graph it was taken from**, exactly when the numbers fit: over every graph of
objects, arrays and maps with scalar, text and node fields, every list of roots and every heap to restore
into, the capture of the roots through one context and the two passes over it leave an isomorphic graph if
and only if the roots reach no unsigned number from 2^63 on. -/
theorem snapshot_restores_graph_iff (env : RestoreEnv) (moduleFnName : Word → Option String) (h : Heap)
    (roots : List KindedSlot) (hg : ObjectGraph h roots) (h₀ : Heap) :
    RestoresGraph env moduleFnName h roots h₀ ↔ NumbersFit h roots :=
  ⟨hg.numbersFit, fun hfits => hg.restoresGraph hfits env moduleFnName h₀⟩

end

/-- An object with a scalar and a field that points back at it. -/
def selfCycle (scalar : KindedSlot) : Heap :=
  { cells := [.typedObject
      { schemaId := 1, slots := [scalar.bits, .addr 0], heapMask := 2
        fieldKinds := [scalar.kind, .ptr .typedObject] }]
    refcount := fun _ => 3 }

section

variable {scalar : KindedSlot} {a : Nat}

theorem eq_zero_of_selfCycle {cell : Alloc} (hcell : (selfCycle scalar).cells[a]? = some cell) :
    a = 0 := by
  have hlt : a < 1 := (List.getElem?_eq_some_iff.mp hcell).1
  omega

theorem fieldSlots_selfCycle {o : TypedObjectStorage Bits} {slot : KindedSlot}
    (hcell : (selfCycle scalar).cells[a]? = some (.typedObject o)) (hslot : slot ∈ fieldSlots o) :
    slot = scalar ∨ slot = objectSlot 0 := by
  obtain rfl := eq_zero_of_selfCycle hcell
  obtain rfl := Alloc.typedObject.inj (Option.some.inj hcell)
  simpa [fieldSlots, objectSlot] using hslot

theorem objectGraph_selfCycle (hscalar : (scalarValue scalar).isSome = true) :
    ObjectGraph (selfCycle scalar) [objectSlot 0, objectSlot 0] := by
  have hnode : NodeSlot (selfCycle scalar) (nodeSet (selfCycle scalar)) (objectSlot 0) :=
    ⟨0, ⟨_, _, _, rfl, rfl⟩, _, _, _, rfl, rfl, rfl⟩
  refine ⟨Nat.one_lt_two_pow (by decide), ?_, ?_, ?_, ?_⟩
  · intro slot hslot
    obtain rfl : slot = objectSlot 0 := by simpa using hslot
    exact hnode
  · intro a o _ hcell
    refine ⟨?_, fun slot hslot => ?_⟩
    · obtain rfl := eq_zero_of_selfCycle hcell
      obtain rfl := Alloc.typedObject.inj (Option.some.inj hcell)
      rfl
    · rcases fieldSlots_selfCycle hcell hslot with rfl | rfl
      · exact Or.inl hscalar
      · exact Or.inr (Or.inr hnode)
  · intro a elems _ hcell
    obtain rfl := eq_zero_of_selfCycle hcell
    cases hcell
  · intro a entries _ hcell
    obtain rfl := eq_zero_of_selfCycle hcell
    cases hcell

end

theorem selfCycle_restored :
    RestoresGraph ⟨fun _ => none, 1, 2⟩ (fun _ => none) (selfCycle ⟨.word 5, .uint64⟩)
      [objectSlot 0, objectSlot 0] ⟨[], fun _ => 0⟩ := by
  refine (snapshot_restores_graph_iff ⟨fun _ => none, 1, 2⟩ (fun _ => none) _ _
    (objectGraph_selfCycle rfl) ⟨[], fun _ => 0⟩).mpr ?_
  rintro a o - hcell slot hslot ⟨hkind, w, hbits, hwide⟩
  rcases fieldSlots_selfCycle hcell hslot with rfl | rfl
  · obtain rfl := Bits.word.inj hbits
    exact absurd hwide (by decide)
  · cases hbits

/-- **2^63 comes back as -2^63.** The object has one unsigned field. -/
theorem wide_field_not_restored :
    ¬∀ (env : RestoreEnv) (moduleFnName : Word → Option String) (h : Heap) (roots : List KindedSlot),
      ObjectGraph h roots → ∀ h₀, RestoresGraph env moduleFnName h roots h₀ := by
  intro hclaim
  have hgraph : ObjectGraph (selfCycle ⟨.word (BitVec.ofNat 64 (2 ^ 63)), .uint64⟩) _ :=
    objectGraph_selfCycle rfl
  have hfits := hgraph.numbersFit (hclaim ⟨fun _ => none, 1, 2⟩ (fun _ => none) _ _ hgraph ⟨[], fun _ => 0⟩)
  have hroot : Reachable _ [objectSlot 0, objectSlot 0] 0 :=
    .root List.mem_cons_self (hgraph.root _ List.mem_cons_self) rfl
  exact hfits 0 _ hroot rfl ⟨.word (BitVec.ofNat 64 (2 ^ 63)), .uint64⟩ List.mem_cons_self
    ⟨Or.inl rfl, _, rfl, by decide⟩

end ShapeLang.Snapshot
