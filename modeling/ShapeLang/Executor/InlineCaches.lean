import ShapeLang.Schemas.Registry

/-!
# ShapeLang — inline caches of field accesses

An instruction that reads or writes a field names it by a type and an index into its schema
(`crates/shape-vm/src/executor/typed_object_ops.rs`). When the receiver has another schema, the
field is looked up by its name, and two caches stand before that lookup (`ic_fast_paths.rs`):

  * the property cache of the site, in the feedback vector of the running function (`feedback.rs`),
    which is asked as long as the site has seen one schema only;
  * the megamorphic cache (`megamorphic_cache.rs`), one table for all sites, which is asked once a
    site has seen more than four. Its entries are found by a 64-bit hash of schema id and field name
    and by nothing else.

`op_get_field_typed` and `write_typed_object_field` go through the same steps until they have the
slot, which is what `locateField` returns. The instructions are those of a program that does not
change, so the pointer to an instruction determines the field it names.
-/

namespace ShapeLang.Executor

open Lib Schemas

/-! ## Looking a field up by its name -/

def fieldTypeToTag : FieldType → UInt16
  | .f64 => 0
  | .i64 => 1
  | .bool => 2
  | .string => 3
  | .timestamp => 4
  | .array _ => 5
  | .object _ => 6
  | .decimal => 7
  | .any => 8
  | .option _ => 9
  | .i8 | .u8 | .i16 | .u16 | .i32 | .u32 | .u64 => 1
  | .hashMap _ _ => 10
  | .set _ => 11

/-- The position of the last field of that name, which is the one that the map from names has kept. -/
def lastIndex (name : String) : List FieldDef → Option Nat
  | [] => none
  | field :: rest =>
    match lastIndex name rest with
    | some i => some (i + 1)
    | none => if field.name = name then some 0 else none

/-- `TypeSchema::field_index`. -/
def fieldIndex (schema : TypeSchema) (name : String) : Option UInt16 :=
  (lastIndex name schema.fields).map UInt16.ofNat

/-- `TypeSchema::field_by_index`. -/
def fieldByIndex (schema : TypeSchema) (index : UInt16) : Option FieldDef := schema.fields[index.toNat]?

structure PropertyIcHit where
  fieldIdx : UInt16
  fieldTypeTag : UInt16
  deriving DecidableEq

structure TypedField where
  typeId : UInt16
  fieldIdx : UInt16
  fieldTypeTag : UInt16
  deriving DecidableEq

/-- A program, as far as its field accesses go. -/
structure Program (C : Type) where
  registry : TypeSchemaRegistry C
  /-- The operand of the instruction there, if it accesses a field. -/
  operand : Nat → Option TypedField

namespace Program

variable {C : Type}

def fieldName (P : Program C) (operand : TypedField) : Option String :=
  (P.registry.getById operand.typeId.toUInt32).bind fun target =>
    (fieldByIndex target operand.fieldIdx).map FieldDef.name

def nameLookup (P : Program C) (schemaId : UInt64) (name : String) : Option PropertyIcHit :=
  (P.registry.getById schemaId.toUInt32).bind fun source =>
    (fieldIndex source name).map fun index =>
      ⟨index, ((fieldByIndex source index).map fun field => fieldTypeToTag field.fieldType).getD 0⟩

/-- The name and the field of the receiver's schema, when both schemas are known and have it. -/
def resolve (P : Program C) (operand : TypedField) (schemaId : UInt64) : Option (String × PropertyIcHit) :=
  (P.fieldName operand).bind fun name => (P.nameLookup schemaId name).map fun hit => (name, hit)

end Program

/-! ## The megamorphic cache -/

structure MegamorphicEntry where
  key : UInt64
  fieldIdx : UInt16
  fieldTypeTag : UInt16
  valid : Bool
  deriving DecidableEq

structure MegamorphicCache where
  entries : Fin 1024 → MegamorphicEntry

namespace MegamorphicCache

def new : MegamorphicCache := ⟨fun _ => ⟨0, 0, 0, false⟩⟩

def hashKey (schemaId : UInt64) (fieldName : String) : UInt64 :=
  fieldName.toUTF8.data.toList.foldl (fun hash byte => (hash ^^^ byte.toUInt64) * 0x100000001b3)
    (0xcbf29ce484222325 ^^^ schemaId)

def slot (key : UInt64) : Fin 1024 := Fin.ofNat 1024 key.toNat

def probe (cache : MegamorphicCache) (key : UInt64) : Option PropertyIcHit :=
  let entry := cache.entries (slot key)
  if entry.valid ∧ entry.key = key then some ⟨entry.fieldIdx, entry.fieldTypeTag⟩ else none

def insert (cache : MegamorphicCache) (key : UInt64) (fieldIdx fieldTypeTag : UInt16) : MegamorphicCache :=
  ⟨Function.update cache.entries (slot key) ⟨key, fieldIdx, fieldTypeTag, true⟩⟩

end MegamorphicCache

/-! ## Feedback -/

inductive ICState where
  | uninitialized | monomorphic | polymorphic | megamorphic
  deriving DecidableEq

structure PropertyCacheEntry where
  schemaId : UInt64
  fieldIdx : UInt16
  fieldTypeTag : UInt16
  hitCount : Nat
  receiverKind : UInt8
  deriving DecidableEq

structure PropertyFeedback where
  state : ICState
  entries : List PropertyCacheEntry
  deriving DecidableEq

inductive FeedbackSlot where
  | uninitialized
  | property (fb : PropertyFeedback)
  /-- What a call, an arithmetic or a method instruction records. -/
  | other
  deriving DecidableEq

structure FeedbackVector where
  slots : HashMap Nat FeedbackSlot

def maxPolymorphicEntries : Nat := 4

def nextState : ICState → Nat → ICState
  | .uninitialized, _ => .monomorphic
  | .monomorphic, entryCount => if entryCount ≤ 1 then .monomorphic else .polymorphic
  | .polymorphic, entryCount => if maxPolymorphicEntries < entryCount then .megamorphic else .polymorphic
  | .megamorphic, _ => .megamorphic

/-- One more hit of the first entry for the schema, if there is one. -/
def bumpHitCount (schemaId : UInt64) (receiverKind : UInt8) :
    List PropertyCacheEntry → Option (List PropertyCacheEntry)
  | [] => none
  | entry :: rest =>
    if entry.schemaId = schemaId ∧ entry.receiverKind = receiverKind then
      some ({ entry with hitCount := entry.hitCount + 1 } :: rest)
    else (bumpHitCount schemaId receiverKind rest).map (entry :: ·)

def PropertyFeedback.record (fb : PropertyFeedback) (entry : PropertyCacheEntry) : PropertyFeedback :=
  match bumpHitCount entry.schemaId entry.receiverKind fb.entries with
  | some entries => { fb with entries }
  | none =>
    if fb.state = .megamorphic then fb
    else ⟨nextState fb.state (fb.entries.length + 1), fb.entries ++ [entry]⟩

def FeedbackSlot.recordProperty (entry : PropertyCacheEntry) : FeedbackSlot → FeedbackSlot
  | .uninitialized => .property ⟨.monomorphic, [entry]⟩
  | .property fb => .property (fb.record entry)
  | .other => .other

namespace FeedbackVector

def new : FeedbackVector := ⟨∅⟩

def slotAt (fv : FeedbackVector) (offset : Nat) : FeedbackSlot :=
  (fv.slots.lookup offset).getD .uninitialized

def recordProperty (fv : FeedbackVector) (offset : Nat) (entry : PropertyCacheEntry) : FeedbackVector :=
  ⟨fv.slots.insert offset ((fv.slotAt offset).recordProperty entry)⟩

/-- The slot of an instruction of another kind. -/
def recordOther (fv : FeedbackVector) (offset : Nat) : FeedbackVector := ⟨fv.slots.insert offset .other⟩

end FeedbackVector

/-! ## Field accesses -/

structure VirtualMachine where
  feedbackVectors : List (Option FeedbackVector)
  /-- Whether there is a tier manager. -/
  tiered : Bool
  megamorphicCache : MegamorphicCache

/-- A read or write of a field: the function of the innermost frame, the instruction, and what the
receiver has. -/
structure Access where
  functionId : Option Nat
  ip : Nat
  schemaId : UInt64
  fieldCount : Nat

namespace VirtualMachine

def feedbackVector (vm : VirtualMachine) (functionId : Option Nat) : Option FeedbackVector :=
  functionId.bind fun f => vm.feedbackVectors[f]?.join

/-- Runs a recording on `current_feedback_vector`, which is created when a tier manager wants it. -/
def withFeedbackVector (vm : VirtualMachine) (functionId : Option Nat)
    (record : FeedbackVector → FeedbackVector) :
    VirtualMachine :=
  match functionId with
  | none => vm
  | some f =>
    match vm.feedbackVectors[f]? with
    | none => vm
    | some none =>
      if vm.tiered then { vm with feedbackVectors := vm.feedbackVectors.set f (some (record .new)) } else vm
    | some (some fv) => { vm with feedbackVectors := vm.feedbackVectors.set f (some (record fv)) }

def propertyFeedback (vm : VirtualMachine) (functionId : Option Nat) (ip : Nat) : Option PropertyFeedback :=
  (vm.feedbackVector functionId).bind fun fv =>
    match fv.slots.lookup ip with
    | some (.property fb) => some fb
    | _ => none

def propertyIcCheck (vm : VirtualMachine) (functionId : Option Nat) (ip : Nat) (runtimeSchemaId : UInt64) :
    Option PropertyIcHit :=
  (vm.propertyFeedback functionId ip).bind fun fb =>
    if fb.state = .monomorphic then
      fb.entries.head?.bind fun entry =>
        if entry.schemaId = runtimeSchemaId then some ⟨entry.fieldIdx, entry.fieldTypeTag⟩ else none
    else none

def isMegamorphic (vm : VirtualMachine) (functionId : Option Nat) (ip : Nat) : Bool :=
  (vm.propertyFeedback functionId ip).any fun fb => fb.state = .megamorphic

def megamorphicPropertyCheck (vm : VirtualMachine) (functionId : Option Nat) (ip : Nat)
    (runtimeSchemaId : UInt64) (fieldName : String) : Option PropertyIcHit :=
  if vm.isMegamorphic functionId ip then
    vm.megamorphicCache.probe (MegamorphicCache.hashKey runtimeSchemaId fieldName)
  else none

def megamorphicPropertyInsert (vm : VirtualMachine) (runtimeSchemaId : UInt64) (fieldName : String)
    (hit : PropertyIcHit) : VirtualMachine :=
  { vm with
    megamorphicCache :=
      vm.megamorphicCache.insert (MegamorphicCache.hashKey runtimeSchemaId fieldName)
              hit.fieldIdx hit.fieldTypeTag }

/-- `RECEIVER_TYPED_OBJECT`. -/
def receiverTypedObject : UInt8 := 0

variable {C : Type}

/-- The name-based fallback: both caches learn the field. -/
def locateByName (vm : VirtualMachine) (a : Access) (name : String) (hit : PropertyIcHit) :
    VirtualMachine × Option PropertyIcHit :=
  if hit.fieldIdx.toNat < a.fieldCount then
    let entry := ⟨a.schemaId, hit.fieldIdx, hit.fieldTypeTag, 1, receiverTypedObject⟩
    ((vm.withFeedbackVector a.functionId fun fv => fv.recordProperty a.ip entry).megamorphicPropertyInsert
      a.schemaId name hit, some hit)
  else (vm, none)

/-- The field of a receiver whose schema is not the operand's. -/
def locateMismatched (P : Program C) (vm : VirtualMachine) (a : Access) (operand : TypedField) :
    VirtualMachine × Option PropertyIcHit :=
  let inBounds := fun hit : PropertyIcHit => decide (hit.fieldIdx.toNat < a.fieldCount)
  match (vm.propertyIcCheck a.functionId a.ip a.schemaId).filter inBounds with
  | some hit => (vm, some hit)
  | none =>
    match P.resolve operand a.schemaId with
    | none => (vm, none)
    | some (name, hit) =>
      match (vm.megamorphicPropertyCheck a.functionId a.ip a.schemaId name).filter inBounds with
      | some cached => (vm, some cached)
      | none => vm.locateByName a name hit

/-- The slot of the receiver that the instruction reads or writes, with its tag. Where there is
none, a read pushes null and a write fails. -/
def locateField (P : Program C) (vm : VirtualMachine) (a : Access) :
    VirtualMachine × Option PropertyIcHit :=
  match P.operand a.ip with
  | none => (vm, none)
  | some operand =>
    if a.schemaId = operand.typeId.toUInt64 then
      (vm, if operand.fieldIdx.toNat < a.fieldCount then some
        ⟨operand.fieldIdx, operand.fieldTypeTag⟩ else none)
    else vm.locateMismatched P a operand

end VirtualMachine

inductive Event where
  | access (a : Access)
  /-- An instruction of another kind records what it saw. -/
  | profile (functionId : Option Nat) (ip : Nat)

namespace Program

variable {C : Type}

def step (P : Program C) (vm : VirtualMachine) : Event → VirtualMachine
  | .access a => (vm.locateField P a).1
  | .profile functionId ip =>
    match P.operand ip with
    | none => vm.withFeedbackVector functionId fun fv => fv.recordOther ip
    | some _ => vm

/-- A machine with the program loaded. -/
def load (functions : Nat) (tiered : Bool) : VirtualMachine := ⟨List.replicate functions none, tiered, .new⟩

def run (P : Program C) (functions : Nat) (tiered : Bool) (events : List Event) : VirtualMachine :=
  events.foldl P.step (load functions tiered)

end Program

/-! ## What the property caches hold -/

namespace VirtualMachine

variable {C : Type} {P : Program C} {vm : VirtualMachine}

/-- The entry is what the lookup by name gives at the site. -/
def EntryTrue (P : Program C) (ip : Nat) (entry : PropertyCacheEntry) : Prop :=
  ∃ operand name, P.operand ip = some operand ∧ P.fieldName operand = some name ∧
    P.nameLookup entry.schemaId name = some ⟨entry.fieldIdx, entry.fieldTypeTag⟩

def SlotTrue (P : Program C) (ip : Nat) : FeedbackSlot → Prop
  | .property fb => ∀ entry ∈ fb.entries, EntryTrue P ip entry
  | _ => True

def VectorTrue (P : Program C) (fv : FeedbackVector) : Prop :=
  ∀ ip slot, fv.slots.lookup ip = some slot → SlotTrue P ip slot

def FeedbackTrue (P : Program C) (vm : VirtualMachine) : Prop :=
  ∀ fv, some fv ∈ vm.feedbackVectors → VectorTrue P fv

variable {ip : Nat} {schemaId : UInt64}

theorem entryTrue_bump {receiverKind : UInt8} {entries entries' : List PropertyCacheEntry}
    (h : ∀ entry ∈ entries, EntryTrue P ip entry)
    (hbump : bumpHitCount schemaId receiverKind entries = some entries') :
    ∀ entry ∈ entries', EntryTrue P ip entry := by
  induction entries generalizing entries' with
  | nil => cases hbump
  | cons head rest ih =>
    unfold bumpHitCount at hbump
    split at hbump
    · cases hbump
      intro entry hmem
      rcases List.mem_cons.mp hmem with rfl | hmem
      · exact h head List.mem_cons_self
      · exact h entry (List.mem_cons_of_mem _ hmem)
    · obtain ⟨rest', hrest, rfl⟩ := Option.map_eq_some_iff.mp hbump
      intro entry hmem
      rcases List.mem_cons.mp hmem with rfl | hmem
      · exact h entry List.mem_cons_self
      · exact ih (fun e he => h e (List.mem_cons_of_mem _ he)) hrest entry hmem

variable {slot : FeedbackSlot}

theorem slotTrue_recordProperty {entry : PropertyCacheEntry} (h : SlotTrue P ip slot)
    (hentry : EntryTrue P ip entry) :
    SlotTrue P ip (slot.recordProperty entry) := by
  cases slot with
  | uninitialized =>
    intro e hmem
    rw [List.mem_singleton.mp hmem]
    exact hentry
  | property fb =>
    show ∀ e ∈ (fb.record entry).entries, EntryTrue P ip e
    unfold PropertyFeedback.record
    split
    · rename_i entries hbump
      exact entryTrue_bump h hbump
    · split
      · exact h
      · intro e hmem
        rcases List.mem_append.mp hmem with hold | hnew
        · exact h e hold
        · rw [List.mem_singleton.mp hnew]
          exact hentry
  | other => trivial

theorem vectorTrue_new : VectorTrue P .new := by
  intro ip slot h
  cases h

theorem VectorTrue.insert {fv : FeedbackVector} (h : VectorTrue P fv) (hslot : SlotTrue P ip slot) :
    VectorTrue P ⟨fv.slots.insert ip slot⟩ := by
  intro ip' slot' hlookup
  rcases lookup_insert_eq_some hlookup with ⟨rfl, rfl⟩ | hold
  · exact hslot
  · exact h ip' slot' hold

theorem VectorTrue.slotAt {fv : FeedbackVector} (h : VectorTrue P fv) (ip : Nat) :
    SlotTrue P ip (fv.slotAt ip) := by
  unfold FeedbackVector.slotAt
  cases hlookup : fv.slots.lookup ip with
  | none => trivial
  | some slot => exact h ip slot hlookup

/-- A recording that keeps every feedback vector true keeps all of them true. -/
theorem FeedbackTrue.withFeedbackVector (h : FeedbackTrue P vm) {functionId : Option Nat}
    {record : FeedbackVector → FeedbackVector}
    (hrecord : ∀ fv, VectorTrue P fv → VectorTrue P (record fv)) :
    FeedbackTrue P (vm.withFeedbackVector functionId record) := by
  have hset : ∀ f fv, VectorTrue P fv →
      FeedbackTrue P { vm with feedbackVectors := vm.feedbackVectors.set f (some fv) } := by
    intro f fv hfv fv' hmem
    rcases List.mem_or_eq_of_mem_set hmem with hold | heq
    · exact h fv' hold
    · rw [Option.some.inj heq]
      exact hfv
  unfold VirtualMachine.withFeedbackVector
  split
  · exact h
  · split
    · exact h
    · split
      · exact hset _ _ (hrecord _ vectorTrue_new)
      · exact h
    · rename_i fv hget
      exact hset _ _ (hrecord _ (h fv (List.mem_of_getElem? hget)))

theorem withFeedbackVector_megamorphicCache (vm : VirtualMachine) (functionId : Option Nat)
    (record : FeedbackVector → FeedbackVector) :
    (vm.withFeedbackVector functionId record).megamorphicCache = vm.megamorphicCache := by
  unfold VirtualMachine.withFeedbackVector
  split
  · rfl
  · split
    · rfl
    · split <;> rfl
    · rfl

/-! ## What the megamorphic cache holds -/

/-- Every valid entry is what the lookup by name gives for a pair of schema and name that was looked up. -/
def CacheTrue (P : Program C) (pairs : List (UInt64 × String)) (cache : MegamorphicCache) : Prop :=
  ∀ i, (cache.entries i).valid = true → ∃ pair ∈ pairs, MegamorphicCache.hashKey pair.1 pair.2 =
    (cache.entries i).key ∧
    P.nameLookup pair.1 pair.2 = some ⟨(cache.entries i).fieldIdx, (cache.entries i).fieldTypeTag⟩

theorem cacheTrue_new (pairs : List (UInt64 × String)) : CacheTrue P pairs .new := by
  intro i h
  cases h

variable {pairs : List (UInt64 × String)} {cache : MegamorphicCache}

theorem CacheTrue.mono {pairs' : List (UInt64 × String)} (h : CacheTrue P pairs cache)
    (hsub : pairs ⊆ pairs') :
    CacheTrue P pairs' cache := by
  intro i hvalid
  obtain ⟨pair, hmem, hpair⟩ := h i hvalid
  exact ⟨pair, hsub hmem, hpair⟩

theorem CacheTrue.insert (h : CacheTrue P pairs cache) {name : String} {hit : PropertyIcHit}
    (hmem : (schemaId, name) ∈ pairs) (hlookup : P.nameLookup schemaId name = some hit) :
    CacheTrue P pairs (cache.insert (MegamorphicCache.hashKey schemaId name) hit.fieldIdx
      hit.fieldTypeTag) := by
  generalize hkey : MegamorphicCache.hashKey schemaId name = key
  intro i hvalid
  unfold MegamorphicCache.insert at hvalid ⊢
  dsimp only at hvalid ⊢
  by_cases hi : i = MegamorphicCache.slot key
  · subst hi
    rw [Function.update_self]
    exact ⟨(schemaId, name), hmem, hkey, hlookup⟩
  · rw [Function.update_of_ne hi] at hvalid ⊢
    exact h i hvalid

theorem CacheTrue.probe (h : CacheTrue P pairs cache) {key : UInt64} {hit : PropertyIcHit}
    (hprobe : cache.probe key = some hit) :
    ∃ pair ∈ pairs, MegamorphicCache.hashKey pair.1 pair.2 = key ∧ P.nameLookup pair.1 pair.2 =
      some hit := by
  unfold MegamorphicCache.probe at hprobe
  dsimp only at hprobe
  split at hprobe
  · rename_i hentry
    obtain ⟨pair, hmem, hkey, hlookup⟩ := h _ hentry.1
    cases hprobe
    exact ⟨pair, hmem, hkey.trans hentry.2, hlookup⟩
  · cases hprobe

end VirtualMachine

/-! ## Runs -/

namespace Program

open VirtualMachine

variable {C : Type} {P : Program C} {vm : VirtualMachine}

/-- The schema and the name that an access looks up. -/
def pairOf (P : Program C) : Event → Option (UInt64 × String)
  | .access a => ((P.operand a.ip).bind P.fieldName).map fun name => (a.schemaId, name)
  | .profile _ _ => none

/-- Both caches hold what lookups by name have given. -/
structure Truthful (P : Program C) (pairs : List (UInt64 × String)) (vm : VirtualMachine) : Prop where
  feedback : FeedbackTrue P vm
  cache : CacheTrue P pairs vm.megamorphicCache

variable (functions : Nat) (tiered : Bool)

theorem truthful_load : P.Truthful [] (load functions tiered) where
  feedback := by
    intro fv hmem
    cases List.eq_of_mem_replicate hmem
  cache := cacheTrue_new []

variable {operand : TypedField}

theorem Truthful.locateByName {pairs : List (UInt64 × String)} (h : P.Truthful pairs vm)
    {a : Access} {name : String} {hit : PropertyIcHit} (hop : P.operand a.ip = some operand)
    (hresolve : P.resolve operand a.schemaId = some (name, hit))
    (hmem : (a.schemaId, name) ∈ pairs) :
    P.Truthful pairs (vm.locateByName a name hit).1 := by
  unfold resolve at hresolve
  obtain ⟨name', hname, hresolve⟩ := Option.bind_eq_some_iff.mp hresolve
  obtain ⟨hit', hlookup, hpair⟩ := Option.map_eq_some_iff.mp hresolve
  cases hpair
  unfold VirtualMachine.locateByName
  split
  · refine ⟨h.feedback.withFeedbackVector ?_, ?_⟩
    · intro fv hfv
      exact hfv.insert (slotTrue_recordProperty (hfv.slotAt a.ip) ⟨operand, name, hop, hname, hlookup⟩)
    · unfold VirtualMachine.megamorphicPropertyInsert
      dsimp only
      rw [withFeedbackVector_megamorphicCache]
      exact h.cache.insert hmem hlookup
  · exact h

theorem Truthful.step {pairs : List (UInt64 × String)} (h : P.Truthful pairs vm) {event : Event}
    (hmem : ∀ pair, P.pairOf event = some pair → pair ∈ pairs) : P.Truthful pairs (P.step vm event) := by
  cases event with
  -- only an access that resolves a name after a mismatch writes to a cache
  | access a =>
    show P.Truthful pairs (vm.locateField P a).1
    unfold VirtualMachine.locateField
    split
    · exact h
    · rename_i operand hop
      split
      · exact h
      · unfold VirtualMachine.locateMismatched
        dsimp only
        split
        · exact h
        · split
          · exact h
          · rename_i name hit hresolve
            have hpair : P.pairOf (.access a) = some (a.schemaId, name) := by
              obtain ⟨name', hname, hlookup⟩ := Option.bind_eq_some_iff.mp hresolve
              obtain ⟨hit', -, heq⟩ := Option.map_eq_some_iff.mp hlookup
              cases heq
              simp [pairOf, hop, hname]
            split
            · exact h
            · exact h.locateByName hop hresolve (hmem _ hpair)
  -- profiling makes a slot of another kind
  | profile functionId ip =>
    simp only [Program.step]
    split
    · refine ⟨h.feedback.withFeedbackVector fun fv hfv => ?_, ?_⟩
      · have hslot : SlotTrue P ip .other := trivial
        exact hfv.insert hslot
      · rw [withFeedbackVector_megamorphicCache]
        exact h.cache
    · exact h

/-- The pairs looked up in a run. -/
def pairs (P : Program C) (events : List Event) : List (UInt64 × String) := events.filterMap P.pairOf

theorem truthful_run (events : List Event) :
    P.Truthful (P.pairs events) (P.run functions tiered events) := by
  induction events using List.reverseRecOn with
  | nil => exact truthful_load functions tiered
  | append_singleton events event ih =>
    have hrun : P.run functions tiered (events ++ [event]) = P.step (P.run functions tiered events)
        event := by
      unfold run
      rw [List.foldl_append]
      rfl
    have hsub : P.pairs events ⊆ P.pairs (events ++ [event]) := by
      unfold pairs
      rw [List.filterMap_append]
      exact List.subset_append_left _ _
    rw [hrun]
    refine Truthful.step ⟨ih.feedback, ih.cache.mono hsub⟩ fun pair hpair => ?_
    exact List.mem_filterMap.mpr ⟨event, List.mem_append_right _ (List.mem_singleton.mpr rfl), hpair⟩

variable {events : List Event}

/-- The property cache of a site agrees with the lookup by name, whatever has happened. -/
theorem propertyIcCheck_eq_nameLookup {functions : Nat} {tiered : Bool} {functionId : Option Nat} {ip : Nat}
    {schemaId : UInt64} {name : String} {hit : PropertyIcHit} (hop : P.operand ip = some operand)
    (hname : P.fieldName operand = some name)
    (hhit : (P.run functions tiered events).propertyIcCheck functionId ip schemaId = some hit) :
    P.nameLookup schemaId name = some hit := by
  unfold VirtualMachine.propertyIcCheck VirtualMachine.propertyFeedback
    VirtualMachine.feedbackVector at hhit
  -- the vector of the function, its slot at the site, the entry of the schema
  obtain ⟨fb, hfb, hhit⟩ := Option.bind_eq_some_iff.mp hhit
  obtain ⟨fv, hfv, hslot⟩ := Option.bind_eq_some_iff.mp hfb
  obtain ⟨f, -, hjoin⟩ := Option.bind_eq_some_iff.mp hfv
  have hmem : some fv ∈ (P.run functions tiered events).feedbackVectors :=
    List.mem_of_getElem? (Option.join_eq_some_iff.mp hjoin)
  have hvector := (truthful_run functions tiered events).feedback fv hmem
  split at hslot
  · rename_i fb' hlookup
    cases hslot
    split at hhit
    · obtain ⟨entry, hhead, hentry⟩ := Option.bind_eq_some_iff.mp hhit
      split at hentry
      · rename_i hschema
        cases hentry
        have htrue : EntryTrue P ip entry :=
          hvector ip (.property fb) hlookup entry (List.mem_of_mem_head? hhead)
        obtain ⟨operand', name', hop', hname', hfield⟩ := htrue
        rw [hop] at hop'
        cases hop'
        rw [hname] at hname'
        cases hname'
        rw [← hschema]
        exact hfield
      · cases hentry
    · cases hhit
  · cases hslot

/-- An access at a megamorphic site has a key that no other schema and name of an earlier access has. -/
def KeysApart (P : Program C) (functions : Nat) (tiered : Bool) (events : List Event) : Prop :=
  ∀ before a after name, events = before ++ .access a :: after →
    (P.run functions tiered before).isMegamorphic a.functionId a.ip = true →
    P.pairOf (.access a) = some (a.schemaId, name) → ∀ pair ∈ P.pairs before,
    MegamorphicCache.hashKey pair.1 pair.2 = MegamorphicCache.hashKey a.schemaId name →
      pair = (a.schemaId, name)

/-- Every hit of either cache is the field that the lookup by name gives. -/
theorem hit_eq_nameLookup {functions : Nat} {tiered : Bool} {events before after : List Event} {a : Access}
    (hapart : P.KeysApart functions tiered events) (hevents : events = before ++ .access a :: after)
    {operand : TypedField} {name : String} (hop : P.operand a.ip = some operand)
    (hname : P.fieldName operand = some name) {hit : PropertyIcHit}
    (hhit : (P.run functions tiered before).propertyIcCheck a.functionId a.ip a.schemaId =
      some hit ∨
      (P.run functions tiered before).megamorphicPropertyCheck a.functionId a.ip a.schemaId name =
        some hit) :
    P.nameLookup a.schemaId name = some hit := by
  rcases hhit with hproperty | hmegamorphic
  · exact propertyIcCheck_eq_nameLookup hop hname hproperty
  · unfold VirtualMachine.megamorphicPropertyCheck at hmegamorphic
    split at hmegamorphic
    · rename_i hstate
      obtain ⟨pair, hmem, hkey, hlookup⟩ := (truthful_run functions tiered before).cache.probe hmegamorphic
      have hpair : P.pairOf (.access a) = some (a.schemaId, name) := by simp [pairOf, hop, hname]
      rw [hapart before a after name hevents hstate hpair pair hmem hkey] at hlookup
      exact hlookup
    · cases hmegamorphic

/-- It is enough that no two accesses of the run have the same key. -/
theorem keysApart_of_pairs {functions : Nat} {tiered : Bool}
    (h : ∀ pair ∈ P.pairs events, ∀ pair' ∈ P.pairs events, MegamorphicCache.hashKey pair.1 pair.2 =
      MegamorphicCache.hashKey pair'.1 pair'.2 → pair = pair') :
    P.KeysApart functions tiered events := by
  rintro before a after name rfl hstate hpair pair hmem hkey
  refine h pair ?_ (a.schemaId, name) ?_ hkey
  · unfold pairs
    rw [List.filterMap_append]
    exact List.mem_append_left _ hmem
  · exact List.mem_filterMap.mpr ⟨.access a, List.mem_append_right _ List.mem_cons_self, hpair⟩

/-! ## One-letter names -/

def schemas : List TypeSchema :=
  [.withId 5 "A" [("a", .i64)], .withId 6 "ZB" [("z", .string), ("b", .i64)], .withId 11 "B1" [("b", .i64)],
    .withId 12 "B2" [("b", .i64)], .withId 13 "B3" [("b", .i64)], .withId 14 "B4" [("b", .i64)],
    .withId 15 "B5" [("b", .i64)], .withId 100 "BA" [("b", .i64), ("a", .i64)]]

def letters : Program Unit where
  registry :=
    { TypeSchemaRegistry.new with
      byName := schemas.foldl (fun map schema => map.insert schema.name schema) ∅
      byId := schemas.foldl (fun map schema => map.insert schema.id schema.name) ∅ }
  operand
    | 10 => some ⟨100, 0, 1⟩
    | 20 => some ⟨100, 1, 1⟩
    | _ => none

/-- Five schemas at the instruction that reads `b`. -/
def fiveSchemas : List Event :=
  [.access ⟨some 0, 10, 11, 1⟩, .access ⟨some 0, 10, 12, 1⟩, .access ⟨some 0, 10, 13, 1⟩, .access
    ⟨some 0, 10, 14, 1⟩, .access ⟨some 0, 10, 15, 1⟩]

/-- The sixth is looked up by name and found in the cache when it comes again. -/
theorem hit_eq_nameLookup_again :
    (letters.run 1 true (fiveSchemas ++ [.access ⟨some 0, 10, 6, 2⟩])).megamorphicPropertyCheck
    (some 0) 10 6 "b" =
      some ⟨1, 1⟩ ∧ letters.nameLookup 6 "b" = some ⟨1, 1⟩ := by
  have hhit : (letters.run 1 true (fiveSchemas ++ [.access ⟨some 0, 10, 6, 2⟩])).megamorphicPropertyCheck
      (some 0) 10 6 "b" = some ⟨1, 1⟩ := by decide +kernel
  have hapart : letters.KeysApart 1 true
      (fiveSchemas ++ [.access ⟨some 0, 10, 6, 2⟩] ++ [.access ⟨some 0, 10, 6, 2⟩]) :=
    keysApart_of_pairs (by decide +kernel)
  have hop : letters.operand 10 = some ⟨100, 0, 1⟩ := rfl
  have hname : letters.fieldName ⟨100, 0, 1⟩ = some "b" := by decide +kernel
  exact ⟨hhit, hit_eq_nameLookup hapart rfl hop hname (Or.inr hhit)⟩

/-- The field `a` of schema 5 has the key of the field `b` of schema 6, and the access takes the
wrong slot. -/
theorem hit_of_another_field :
    (letters.run 1 true (fiveSchemas ++ [.access ⟨some 0, 20, 5, 1⟩])).megamorphicPropertyCheck
    (some 0) 10 6 "b" =
      some ⟨0, 1⟩ ∧
    ((letters.run 1 true (fiveSchemas ++ [.access ⟨some 0, 20, 5, 1⟩])).locateField letters
      ⟨some 0, 10, 6, 2⟩).2 =
      some ⟨0, 1⟩ ∧
    (letters.operand 10).bind letters.fieldName = some "b" ∧ letters.nameLookup 6 "b" = some ⟨1, 1⟩ := by
  decide +kernel

end Program

end ShapeLang.Executor
