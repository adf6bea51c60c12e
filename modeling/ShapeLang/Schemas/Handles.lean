import ShapeLang.Schemas.Registry

/-!
# Schema handles are minted fresh

Every mint takes the counter's value. It is fresh as long as the counter stays above every handle in
the tables (`Above`), and each operation keeps that under a condition on what it brings in from
outside: a preserved handle must leave the counter room, a mirrored handle and the predeclared
handles of a merged registry must already be below the counter, since neither path advances it.
-/

namespace ShapeLang.Schemas

open ShapeLang.Lib

namespace TypeSchemaRegistry

variable {C : Type} [DecidableEq C] {sha256 : String → C} {registry : TypeSchemaRegistry C}

/-- The handles present in the registry. -/
inductive Holds (registry : TypeSchemaRegistry C) (h : SchemaId) : Prop
  | byId (name : String) : registry.byId.lookup h = some name → Holds registry h
  | byContent (content : C) : registry.byContent.lookup content = some h → Holds registry h
  | predeclared (schema : TypeSchema) : registry.predeclaredById.lookup h = some schema → Holds registry h

/-- Every handle that the tables mention is below `bound`. -/
structure BoundedBy (registry : TypeSchemaRegistry C) (bound : UInt32) : Prop where
  byId : ∀ h name, registry.byId.lookup h = some name → h < bound
  byContent : ∀ content h, registry.byContent.lookup content = some h → h < bound
  byName : ∀ name schema, registry.byName.lookup name = some schema → schema.id < bound
  predeclared : ∀ h schema, registry.predeclaredById.lookup h = some schema → h < bound

/-- The counter is above every handle that the tables mention. -/
def Above (registry : TypeSchemaRegistry C) : Prop := registry.BoundedBy registry.nextId

/-- The counter can take one more step. -/
def HasRoom (registry : TypeSchemaRegistry C) : Prop := registry.nextId.toNat + 1 < 2 ^ 32

theorem BoundedBy.mono {bound bound' : UInt32} (h : registry.BoundedBy bound) (hle : bound ≤ bound') :
    registry.BoundedBy bound' where
  byId := fun i name hi => UInt32.lt_of_lt_of_le (h.byId i name hi) hle
  byContent := fun c i hi => UInt32.lt_of_lt_of_le (h.byContent c i hi) hle
  byName := fun name schema hs => UInt32.lt_of_lt_of_le (h.byName name schema hs) hle
  predeclared := fun i schema hi => UInt32.lt_of_lt_of_le (h.predeclared i schema hi) hle

/-- Raising the counter keeps it above. -/
theorem Above.raise (h : registry.Above) {next : UInt32} (hle : registry.nextId ≤ next) :
    { registry with nextId := next }.Above :=
  ⟨(h.mono hle).byId, (h.mono hle).byContent, (h.mono hle).byName, (h.mono hle).predeclared⟩

theorem Above.not_holds (h : registry.Above) : ¬ registry.Holds registry.nextId := by
  rintro (⟨name, hname⟩ | ⟨content, hcontent⟩ | ⟨schema, hschema⟩)
  · exact absurd (h.byId _ _ hname) (UInt32.lt_irrefl _)
  · exact absurd (h.byContent _ _ hcontent) (UInt32.lt_irrefl _)
  · exact absurd (h.predeclared _ _ hschema) (UInt32.lt_irrefl _)

/-! ## The mint and the counter -/

omit [DecidableEq C] in
theorem nextId_lt_succ (hroom : registry.HasRoom) : registry.nextId < registry.nextId + 1 := by
  unfold HasRoom at hroom
  rw [UInt32.lt_iff_toNat_lt, UInt32.toNat_add]
  show registry.nextId.toNat < (registry.nextId.toNat + 1) % 2 ^ 32
  omega

/-- A mint moves the counter past the handle it hands out. -/
theorem Above.allocateId (h : registry.Above) (hroom : registry.HasRoom) :
    registry.allocateId.1.Above ∧ registry.nextId < registry.allocateId.1.nextId := by
  have hlt := nextId_lt_succ hroom
  exact ⟨h.raise (UInt32.le_of_lt hlt), hlt⟩

variable {content : C}

theorem Above.internContent (h : registry.Above)
    (hroom : registry.byContent.lookup content = none → registry.HasRoom) :
    (registry.internContent content).1.Above ∧
      (registry.internContent content).2 < (registry.internContent content).1.nextId := by
  unfold TypeSchemaRegistry.internContent
  cases hlookup : registry.byContent.lookup content with
  | some handle => exact ⟨h, h.byContent _ _ hlookup⟩
  | none =>
    obtain ⟨habove, hlt⟩ := h.allocateId (hroom hlookup)
    refine ⟨⟨habove.byId, ?_, habove.byName, habove.predeclared⟩, hlt⟩
    intro content' handle hin
    rcases lookup_insert_eq_some hin with ⟨-, rfl⟩ | hold
    · exact hlt
    · exact habove.byContent content' handle hold

theorem lt_saturatingSucc {id : SchemaId} (hid : id.toNat + 1 < 2 ^ 32) : id < saturatingSucc id := by
  have hne : id ≠ 0xFFFFFFFF := by
    rintro rfl
    exact absurd hid (by decide)
  unfold saturatingSucc
  rw [if_neg hne, UInt32.lt_iff_toNat_lt, UInt32.toNat_add]
  show id.toNat < (id.toNat + 1) % 2 ^ 32
  omega

omit [DecidableEq C] in
/-- The counter never goes back, and a handle that is not the last one ends up below it. -/
theorem advanceCounterPast_spec (registry : TypeSchemaRegistry C) (id : SchemaId) :
    registry.nextId ≤ (registry.advanceCounterPast id).nextId ∧
      (id.toNat + 1 < 2 ^ 32 → id < (registry.advanceCounterPast id).nextId) := by
  unfold advanceCounterPast
  split
  · rename_i hlt
    exact ⟨UInt32.le_of_lt hlt, fun hid => lt_saturatingSucc hid⟩
  · rename_i hge
    exact ⟨UInt32.le_refl _, fun hid => UInt32.lt_of_lt_of_le (lt_saturatingSucc hid)
      (UInt32.not_lt.mp hge)⟩

theorem Above.advanceCounterPast (h : registry.Above) (id : SchemaId) :
    (registry.advanceCounterPast id).Above := by
  unfold TypeSchemaRegistry.advanceCounterPast
  split
  · rename_i hlt
    exact h.raise (UInt32.le_of_lt hlt)
  · exact h

/-! ## Operations -/

variable {schema : TypeSchema} {name : String}

omit [DecidableEq C] in
theorem lookup_dropMovedHandle {i : SchemaId} (h : (registry.dropMovedHandle schema).lookup i = some name) :
    registry.byId.lookup i = some name ∧
      ∀ prev, registry.byName.lookup schema.name = some prev → prev.id ≠ schema.id → i ≠ prev.id := by
  unfold dropMovedHandle at h
  split at h
  · rename_i prev hprev
    split at h
    · refine ⟨lookup_erase_eq_some h, ?_⟩
      rintro prev' hprev' - rfl
      obtain rfl := Option.some.inj (hprev.symm.trans hprev')
      rw [AList.lookup_erase] at h
      cases h
    · rename_i hsame
      refine ⟨h, ?_⟩
      intro prev' hprev' hne
      obtain rfl := Option.some.inj (hprev.symm.trans hprev')
      exact absurd hne hsame
  · rename_i hprev
    refine ⟨h, ?_⟩
    intro prev' hprev'
    rw [hprev] at hprev'
    cases hprev'

theorem Above.register (h : registry.Above) (hid : schema.id.toNat + 1 < 2 ^ 32) :
    (registry.register sha256 schema).Above := by
  -- The state behind the counter update, with the content already indexed.
  let indexed : TypeSchemaRegistry C :=
    { registry with byContent := orInsert registry.byContent (schema.contentId sha256) schema.id }
  obtain ⟨hle, hlt⟩ := advanceCounterPast_spec indexed schema.id
  have hold := h.mono hle
  have hnext : (registry.register sha256 schema).nextId =
      (indexed.advanceCounterPast schema.id).nextId := rfl
  have htables : (indexed.advanceCounterPast schema.id).byContent = indexed.byContent ∧
      (indexed.advanceCounterPast schema.id).byName = registry.byName ∧
      (indexed.advanceCounterPast schema.id).byId = registry.byId ∧
      (indexed.advanceCounterPast schema.id).predeclaredById = registry.predeclaredById := by
    unfold TypeSchemaRegistry.advanceCounterPast
    split <;> exact ⟨rfl, rfl, rfl, rfl⟩
  obtain ⟨hcontent, hnames, hids, hpre⟩ := htables
  refine ⟨?_, ?_, ?_, ?_⟩
  · intro i name hi
    rcases lookup_insert_eq_some hi with ⟨rfl, -⟩ | hrest
    · exact hlt hid
    · exact hold.byId i name (hids ▸ (lookup_dropMovedHandle hrest).1)
  · intro content i hi
    have hi' : indexed.byContent.lookup content = some i := hcontent ▸ hi
    rcases lookup_orInsert_eq_some hi' with ⟨-, rfl⟩ | hrest
    · exact hlt hid
    · exact hold.byContent content i hrest
  · intro name schema' hs
    rcases lookup_insert_eq_some hs with ⟨-, rfl⟩ | hrest
    · exact hlt hid
    · exact hold.byName name schema' (hnames ▸ hrest)
  · intro i schema' hi
    exact hold.predeclared i schema' (hpre ▸ hi)

theorem toNat_succ_lt_of_lt {a b : UInt32} (h : a < b) : a.toNat + 1 < 2 ^ 32 := by
  have hb := b.toNat_lt
  have hab := UInt32.lt_iff_toNat_lt.mp h
  omega

theorem Above.registerFresh (h : registry.Above)
    (hroom : registry.byContent.lookup (schema.contentId sha256) = none → registry.HasRoom) :
    (registry.registerFresh sha256 schema).1.Above := by
  obtain ⟨habove, hlt⟩ := h.internContent hroom
  exact habove.register (toNat_succ_lt_of_lt hlt)

variable {fields : List (String × FieldType)}

theorem Above.upsert (h : registry.Above)
    (hroom : registry.byName.lookup name = none → registry.byContent.lookup
      ((TypeSchema.withId 0 name fields).contentId sha256) = none → registry.HasRoom) :
    (registry.upsertTypeScopedUnionFields sha256 name fields).1.Above := by
  unfold upsertTypeScopedUnionFields
  cases hname : registry.byName.lookup name with
  | none => exact h.registerFresh (hroom hname)
  | some existing =>
    have hid := toNat_succ_lt_of_lt (h.byName name existing hname)
    show (if _ then _ else _ : TypeSchemaRegistry C × SchemaId).1.Above
    split
    · exact h.register hid
    · exact h

theorem Above.registerPredeclared (h : registry.Above) {key : String}
    (hroom : registry.predeclaredCache.lookup key = none → registry.HasRoom) :
    (registry.registerPredeclared key fields).1.Above := by
  unfold TypeSchemaRegistry.registerPredeclared
  cases hkey : registry.predeclaredCache.lookup key with
  | some id => exact h
  | none =>
    obtain ⟨habove, hlt⟩ := h.allocateId (hroom hkey)
    refine ⟨habove.byId, habove.byContent, habove.byName, ?_⟩
    intro i schema hi
    rcases lookup_insert_eq_some hi with ⟨rfl, -⟩ | hrest
    · exact hlt
    · exact habove.predeclared i schema hrest

theorem Above.mirror (h : registry.Above) {fields : List String} {id : SchemaId}
    (hid : id < registry.nextId) :
    (registry.mirrorPredeclaredAnySchema fields id).Above := by
  unfold mirrorPredeclaredAnySchema
  show (if _ then registry else _ : TypeSchemaRegistry C).Above
  split
  · exact h
  · refine ⟨h.byId, h.byContent, h.byName, ?_⟩
    intro i schema hi
    rcases lookup_orInsert_eq_some hi with ⟨rfl, -⟩ | hrest
    · exact hid
    · exact h.predeclared i schema hrest

theorem lookup_indexSchemas {schemas : List TypeSchema} {byContent : HashMap C SchemaId}
    {maxId : SchemaId} {h : SchemaId}
    (hin : (indexSchemas sha256 schemas byContent maxId).1.lookup content = some h) :
    byContent.lookup content = some h ∨ ∃ schema ∈ schemas, schema.id = h := by
  induction schemas generalizing byContent maxId with
  | nil => exact Or.inl hin
  | cons schema rest ih =>
    rcases ih hin with hmap | ⟨schema', hmem, hid⟩
    · rcases lookup_orInsert_eq_some hmap with ⟨-, rfl⟩ | hold
      · exact Or.inr ⟨schema, List.mem_cons_self, rfl⟩
      · exact Or.inl hold
    · exact Or.inr ⟨schema', List.mem_cons_of_mem _ hmem, hid⟩

theorem Above.rebuildContentIndex (h : registry.Above) (order : HashOrder String) :
    (registry.rebuildContentIndex sha256 order).Above := by
  have hindexed : { registry with byContent := (indexSchemas sha256
      ((order.walk [0] registry.byName.keys).filterMap registry.byName.lookup) registry.byContent
        0).1 }.Above := by
    refine ⟨h.byId, ?_, h.byName, h.predeclared⟩
    intro content i hi
    rcases lookup_indexSchemas hi with hold | ⟨schema, hmem, rfl⟩
    · exact h.byContent content i hold
    · obtain ⟨name, -, hname⟩ := List.mem_filterMap.mp hmem
      exact h.byName name schema hname
  exact hindexed.advanceCounterPast _

theorem Above.mergeSchema (h : registry.Above) {remap : HashMap SchemaId SchemaId}
    (hroom : registry.byName.lookup name = none → registry.byContent.lookup
      (schema.contentId sha256) = none → registry.HasRoom) :
    (registry.mergeSchema sha256 remap schema name).1.Above := by
  unfold TypeSchemaRegistry.mergeSchema
  cases hname : registry.byName.lookup name with
  | some existing => exact h
  | none =>
    obtain ⟨habove, hlt⟩ := h.internContent (hroom hname)
    refine ⟨?_, habove.byContent, ?_, habove.predeclared⟩
    · intro i name' hi
      rcases lookup_insert_eq_some hi with ⟨rfl, -⟩ | hrest
      · exact hlt
      · exact habove.byId i name' hrest
    · intro name' schema' hs
      rcases lookup_insert_eq_some hs with ⟨-, rfl⟩ | hrest
      · exact hlt
      · exact habove.byName name' schema' hrest

theorem Above.mergePredeclared (h : registry.Above) {other : TypeSchemaRegistry C}
    (hother : ∀ i schema, other.predeclaredById.lookup i = some schema → i < registry.nextId) :
    (registry.mergePredeclared other).Above := by
  refine ⟨h.byId, h.byContent, h.byName, ?_⟩
  intro i schema hi
  rcases lookup_orInsertAll_eq_some hi with hmine | htheirs
  · exact h.predeclared i schema hmine
  · exact hother i schema htheirs

/-! ## Runs -/

inductive Op (C : Type) where
  | register (schema : TypeSchema)
  | registerType (name : String) (fields : List (String × FieldType))
  | registerEnumScoped (name : String) (variants : List EnumVariantInfo)
  | upsertTypeScopedUnionFields (name : String) (fields : List (String × FieldType))
  | registerPredeclaredAnySchema (fields : List String)
  | registerPredeclaredTypedSchema (fields : List (String × FieldType))
  | mirrorPredeclaredAnySchema (fields : List String) (id : SchemaId)
  | rebuildContentIndex (order : HashOrder String)
  | merge (order : HashOrder String) (other : TypeSchemaRegistry C)

section

variable (sha256)

def step (registry : TypeSchemaRegistry C) : Op C → TypeSchemaRegistry C
  | .register schema => registry.register sha256 schema
  | .registerType name fields => (registry.registerType sha256 name fields).1
  | .registerEnumScoped name variants => (registry.registerEnumScoped sha256 name variants).1
  | .upsertTypeScopedUnionFields name fields => (registry.upsertTypeScopedUnionFields sha256 name fields).1
  | .registerPredeclaredAnySchema fields => (registry.registerPredeclaredAnySchema fields).1
  | .registerPredeclaredTypedSchema fields => (registry.registerPredeclaredTypedSchema fields).1
  | .mirrorPredeclaredAnySchema fields id => registry.mirrorPredeclaredAnySchema fields id
  | .rebuildContentIndex order => registry.rebuildContentIndex sha256 order
  | .merge order other => (registry.merge sha256 order other).1

/-- Every operation of a run meets `P` in the state before it. -/
def Along (P : TypeSchemaRegistry C → Op C → Prop) : List (Op C) → TypeSchemaRegistry C → Prop
  | [], _ => True
  | op :: rest, registry => P registry op ∧ Along P rest (registry.step sha256 op)

/-- The states in which an intern of `content` takes a handle from the counter. -/
def internMints (registry : TypeSchemaRegistry C) (content : C) : List (TypeSchemaRegistry C) :=
  if (registry.byContent.lookup content).isSome then [] else [registry]

def predeclaredMints (registry : TypeSchemaRegistry C) (key : String) : List (TypeSchemaRegistry C) :=
  if (registry.predeclaredCache.lookup key).isSome then [] else [registry]

def mergeMints (other : TypeSchemaRegistry C) :
    List String → TypeSchemaRegistry C → HashMap SchemaId SchemaId → List (TypeSchemaRegistry C)
  | [], _, _ => []
  | name :: rest, registry, remap =>
    match other.byName.lookup name with
    | none => mergeMints other rest registry remap
    | some schema =>
      (if (registry.byName.lookup name).isSome then [] else registry.internMints
        (schema.contentId sha256)) ++
        mergeMints other rest (registry.mergeSchema sha256 remap schema name).1
          (registry.mergeSchema sha256 remap schema name).2

/-- The states in which an operation takes a handle from the counter. -/
def mints (registry : TypeSchemaRegistry C) : Op C → List (TypeSchemaRegistry C)
  | .register _ => []
  | .registerType name fields => registry.internMints ((TypeSchema.withId 0 name fields).contentId sha256)
  | .registerEnumScoped name variants =>
    registry.internMints ((TypeSchema.newEnumWithId 0 name variants).contentId sha256)
  | .upsertTypeScopedUnionFields name fields =>
    if (registry.byName.lookup name).isSome then []
    else registry.internMints ((TypeSchema.withId 0 name fields).contentId sha256)
  | .registerPredeclaredAnySchema fields => registry.predeclaredMints (predeclaredCacheKey fields)
  | .registerPredeclaredTypedSchema fields => registry.predeclaredMints (predeclaredTypedCacheKey fields)
  | .mirrorPredeclaredAnySchema _ _ => []
  | .rebuildContentIndex _ => []
  | .merge order other => mergeMints sha256 other (order.walk [1] other.byName.keys) registry ∅

/-- What an operation brings in from outside is covered by the counter. -/
def Covered (registry : TypeSchemaRegistry C) : Op C → Prop
  | .register schema => schema.id.toNat + 1 < 2 ^ 32
  | .mirrorPredeclaredAnySchema _ id => id < registry.nextId
  | .merge order other => ∀ h schema, other.predeclaredById.lookup h = some schema →
      h < (registry.mergeNamed sha256 order other).1.nextId
  | _ => True

/-- Every mint of the operation leaves the counter room. -/
def Roomy (registry : TypeSchemaRegistry C) (op : Op C) : Prop :=
  ∀ state ∈ registry.mints sha256 op, state.HasRoom

/-- Every handle that the operation mints differs from all handles present at that moment. -/
def MintsFresh (registry : TypeSchemaRegistry C) (op : Op C) : Prop :=
  ∀ state ∈ registry.mints sha256 op, ¬ state.Holds state.nextId

end

theorem hasRoom_of_internMints {content : C} (hroom : ∀ state ∈ registry.internMints content, state.HasRoom)
    (hnone : registry.byContent.lookup content = none) : registry.HasRoom := by
  refine hroom registry ?_
  unfold internMints
  rw [hnone]
  exact List.mem_singleton.mpr rfl

omit [DecidableEq C] in
theorem hasRoom_of_predeclaredMints {key : String}
    (hroom : ∀ state ∈ registry.predeclaredMints key, state.HasRoom)
    (hnone : registry.predeclaredCache.lookup key = none) : registry.HasRoom := by
  refine hroom registry ?_
  unfold predeclaredMints
  rw [hnone]
  exact List.mem_singleton.mpr rfl

theorem Above.mergeNames (other : TypeSchemaRegistry C) (names : List String)
    {remap : HashMap SchemaId SchemaId} (h : registry.Above)
    (hroom : ∀ state ∈ mergeMints sha256 other names registry remap, state.HasRoom) :
    (TypeSchemaRegistry.mergeNames sha256 other names registry remap).1.Above ∧
      ∀ state ∈ mergeMints sha256 other names registry remap, state.Above := by
  induction names generalizing registry remap with
  | nil => exact ⟨h, fun state hstate => absurd hstate List.not_mem_nil⟩
  | cons name rest ih =>
    unfold TypeSchemaRegistry.mergeNames mergeMints
    unfold mergeMints at hroom
    cases hother : other.byName.lookup name with
    | none =>
      rw [hother] at hroom
      exact ih h hroom
    | some schema =>
      rw [hother] at hroom
      obtain ⟨hfirst, hrest⟩ := List.forall_mem_append.mp hroom
      have hstep : (registry.mergeSchema sha256 remap schema name).1.Above := by
        apply h.mergeSchema
        intro hname hcontent
        rw [hname] at hfirst
        exact hasRoom_of_internMints hfirst hcontent
      obtain ⟨hend, hall⟩ := ih hstep hrest
      refine ⟨hend, List.forall_mem_append.mpr ⟨?_, hall⟩⟩
      intro state hstate
      split at hstate
      · exact absurd hstate List.not_mem_nil
      · unfold internMints at hstate
        split at hstate
        · exact absurd hstate List.not_mem_nil
        · rw [List.mem_singleton.mp hstate]
          exact h

/-- One operation keeps the counter above all handles. -/
theorem Above.step (h : registry.Above) {op : Op C} (hcovered : registry.Covered sha256 op)
    (hroom : registry.Roomy sha256 op) : (registry.step sha256 op).Above := by
  cases op with
  | register schema => exact h.register hcovered
  | registerType name fields => exact h.registerFresh (hasRoom_of_internMints hroom)
  | registerEnumScoped name variants => exact h.registerFresh (hasRoom_of_internMints hroom)
  | upsertTypeScopedUnionFields name fields =>
    apply h.upsert
    intro hname hcontent
    have hmints : ∀ state ∈ (if (registry.byName.lookup name).isSome then [] else
        registry.internMints ((TypeSchema.withId 0 name fields).contentId sha256)), state.HasRoom := hroom
    rw [hname] at hmints
    exact hasRoom_of_internMints hmints hcontent
  | registerPredeclaredAnySchema fields => exact h.registerPredeclared (hasRoom_of_predeclaredMints hroom)
  | registerPredeclaredTypedSchema fields => exact h.registerPredeclared (hasRoom_of_predeclaredMints hroom)
  | mirrorPredeclaredAnySchema fields id => exact h.mirror hcovered
  | rebuildContentIndex order => exact h.rebuildContentIndex order
  | merge order other =>
    have hnamed := (h.mergeNames other _ hroom).1
    exact (hnamed.mergePredeclared hcovered).rebuildContentIndex order

/-- Every handle that an operation mints is taken from a counter above all handles. -/
theorem Above.mints (h : registry.Above) {op : Op C} (hroom : registry.Roomy sha256 op) :
    ∀ state ∈ registry.mints sha256 op, state.Above := by
  have hself : ∀ (known : Bool), ∀ state ∈ (if known then [] else [registry]), state.Above := by
    intro known state hstate
    split at hstate
    · exact absurd hstate List.not_mem_nil
    · rw [List.mem_singleton.mp hstate]
      exact h
  cases op with
  | register schema => exact fun state hstate => absurd hstate List.not_mem_nil
  | registerType name fields => exact hself _
  | registerEnumScoped name variants => exact hself _
  | upsertTypeScopedUnionFields name fields =>
    intro state hstate
    have hmint : state ∈ (if (registry.byName.lookup name).isSome then [] else
        registry.internMints ((TypeSchema.withId 0 name fields).contentId sha256)) := hstate
    split at hmint
    · exact absurd hmint List.not_mem_nil
    · exact hself _ state hmint
  | registerPredeclaredAnySchema fields => exact hself _
  | registerPredeclaredTypedSchema fields => exact hself _
  | mirrorPredeclaredAnySchema fields id => exact fun state hstate => absurd hstate List.not_mem_nil
  | rebuildContentIndex order => exact fun state hstate => absurd hstate List.not_mem_nil
  | merge order other => exact (h.mergeNames other _ hroom).2

theorem above_new : (new : TypeSchemaRegistry C).Above :=
  ⟨fun _ _ h => (by cases h), fun _ _ h => (by cases h), fun _ _ h => (by cases h), fun _ _ h =>
    (by cases h)⟩

theorem Above.run (ops : List (Op C)) (h : registry.Above)
    (hok : Along sha256 (fun registry op => registry.Roomy sha256 op ∧ registry.Covered sha256 op)
      ops registry) :
    Along sha256 (MintsFresh sha256) ops registry := by
  induction ops generalizing registry with
  | nil => trivial
  | cons op rest ih =>
    obtain ⟨⟨hroom, hcovered⟩, hrest⟩ := hok
    refine ⟨?_, ih (h.step hcovered hroom) hrest⟩
    intro state hstate
    exact (h.mints hroom state hstate).not_holds

/-- Schema handles are never reused in a run whose operations are covered by the counter. -/
theorem minted_handles_fresh (sha256 : String → C) (ops : List (Op C))
    (hok : Along sha256 (fun registry op => registry.Roomy sha256 op ∧ registry.Covered sha256 op)
      ops new) :
    Along sha256 (MintsFresh sha256) ops new :=
  above_new.run ops hok

/-- A named type, a predeclared row, and its mirror under the handle it already has. -/
theorem minted_handles_fresh_row :
    Along id (MintsFresh id) [.registerType "A" [("x", .i64)], .registerPredeclaredAnySchema ["row"],
      .mirrorPredeclaredAnySchema ["row"] 2] new := by
  refine minted_handles_fresh id _ ⟨⟨?_, trivial⟩, ⟨?_, trivial⟩, ⟨?_, ?_⟩, trivial⟩
  · intro state hstate
    obtain rfl := List.mem_singleton.mp hstate
    exact (by decide : (1 : UInt32).toNat + 1 < 2 ^ 32)
  · intro state hstate
    obtain rfl := List.mem_singleton.mp hstate
    exact (by decide : (2 : UInt32).toNat + 1 < 2 ^ 32)
  · exact fun state hstate => absurd hstate List.not_mem_nil
  · exact (by decide : (2 : UInt32) < 3)

/-- Brings in handle 1 by a mirror, then registers a named type. -/
def mirrorThenType : List (Op String) :=
  [.mirrorPredeclaredAnySchema ["row"] 1, .registerType "A" [("x", .i64)]]

/-- Brings in handle 1 by a merge, then registers a named type. -/
def mergeThenType : List (Op String) :=
  [.merge .forward (step id new (.registerPredeclaredAnySchema ["row"])), .registerType "A" [("x", .i64)]]

/-- Neither a mirrored handle nor a merged predeclared one moves the counter: the next named type
receives the handle of the predeclared schema. -/
theorem predeclared_handle_reused :
    (Along id (Roomy id) mirrorThenType new ∧ ¬ Along id (MintsFresh id) mirrorThenType new) ∧
      Along id (Roomy id) mergeThenType new ∧ ¬ Along id (MintsFresh id) mergeThenType new := by
  have hroom : (1 : UInt32).toNat + 1 < 2 ^ 32 := by decide
  refine ⟨⟨⟨?_, ?_, trivial⟩, ?_⟩, ⟨?_, ?_, trivial⟩, ?_⟩
  · exact fun state hstate => absurd hstate List.not_mem_nil
  · intro state hstate
    obtain rfl := List.mem_singleton.mp hstate
    exact hroom
  · rintro ⟨-, hfresh, -⟩
    exact hfresh _ (List.mem_singleton.mpr rfl) (.predeclared _ rfl)
  · exact fun state hstate => absurd hstate List.not_mem_nil
  · intro state hstate
    obtain rfl := List.mem_singleton.mp hstate
    exact hroom
  · rintro ⟨-, hfresh, -⟩
    exact hfresh _ (List.mem_singleton.mpr rfl) (.predeclared _ rfl)

end TypeSchemaRegistry

end ShapeLang.Schemas
