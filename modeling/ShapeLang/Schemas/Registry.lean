import ShapeLang.Lib.HashMap

/-!
# Type schemas and their registry

A `TypeSchema` describes the layout of an object: fields in declaration order with computed offsets.
Its identity is a content hash over the name (for named types only), the fields and the enum
variants. A registry hands out small `SchemaId` handles for content ids: one counter serves the
interned handles and those of predeclared schemas.

SHA-256 is a parameter: a function from the hashed text to a content id.
-/

namespace ShapeLang.Schemas

open ShapeLang.Lib

/-! ## Schemas -/

abbrev SchemaId := UInt32

inductive FieldType where
  | f64
  | i64
  | bool
  | string
  | timestamp
  | array (inner : FieldType)
  | object (name : String)
  | decimal
  | any
  | i8
  | u8
  | i16
  | u16
  | i32
  | u32
  | u64
  | option (inner : FieldType)
  | hashMap (key value : FieldType)
  | set (inner : FieldType)
  deriving DecidableEq

/-- The `Display` form, which is what the content hash reads. -/
def FieldType.display : FieldType → String
  | .f64 => "number"
  | .i64 => "int"
  | .bool => "bool"
  | .string => "string"
  | .timestamp => "timestamp"
  | .decimal => "decimal"
  | .any => "any"
  | .array inner => inner.display ++ "[]"
  | .object name => name
  | .i8 => "i8"
  | .u8 => "u8"
  | .i16 => "i16"
  | .u16 => "u16"
  | .i32 => "i32"
  | .u32 => "u32"
  | .u64 => "u64"
  | .option inner => "Option<" ++ inner.display ++ ">"
  | .hashMap key value => "HashMap<" ++ key.display ++ ", " ++ value.display ++ ">"
  | .set inner => "Set<" ++ inner.display ++ ">"

/-- Every field takes one 8-byte slot. -/
def FieldType.size (_ : FieldType) : Nat := 8

def FieldType.alignment (_ : FieldType) : Nat := 8

structure FieldDef where
  name : String
  fieldType : FieldType
  offset : Nat
  deriving DecidableEq

structure EnumVariantInfo where
  name : String
  payloadFields : Nat
  deriving DecidableEq

structure TypeSchema where
  id : SchemaId
  name : String
  fields : List FieldDef
  enumInfo : Option (List EnumVariantInfo)
  deriving DecidableEq

/-- The next multiple of the alignment. -/
def alignUp (offset alignment : Nat) : Nat := (offset + alignment - 1) / alignment * alignment

def layoutFields : Nat → List (String × FieldType) → List FieldDef
  | _, [] => []
  | offset, (name, fieldType) :: rest =>
    let offset := alignUp offset fieldType.alignment
    { name, fieldType, offset } :: layoutFields (offset + fieldType.size) rest

def TypeSchema.withId (id : SchemaId) (name : String) (fieldDefs : List (String × FieldType)) :
    TypeSchema :=
  { id, name, fields := layoutFields 0 fieldDefs, enumInfo := none }

def maxPayloadFields (variants : List EnumVariantInfo) : Nat :=
  (variants.map EnumVariantInfo.payloadFields).foldl max 0

/-- Field 0 is the variant discriminator, the payload slots follow at offsets 8, 16 and so on. -/
def TypeSchema.newEnumWithId (id : SchemaId) (name : String) (variants : List EnumVariantInfo) :
    TypeSchema :=
  let payload := (List.range (maxPayloadFields variants)).map fun i =>
    ({ name := s!"__payload_{i}", fieldType := .any, offset := 8 + i * 8 } : FieldDef)
  { id, name
    fields := { name := "__variant", fieldType := .i64, offset := 0 } :: payload
    enumInfo := some variants }

def startsWith (lead text : String) : Bool := lead.toList.isPrefixOf text.toList

def schemaNameIsAnonymous (name : String) : Bool :=
  startsWith "__inline_obj_" name || startsWith "__merged_" name || startsWith "__predecl_" name

/-- The text that `compute_content_hash` feeds to the hasher, after the version tag. -/
def TypeSchema.contentText (schema : TypeSchema) : String :=
  (if schemaNameIsAnonymous schema.name then "anon:" else "name:" ++ schema.name) ++
    "|fields:" ++ String.join (schema.fields.map fun field =>
      "(" ++ field.name ++ ":" ++ field.fieldType.display ++ ")") ++
    match schema.enumInfo with
    | none => ""
    | some variants => "|variants:" ++ String.join (variants.map fun variant =>
        "(" ++ variant.name ++ ":" ++ toString variant.payloadFields ++ ")")

/-! ## The registry -/

structure TypeSchemaRegistry (C : Type) where
  nextId : UInt32
  byContent : HashMap C SchemaId
  byName : HashMap String TypeSchema
  byId : HashMap SchemaId String
  predeclaredCache : HashMap String SchemaId
  predeclaredById : HashMap SchemaId TypeSchema

section

variable {C : Type} [DecidableEq C] (sha256 : String → C)

def TypeSchema.contentId (schema : TypeSchema) : C := sha256 schema.contentText

namespace TypeSchemaRegistry

def new : TypeSchemaRegistry C :=
  { nextId := 1, byContent := ∅, byName := ∅, byId := ∅, predeclaredCache := ∅, predeclaredById := ∅ }

def get (registry : TypeSchemaRegistry C) (name : String) : Option TypeSchema := registry.byName.lookup name

def getById (registry : TypeSchemaRegistry C) (id : SchemaId) : Option TypeSchema :=
  (registry.byId.lookup id).bind registry.get

def lookupPredeclaredById (registry : TypeSchemaRegistry C) (id : SchemaId) : Option TypeSchema :=
  registry.predeclaredById.lookup id

/-- `lookup_schema_by_id`: the named schemas come first. -/
def lookupSchemaById (registry : TypeSchemaRegistry C) (id : SchemaId) : Option TypeSchema :=
  match registry.getById id with
  | some schema => some schema
  | none => registry.lookupPredeclaredById id

/-- `fetch_add` on the 32-bit counter. -/
def allocateId (registry : TypeSchemaRegistry C) : TypeSchemaRegistry C × SchemaId :=
  ({ registry with nextId := registry.nextId + 1 }, registry.nextId)

/-- The single mint: known content keeps its handle, new content takes the next one. -/
def internContent (registry : TypeSchemaRegistry C) (contentId : C) : TypeSchemaRegistry C × SchemaId :=
  match registry.byContent.lookup contentId with
  | some handle => (registry, handle)
  | none =>
    let (registry, handle) := registry.allocateId
    ({ registry with byContent := registry.byContent.insert contentId handle }, handle)

def saturatingSucc (id : SchemaId) : UInt32 := if id = 0xFFFFFFFF then id else id + 1

def advanceCounterPast (registry : TypeSchemaRegistry C) (id : SchemaId) : TypeSchemaRegistry C :=
  if registry.nextId < saturatingSucc id then { registry with nextId := saturatingSucc id } else registry

/-- The index and the largest handle after a walk over the named schemas. -/
def indexSchemas : List TypeSchema → HashMap C SchemaId → SchemaId → HashMap C SchemaId × SchemaId
  | [], byContent, maxId => (byContent, maxId)
  | schema :: rest, byContent, maxId =>
    indexSchemas rest (orInsert byContent (schema.contentId sha256) schema.id) (max maxId schema.id)

def rebuildContentIndex (order : HashOrder String) (registry : TypeSchemaRegistry C) :
    TypeSchemaRegistry C :=
  let schemas := (order.walk [0] registry.byName.keys).filterMap registry.byName.lookup
  let (byContent, maxId) := indexSchemas sha256 schemas registry.byContent 0
  { registry with byContent }.advanceCounterPast maxId

/-- A name that moves to another handle drops its old one. -/
def dropMovedHandle (registry : TypeSchemaRegistry C) (schema : TypeSchema) : HashMap SchemaId String :=
  match registry.byName.lookup schema.name with
  | some prev => if prev.id ≠ schema.id then registry.byId.erase prev.id else registry.byId
  | none => registry.byId

def register (registry : TypeSchemaRegistry C) (schema : TypeSchema) : TypeSchemaRegistry C :=
  let registry := { registry with
    byContent := orInsert registry.byContent (schema.contentId sha256) schema.id }
  let registry := registry.advanceCounterPast schema.id
  { registry with
    byId := (registry.dropMovedHandle schema).insert schema.id schema.name
    byName := registry.byName.insert schema.name schema }

/-- Interns the content of a fresh schema and registers it under its handle. -/
def registerFresh (registry : TypeSchemaRegistry C) (schema : TypeSchema) :
    TypeSchemaRegistry C × SchemaId :=
  let (registry, id) := registry.internContent (schema.contentId sha256)
  (registry.register sha256 { schema with id }, id)

def registerTypeScoped (registry : TypeSchemaRegistry C) (name : String)
    (fields : List (String × FieldType)) :
    TypeSchemaRegistry C × SchemaId :=
  registry.registerFresh sha256 (.withId 0 name fields)

def registerType (registry : TypeSchemaRegistry C) (name : String) (fields : List (String × FieldType)) :
    TypeSchemaRegistry C × SchemaId :=
  registry.registerTypeScoped sha256 name fields

def registerEnumScoped (registry : TypeSchemaRegistry C) (name : String) (variants : List EnumVariantInfo) :
    TypeSchemaRegistry C × SchemaId :=
  registry.registerFresh sha256 (.newEnumWithId 0 name variants)

/-- The union of the fields a schema has and those requested, and whether it grew. -/
def unionFields : List (String × FieldType) → List (String × FieldType) → List (String × FieldType) × Bool
  | merged, [] => (merged, false)
  | merged, (fieldName, fieldType) :: rest =>
    if merged.any fun field => field.1 = fieldName then unionFields merged rest
    else ((unionFields (merged ++ [(fieldName, fieldType)]) rest).1, true)

def upsertTypeScopedUnionFields (registry : TypeSchemaRegistry C) (name : String)
    (fields : List (String × FieldType)) : TypeSchemaRegistry C × SchemaId :=
  match registry.byName.lookup name with
  | some existing =>
    let (merged, changed) :=
      unionFields (existing.fields.map fun field => (field.name, field.fieldType)) fields
    -- The schema grows in place, under its stable handle.
    if changed then (registry.register sha256 (.withId existing.id name merged), existing.id)
    else (registry, existing.id)
  | none => registry.registerTypeScoped sha256 name fields

/-! ### Predeclared schemas -/

def predeclaredCacheKey (fields : List String) : String := "\x1f".intercalate fields

def predeclaredTypedCacheKey (fields : List (String × FieldType)) : String :=
  "\x1f".intercalate (fields.map fun field => field.1 ++ "\x1e" ++ field.2.display)

def predeclaredName (fields : List String) : String := "__predecl_" ++ "_".intercalate fields

/-- Returns the cached handle of the key, or allocates one and stores the schema under it. -/
def registerPredeclared (registry : TypeSchemaRegistry C) (key : String)
    (fields : List (String × FieldType)) :
    TypeSchemaRegistry C × SchemaId :=
  match registry.predeclaredCache.lookup key with
  | some id => (registry, id)
  | none =>
    let (registry, id) := registry.allocateId
    let schema := TypeSchema.withId id (predeclaredName (fields.map Prod.fst)) fields
    ({ registry with
      predeclaredById := registry.predeclaredById.insert id schema
      predeclaredCache := registry.predeclaredCache.insert key id }, id)

def registerPredeclaredTypedSchema (registry : TypeSchemaRegistry C) (fields : List (String × FieldType)) :
    TypeSchemaRegistry C × SchemaId :=
  registry.registerPredeclared (predeclaredTypedCacheKey fields) fields

def registerPredeclaredAnySchema (registry : TypeSchemaRegistry C) (fields : List String) :
    TypeSchemaRegistry C × SchemaId :=
  registry.registerPredeclared (predeclaredCacheKey fields) (fields.map fun name => (name, .any))

/-- Stores a predeclared schema under a handle that the caller brings along. -/
def mirrorPredeclaredAnySchema (registry : TypeSchemaRegistry C) (fields : List String) (id : SchemaId) :
    TypeSchemaRegistry C :=
  let key := predeclaredCacheKey fields
  if registry.predeclaredCache.lookup key = some id then registry
  else
    let schema := TypeSchema.withId id (predeclaredName fields) (fields.map fun name => (name, .any))
    { registry with
      predeclaredById := orInsert registry.predeclaredById id schema
      predeclaredCache := orInsert registry.predeclaredCache key id }

/-! ### Merging -/

/-- One named schema of the other registry. A known name keeps its schema, a new one is interned here. -/
def mergeSchema (registry : TypeSchemaRegistry C) (remap : HashMap SchemaId SchemaId) (schema : TypeSchema)
    (name : String) : TypeSchemaRegistry C × HashMap SchemaId SchemaId :=
  match registry.byName.lookup name with
  | some existing =>
    (registry, if existing.id ≠ schema.id then remap.insert schema.id existing.id else remap)
  | none =>
    let (registry, newId) := registry.internContent (schema.contentId sha256)
    ({ registry with
      byId := registry.byId.insert newId name
      byName := registry.byName.insert name { schema with id := newId } },
      if newId ≠ schema.id then remap.insert schema.id newId else remap)

def mergeNames (other : TypeSchemaRegistry C) :
    List String → TypeSchemaRegistry C → HashMap SchemaId SchemaId →
      TypeSchemaRegistry C × HashMap SchemaId SchemaId
  | [], registry, remap => (registry, remap)
  | name :: rest, registry, remap =>
    match other.byName.lookup name with
    | none => mergeNames other rest registry remap
    | some schema =>
      let (registry, remap) := registry.mergeSchema sha256 remap schema name
      mergeNames other rest registry remap

/-- First registration wins. -/
def mergePredeclared (registry other : TypeSchemaRegistry C) : TypeSchemaRegistry C :=
  { registry with
    predeclaredById := orInsertAll registry.predeclaredById other.predeclaredById
    predeclaredCache := orInsertAll registry.predeclaredCache other.predeclaredCache }

/-- The named schemas of the other registry, in the order of the walk. -/
def mergeNamed (order : HashOrder String) (registry other : TypeSchemaRegistry C) :
    TypeSchemaRegistry C × HashMap SchemaId SchemaId :=
  mergeNames sha256 other (order.walk [1] other.byName.keys) registry ∅

def merge (order : HashOrder String) (registry other : TypeSchemaRegistry C) :
    TypeSchemaRegistry C × HashMap SchemaId SchemaId :=
  let (registry, remap) := registry.mergeNamed sha256 order other
  ((registry.mergePredeclared other).rebuildContentIndex sha256 order, remap)

end TypeSchemaRegistry

end

end ShapeLang.Schemas
