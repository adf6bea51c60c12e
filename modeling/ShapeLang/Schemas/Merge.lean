import ShapeLang.Schemas.Handles

/-!
# Merging registries

`merge` takes the named schemas of another registry in: a name that is known keeps its own schema, a
new one is interned by its content, and the returned map translates the handles of the other
registry. Predeclared schemas keep their handles.

Where handles and contents correspond in both registries (`Coherent`, which every registry that
mints its own handles has), the translation is right for every handle none of whose names is known
already; a known name wins.

A handle is looked up among the named schemas first. Named and predeclared schemas take their
handles from one counter, so a predeclared handle that comes in untranslated may be that of a named
schema here.
-/

namespace ShapeLang.Schemas

open ShapeLang.Lib

namespace TypeSchemaRegistry

variable {C : Type} [DecidableEq C] {sha256 : String → C} {registry : TypeSchemaRegistry C}

/-! ## Handles and contents correspond -/

variable (sha256) in
/-- Each named schema is indexed under its handle, and no handle stands for two contents. -/
structure Coherent (registry : TypeSchemaRegistry C) : Prop where
  above : registry.Above
  indexed : ∀ name schema, registry.byName.lookup name = some schema →
    registry.byContent.lookup (schema.contentId sha256) = some schema.id
  separate : ∀ c c' h, registry.byContent.lookup c = some h → registry.byContent.lookup c' = some h → c = c'
  handles : ∀ h name, registry.byId.lookup h = some name →
    ∃ schema, registry.byName.lookup name = some schema ∧ schema.id = h
  predeclared : ∀ h schema, registry.predeclaredById.lookup h = some schema →
    ∀ c, registry.byContent.lookup c ≠ some h

theorem coherent_new : (new : TypeSchemaRegistry C).Coherent sha256 :=
  ⟨above_new, fun _ _ h => (by cases h), fun _ _ _ h => (by cases h), fun _ _ h => (by cases h),
    fun _ _ h => (by cases h)⟩

/-- Interning touches the content index and the counter only. -/
theorem internContent_tables (registry : TypeSchemaRegistry C) (content : C) :
    (registry.internContent content).1.byName = registry.byName ∧
      (registry.internContent content).1.byId = registry.byId ∧
      (registry.internContent content).1.predeclaredById = registry.predeclaredById := by
  unfold internContent
  cases registry.byContent.lookup content with
  | some handle => exact ⟨rfl, rfl, rfl⟩
  | none => exact ⟨rfl, rfl, rfl⟩

/-- Interning keeps what is indexed, and the content is indexed under the handle it returns. -/
theorem internContent_index (registry : TypeSchemaRegistry C) (content : C) :
    (registry.internContent content).1.byContent.lookup content = some (registry.internContent content).2 ∧
      ∀ c h, registry.byContent.lookup c = some h →
        (registry.internContent content).1.byContent.lookup c = some h := by
  unfold internContent
  cases hlookup : registry.byContent.lookup content with
  | some handle => exact ⟨hlookup, fun c h hc => hc⟩
  | none =>
    refine ⟨AList.lookup_insert _, ?_⟩
    intro c h hc
    have hne : c ≠ content := by
      rintro rfl
      rw [hlookup] at hc
      cases hc
    exact (AList.lookup_insert_ne hne).trans hc

theorem Coherent.internContent (h : registry.Coherent sha256) {content : C}
    (hroom : registry.byContent.lookup content = none → registry.HasRoom) :
    (registry.internContent content).1.Coherent sha256 := by
  obtain ⟨hnames, hids, hpre⟩ := internContent_tables registry content
  obtain ⟨-, hkept⟩ := internContent_index registry content
  refine ⟨(h.above.internContent hroom).1, ?_, ?_, ?_, ?_⟩
  · intro name schema hname
    exact hkept _ _ (h.indexed name schema (hnames ▸ hname))
  · unfold TypeSchemaRegistry.internContent
    cases hlookup : registry.byContent.lookup content with
    | some handle => exact h.separate
    | none =>
      -- The new handle is the counter's value, which no content has yet.
      have hfresh : ∀ c, registry.byContent.lookup c ≠ some registry.nextId :=
        fun c hc => absurd (h.above.byContent c _ hc) (UInt32.lt_irrefl _)
      intro c c' i hc hc'
      rcases lookup_insert_eq_some hc with ⟨rfl, hi⟩ | hold
      · rcases lookup_insert_eq_some hc' with ⟨rfl, -⟩ | hold'
        · rfl
        · have hi' : i = registry.nextId := hi
          exact absurd (hi' ▸ hold') (hfresh c')
      · rcases lookup_insert_eq_some hc' with ⟨rfl, hi⟩ | hold'
        · have hi' : i = registry.nextId := hi
          exact absurd (hi' ▸ hold) (hfresh c)
        · exact h.separate c c' i hold hold'
  · intro i name hi
    rw [hids] at hi
    rw [hnames]
    exact h.handles i name hi
  · intro i schema hi
    rw [hpre] at hi
    unfold TypeSchemaRegistry.internContent
    cases hlookup : registry.byContent.lookup content with
    | some handle => exact h.predeclared i schema hi
    | none =>
      intro c hc
      rcases lookup_insert_eq_some hc with ⟨-, hnext⟩ | hold
      · have hi' : i = registry.nextId := hnext
        exact absurd (hi' ▸ h.above.predeclared i schema hi) (UInt32.lt_irrefl _)
      · exact h.predeclared i schema hi c hold

variable {name : String}

/-- Giving a name to an indexed schema, with the handle table rid of the name's old handle. -/
theorem Coherent.setName (h : registry.Coherent sha256) (schema : TypeSchema)
    (hindexed : registry.byContent.lookup (schema.contentId sha256) = some schema.id)
    {byId : HashMap SchemaId String}
    (hids : ∀ i n, i ≠ schema.id → byId.lookup i = some n → registry.byId.lookup i = some n ∧
      n ≠ name) :
    { registry with
      byId := byId.insert schema.id name
      byName := registry.byName.insert name schema }.Coherent sha256 := by
  have hlt := h.above.byContent _ _ hindexed
  refine ⟨⟨?_, h.above.byContent, ?_, h.above.predeclared⟩, ?_, h.separate, ?_, h.predeclared⟩
  · intro i n hi
    by_cases hne : i = schema.id
    · rw [hne]
      exact hlt
    · have hold : byId.lookup i = some n := (AList.lookup_insert_ne hne).symm.trans hi
      exact h.above.byId i n (hids i n hne hold).1
  · intro n s hs
    rcases lookup_insert_eq_some hs with ⟨-, rfl⟩ | hold
    · exact hlt
    · exact h.above.byName n s hold
  · intro n s hs
    rcases lookup_insert_eq_some hs with ⟨-, rfl⟩ | hold
    · exact hindexed
    · exact h.indexed n s hold
  · intro i n hi
    by_cases hne : i = schema.id
    · subst hne
      obtain rfl : n = name := by
        have hself : (byId.insert schema.id name).lookup schema.id = some name := AList.lookup_insert _
        exact Option.some.inj (hi.symm.trans hself)
      exact ⟨schema, AList.lookup_insert _, rfl⟩
    · have hold : byId.lookup i = some n := (AList.lookup_insert_ne hne).symm.trans hi
      obtain ⟨hid, hname⟩ := hids i n hne hold
      obtain ⟨s, hs, hsid⟩ := h.handles i n hid
      exact ⟨s, (AList.lookup_insert_ne hname).trans hs, hsid⟩

variable {schema : TypeSchema}

theorem Coherent.register (h : registry.Coherent sha256)
    (hindexed : registry.byContent.lookup (schema.contentId sha256) = some schema.id) :
    (registry.register sha256 schema).Coherent sha256 := by
  have hlt := h.above.byContent _ _ hindexed
  -- Content and counter are as they should be already.
  have hindex : orInsert registry.byContent (schema.contentId sha256) schema.id = registry.byContent := by
    unfold orInsert
    rw [hindexed]
    rfl
  have hadvance : registry.advanceCounterPast schema.id = registry := by
    refine if_neg (UInt32.not_lt.mpr ?_)
    have hid := toNat_succ_lt_of_lt hlt
    have hlt' := UInt32.lt_iff_toNat_lt.mp hlt
    have hne : schema.id ≠ 0xFFFFFFFF := by
      intro heq
      rw [heq] at hid
      exact absurd hid (by decide)
    unfold saturatingSucc
    rw [if_neg hne, UInt32.le_iff_toNat_le, UInt32.toNat_add]
    show (schema.id.toNat + 1) % 2 ^ 32 ≤ registry.nextId.toNat
    omega
  have hregister : registry.register sha256 schema = { registry with
      byId := (registry.dropMovedHandle schema).insert schema.id schema.name
      byName := registry.byName.insert schema.name schema } := by
    unfold TypeSchemaRegistry.register
    simp only [hindex, hadvance]
  rw [hregister]
  refine h.setName schema hindexed ?_
  intro i n hne hi
  obtain ⟨hold, hmoved⟩ := lookup_dropMovedHandle hi
  refine ⟨hold, ?_⟩
  rintro rfl
  obtain ⟨prev, hprev, rfl⟩ := h.handles i _ hold
  exact hmoved prev hprev hne rfl

theorem Coherent.registerFresh (h : registry.Coherent sha256)
    (hroom : registry.byContent.lookup (schema.contentId sha256) = none → registry.HasRoom) :
    (registry.registerFresh sha256 schema).1.Coherent sha256 :=
  (h.internContent hroom).register (internContent_index registry (schema.contentId sha256)).1

theorem Coherent.registerPredeclared (h : registry.Coherent sha256) {key : String}
    {fields : List (String × FieldType)}
    (hroom : registry.predeclaredCache.lookup key = none → registry.HasRoom) :
    (registry.registerPredeclared key fields).1.Coherent sha256 := by
  have habove : (registry.registerPredeclared key fields).1.Above := h.above.registerPredeclared hroom
  unfold TypeSchemaRegistry.registerPredeclared at habove ⊢
  cases hkey : registry.predeclaredCache.lookup key with
  | some id => exact h
  | none =>
    rw [hkey] at habove
    refine ⟨habove, h.indexed, h.separate, h.handles, ?_⟩
    intro i schema hi c hc
    rcases lookup_insert_eq_some hi with ⟨hnext, -⟩ | hold
    · have hi' : i = registry.nextId := hnext
      exact absurd (hi' ▸ h.above.byContent c i hc) (UInt32.lt_irrefl _)
    · exact h.predeclared i schema hold c hc

/-- The registrations that take their handles from the registry's own counter. -/
inductive Op.Minting : Op C → Prop
  | registerType (name : String) (fields : List (String × FieldType)) : Minting (.registerType name fields)
  | registerEnumScoped (name : String) (variants : List EnumVariantInfo) :
    Minting (.registerEnumScoped name variants)
  | registerPredeclaredAnySchema (fields : List String) : Minting (.registerPredeclaredAnySchema fields)
  | registerPredeclaredTypedSchema (fields : List (String × FieldType)) :
    Minting (.registerPredeclaredTypedSchema fields)

/-- A registry built by registrations that mint their handles is coherent. -/
theorem Coherent.run (ops : List (Op C)) (h : registry.Coherent sha256)
    (hok : Along sha256 (fun registry op => registry.Roomy sha256 op ∧ op.Minting) ops registry) :
    (ops.foldl (step sha256) registry).Coherent sha256 := by
  induction ops generalizing registry with
  | nil => exact h
  | cons op rest ih =>
    obtain ⟨⟨hroom, hminting⟩, hrest⟩ := hok
    refine ih ?_ hrest
    cases hminting with
    | registerType name fields => exact h.registerFresh (hasRoom_of_internMints hroom)
    | registerEnumScoped name variants => exact h.registerFresh (hasRoom_of_internMints hroom)
    | registerPredeclaredAnySchema fields => exact h.registerPredeclared (hasRoom_of_predeclaredMints hroom)
    | registerPredeclaredTypedSchema fields =>
      exact h.registerPredeclared (hasRoom_of_predeclaredMints hroom)

/-! ## The walk over the other registry -/

variable {base other : TypeSchemaRegistry C}

variable (sha256 base other) in
/-- What holds after the names in `done`: the registry keeps everything of `base`, has the schemas
of `other` under all other names, and the remap leads from the handles of `other` to those of the
schemas of the same name. -/
structure Merging (done : List String) (registry : TypeSchemaRegistry C)
    (remap : HashMap SchemaId SchemaId) :
    Prop where
  coherent : registry.Coherent sha256
  kept : ∀ name schema, base.byName.lookup name = some schema → registry.byName.lookup name = some schema
  origin : ∀ name schema, registry.byName.lookup name = some schema → base.byName.lookup name =
    some schema ∨
    ∃ theirs, other.byName.lookup name = some theirs ∧ schema = { theirs with id := schema.id }
  resolvable : ∀ name schema, registry.byName.lookup name = some schema → base.byName.lookup name = none →
    ∃ name', registry.byId.lookup schema.id = some name'
  taken : ∀ name ∈ done, ∀ theirs, other.byName.lookup name = some theirs →
    ∃ schema, registry.byName.lookup name = some schema
  handles : ∀ h name, base.byId.lookup h = some name → ∃ name', registry.byId.lookup h = some name'
  remapped : ∀ h t, remap.lookup h = some t → ∃ name theirs schema, other.byName.lookup name = some theirs ∧
    theirs.id = h ∧ registry.byName.lookup name = some schema ∧ schema.id = t
  complete : ∀ name ∈ done, ∀ theirs schema, other.byName.lookup name = some theirs →
    registry.byName.lookup name = some schema → schema.id ≠ theirs.id → (remap.lookup theirs.id).isSome

theorem merging_start (h : base.Coherent sha256) : Merging sha256 base other [] base ∅ where
  coherent := h
  kept := fun _ _ hs => hs
  origin := fun _ _ hs => Or.inl hs
  resolvable := fun _ _ hs hnone => by
    rw [hnone] at hs
    cases hs
  taken := fun _ hname => absurd hname List.not_mem_nil
  handles := fun _ name hname => ⟨name, hname⟩
  remapped := fun _ _ hr => by cases hr
  complete := fun _ hname => absurd hname List.not_mem_nil

variable {remap : HashMap SchemaId SchemaId}

/-- A remap entry is only ever added. -/
theorem isSome_lookup_insert_if {a b h : SchemaId} (hh : (remap.lookup h).isSome) :
    ((if b ≠ a then remap.insert a b else remap).lookup h).isSome := by
  split
  · by_cases hha : h = a
    · subst hha
      rw [AList.lookup_insert]
      rfl
    · rw [AList.lookup_insert_ne hha]
      exact hh
  · exact hh

theorem lookup_insert_if_eq_some {a b h t : SchemaId}
    (hh : (if b ≠ a then remap.insert a b else remap).lookup h = some t) :
    (h = a ∧ t = b) ∨ remap.lookup h = some t := by
  split at hh
  · exact lookup_insert_eq_some hh
  · exact Or.inr hh

variable {done : List String} {theirs : TypeSchema}

/-- A name that is known: only the remap changes. -/
theorem Merging.known {existing : TypeSchema} (h : Merging sha256 base other done registry remap)
    (htheirs : other.byName.lookup name = some theirs)
    (hexisting : registry.byName.lookup name = some existing) :
    Merging sha256 base other (done ++ [name]) registry
      (if existing.id ≠ theirs.id then remap.insert theirs.id existing.id else remap) := by
  refine ⟨h.coherent, h.kept, h.origin, h.resolvable, ?_, h.handles, ?_, ?_⟩
  · intro n hn theirs' htheirs'
    rcases List.mem_append.mp hn with hn | hn
    · exact h.taken n hn theirs' htheirs'
    · obtain rfl := List.mem_singleton.mp hn
      exact ⟨existing, hexisting⟩
  · intro i t ht
    rcases lookup_insert_if_eq_some ht with ⟨rfl, rfl⟩ | hold
    · exact ⟨name, theirs, existing, htheirs, rfl, hexisting, rfl⟩
    · exact h.remapped i t hold
  · intro n hn theirs' schema htheirs' hschema hne
    rcases List.mem_append.mp hn with hn | hn
    · exact isSome_lookup_insert_if (h.complete n hn theirs' schema htheirs' hschema hne)
    · obtain rfl := List.mem_singleton.mp hn
      obtain rfl := Option.some.inj (htheirs.symm.trans htheirs')
      obtain rfl := Option.some.inj (hexisting.symm.trans hschema)
      rw [if_pos hne, AList.lookup_insert]
      rfl

theorem exists_lookup_insert {κ β : Type} [DecidableEq κ] {map : HashMap κ β} {key key' : κ} {value : β}
    (h : ∃ v, map.lookup key' = some v) : ∃ v, (map.insert key value).lookup key' = some v := by
  by_cases hkey : key' = key
  · subst hkey
    exact ⟨value, AList.lookup_insert _⟩
  · rw [AList.lookup_insert_ne hkey]
    exact h

/-- A new name: its content is interned and the schema takes that handle. -/
theorem Merging.fresh (h : Merging sha256 base other done registry remap)
    (htheirs : other.byName.lookup name = some theirs) (hnone : registry.byName.lookup name = none)
    (hroom : registry.byContent.lookup (theirs.contentId sha256) = none → registry.HasRoom) :
    Merging sha256 base other (done ++ [name]) (registry.mergeSchema sha256 remap theirs name).1
      (registry.mergeSchema sha256 remap theirs name).2 := by
  obtain ⟨hnames, hids, -⟩ := internContent_tables registry (theirs.contentId sha256)
  obtain ⟨hindexed, -⟩ := internContent_index registry (theirs.contentId sha256)
  have hcoherent := h.coherent.internContent hroom
  have hmerge : registry.mergeSchema sha256 remap theirs name =
      ({ (registry.internContent (theirs.contentId sha256)).1 with
          byId := (registry.internContent (theirs.contentId sha256)).1.byId.insert
            (registry.internContent (theirs.contentId sha256)).2 name
          byName := (registry.internContent (theirs.contentId sha256)).1.byName.insert name
            { theirs with id := (registry.internContent (theirs.contentId sha256)).2 } },
        if (registry.internContent (theirs.contentId sha256)).2 ≠ theirs.id then
          remap.insert theirs.id (registry.internContent (theirs.contentId sha256)).2
        else remap) := by
    unfold mergeSchema
    rw [hnone]
  rw [hmerge]
  generalize registry.internContent (theirs.contentId sha256) = interned at hnames hids hindexed hcoherent
  obtain ⟨state, newId⟩ := interned
  simp only at hnames hids hindexed hcoherent ⊢
  have hne : ∀ n schema, registry.byName.lookup n = some schema → n ≠ name := by
    rintro n schema hn rfl
    rw [hnone] at hn
    cases hn
  -- Old names read as before.
  have hold : ∀ n schema, registry.byName.lookup n = some schema →
      (state.byName.insert name { theirs with id := newId }).lookup n = some schema := by
    intro n schema hn
    rw [AList.lookup_insert_ne (hne n schema hn), hnames]
    exact hn
  refine ⟨?_, ?_, ?_, ?_, ?_, ?_, ?_, ?_⟩
  · refine hcoherent.setName { theirs with id := newId } hindexed ?_
    intro i n _ hi
    refine ⟨hi, ?_⟩
    obtain ⟨schema, hschema, -⟩ := hcoherent.handles i n hi
    exact hne n schema (hnames ▸ hschema)
  · intro n schema hn
    exact hold n schema (h.kept n schema hn)
  · intro n schema hn
    rcases lookup_insert_eq_some hn with ⟨rfl, rfl⟩ | hn'
    · exact Or.inr ⟨theirs, htheirs, rfl⟩
    · exact h.origin n schema (hnames ▸ hn')
  · intro n schema hn hbase
    rcases lookup_insert_eq_some hn with ⟨rfl, rfl⟩ | hn'
    · exact ⟨n, AList.lookup_insert _⟩
    · exact exists_lookup_insert (hids ▸ h.resolvable n schema (hnames ▸ hn') hbase)
  · intro n hn theirs' htheirs'
    rcases List.mem_append.mp hn with hn | hn
    · exact exists_lookup_insert (hnames ▸ h.taken n hn theirs' htheirs')
    · obtain rfl := List.mem_singleton.mp hn
      exact ⟨_, AList.lookup_insert _⟩
  · intro i n hn
    exact exists_lookup_insert (hids ▸ h.handles i n hn)
  · intro i t ht
    rcases lookup_insert_if_eq_some ht with ⟨rfl, rfl⟩ | hremap
    · exact ⟨name, theirs, _, htheirs, rfl, AList.lookup_insert _, rfl⟩
    · obtain ⟨n, theirs', schema, htheirs', hid, hschema, ht'⟩ := h.remapped i t hremap
      exact ⟨n, theirs', schema, htheirs', hid, hold n schema hschema, ht'⟩
  · intro n hn theirs' schema htheirs' hschema hdiff
    rcases lookup_insert_eq_some hschema with ⟨rfl, rfl⟩ | hn'
    · obtain rfl := Option.some.inj (htheirs.symm.trans htheirs')
      rw [if_pos hdiff, AList.lookup_insert]
      rfl
    · rw [hnames] at hn'
      rcases List.mem_append.mp hn with hn | hn
      · exact isSome_lookup_insert_if (h.complete n hn theirs' schema htheirs' hn' hdiff)
      · exact absurd (List.mem_singleton.mp hn) (hne n schema hn')

theorem Merging.step {done : List String} {remap : HashMap SchemaId SchemaId} {name : String}
    {theirs : TypeSchema} (h : Merging sha256 base other done registry remap)
    (htheirs : other.byName.lookup name = some theirs) (hroom : registry.byName.lookup name = none →
      registry.byContent.lookup (theirs.contentId sha256) = none → registry.HasRoom) :
    Merging sha256 base other (done ++ [name]) (registry.mergeSchema sha256 remap theirs name).1
      (registry.mergeSchema sha256 remap theirs name).2 := by
  cases hname : registry.byName.lookup name with
  | some existing =>
    have hmerge : registry.mergeSchema sha256 remap theirs name =
        (registry, if existing.id ≠ theirs.id then remap.insert theirs.id existing.id else remap) := by
      unfold mergeSchema
      rw [hname]
    rw [hmerge]
    exact h.known htheirs hname
  | none => exact h.fresh htheirs hname (hroom hname)

variable (names : List String)

theorem Merging.run (h : Merging sha256 base other done registry remap)
    (hroom : ∀ state ∈ mergeMints sha256 other names registry remap, state.HasRoom) :
    Merging sha256 base other (done ++ names) (mergeNames sha256 other names registry remap).1
      (mergeNames sha256 other names registry remap).2 := by
  induction names generalizing done registry remap with
  | nil =>
    rw [List.append_nil]
    exact h
  | cons name rest ih =>
    rw [List.append_cons]
    unfold mergeNames
    unfold mergeMints at hroom
    cases htheirs : other.byName.lookup name with
    | none =>
      rw [htheirs] at hroom
      refine ih ⟨h.coherent, h.kept, h.origin, h.resolvable, ?_, h.handles, h.remapped, ?_⟩ hroom
      · intro n hn theirs' htheirs'
        rcases List.mem_append.mp hn with hn | hn
        · exact h.taken n hn theirs' htheirs'
        · obtain rfl := List.mem_singleton.mp hn
          rw [htheirs] at htheirs'
          cases htheirs'
      · intro n hn theirs' schema htheirs'
        rcases List.mem_append.mp hn with hn | hn
        · exact h.complete n hn theirs' schema htheirs'
        · obtain rfl := List.mem_singleton.mp hn
          rw [htheirs] at htheirs'
          cases htheirs'
    | some theirs =>
      rw [htheirs] at hroom
      obtain ⟨hfirst, hrest⟩ := List.forall_mem_append.mp hroom
      refine ih (h.step htheirs ?_) hrest
      intro hname hcontent
      rw [hname] at hfirst
      exact hasRoom_of_internMints hfirst hcontent

/-! ## What a merge translates -/

variable (sha256 base other) in
/-- Among the named schemas of both registries, the hashed text determines the fields. -/
def Legible : Prop :=
  ∀ name name' schema schema', (base.byName.lookup name = some schema ∨ other.byName.lookup name =
    some schema) →
    (base.byName.lookup name' = some schema' ∨ other.byName.lookup name' = some schema') →
    schema.contentText = schema'.contentText → schema.fields = schema'.fields

variable {name' : String} {schema' : TypeSchema}

theorem Merging.fields_eq (h : Merging sha256 base other done registry remap)
    (hsha : Function.Injective sha256) (hlegible : Legible base other)
    (hschema : registry.byName.lookup name = some schema)
    (hschema' : registry.byName.lookup name' = some schema') (hid : schema.id = schema'.id) :
    schema.fields = schema'.fields := by
  -- Both come from one of the two registries, up to their handle.
  have hsource : ∀ n s, registry.byName.lookup n = some s →
      ∃ s₀, (base.byName.lookup n = some s₀ ∨ other.byName.lookup n = some s₀) ∧
        s.contentText = s₀.contentText ∧ s.fields = s₀.fields := by
    intro n s hs
    rcases h.origin n s hs with hbase | ⟨theirs, htheirs, hs'⟩
    · exact ⟨s, Or.inl hbase, rfl, rfl⟩
    · refine ⟨theirs, Or.inr htheirs, ?_, ?_⟩
      · rw [hs']
        rfl
      · rw [hs']
  obtain ⟨s₀, hs₀, htext, hfields⟩ := hsource name schema hschema
  obtain ⟨s₀', hs₀', htext', hfields'⟩ := hsource name' schema' hschema'
  have hcontent : schema.contentId sha256 = schema'.contentId sha256 :=
    h.coherent.separate _ _ schema.id (h.coherent.indexed name schema hschema)
      (hid ▸ h.coherent.indexed name' schema' hschema')
  rw [hfields, hfields']
  apply hlegible name name' s₀ s₀' hs₀ hs₀'
  rw [← htext, ← htext']
  exact hsha hcontent

variable {i : SchemaId}

theorem Merging.getById (h : Merging sha256 base other done registry remap)
    (hi : registry.byId.lookup i = some name) :
    ∃ schema, registry.getById i = some schema ∧ registry.byName.lookup name = some schema ∧
      schema.id = i := by
  obtain ⟨schema, hschema, hid⟩ := h.coherent.handles i name hi
  refine ⟨schema, ?_, hschema, hid⟩
  unfold TypeSchemaRegistry.getById
  rw [hi]
  exact hschema

omit [DecidableEq C] in
theorem getById_eq_some (h : registry.getById i = some schema) :
    ∃ name, registry.byId.lookup i = some name ∧ registry.byName.lookup name = some schema :=
  Option.bind_eq_some_iff.mp h

theorem mergeNames_predeclaredById (remap : HashMap SchemaId SchemaId) :
    (mergeNames sha256 other names registry remap).1.predeclaredById = registry.predeclaredById := by
  induction names generalizing registry remap with
  | nil => rfl
  | cons name rest ih =>
    unfold mergeNames
    split
    · exact ih remap
    · rename_i schema _
      refine (ih _).trans ?_
      split
      · rfl
      · exact (internContent_tables registry (schema.contentId sha256)).2.2

variable (sha256 base other) in
/-- The last steps of a merge leave the named schemas as they are. -/
theorem merge_tables (order : HashOrder String) :
    (base.merge sha256 order other).1.byName = (base.mergeNamed sha256 order other).1.byName ∧
      (base.merge sha256 order other).1.byId = (base.mergeNamed sha256 order other).1.byId ∧
      (base.merge sha256 order other).1.predeclaredById =
        orInsertAll base.predeclaredById other.predeclaredById := by
  have hpre : (base.mergeNamed sha256 order other).1.predeclaredById = base.predeclaredById :=
    mergeNames_predeclaredById _ _
  have hadvance : ∀ (state : TypeSchemaRegistry C) (id : SchemaId),
      (state.advanceCounterPast id).byName = state.byName ∧ (state.advanceCounterPast id).byId =
        state.byId ∧
        (state.advanceCounterPast id).predeclaredById = state.predeclaredById := by
    intro state id
    unfold advanceCounterPast
    split <;> exact ⟨rfl, rfl, rfl⟩
  unfold merge rebuildContentIndex
  rw [← hpre]
  exact hadvance _ _

/-- The remap sends a handle of `other` to `t` when all its names end up with the handle `t`. -/
theorem Merging.translate (h : Merging sha256 base other done registry remap)
    (hdone : ∀ name ∈ other.byName, name ∈ done) {t : SchemaId}
    (hnamed : ∃ name theirs, other.byName.lookup name = some theirs ∧ theirs.id = i)
    (hall : ∀ name theirs schema, other.byName.lookup name = some theirs → theirs.id = i →
      registry.byName.lookup name = some schema → schema.id = t) :
    (remap.lookup i).getD i = t := by
  cases hremap : remap.lookup i with
  | some t' =>
    obtain ⟨name, theirs, schema, htheirs, hid, hschema, ht'⟩ := h.remapped i t' hremap
    rw [← ht']
    exact hall name theirs schema htheirs hid hschema
  | none =>
    obtain ⟨name, theirs, htheirs, rfl⟩ := hnamed
    have hmem : name ∈ done := hdone name (AList.lookup_isSome.mp (by rw [htheirs]; rfl))
    obtain ⟨schema, hschema⟩ := h.taken name hmem theirs htheirs
    have ht := hall name theirs schema htheirs rfl hschema
    by_contra hne
    have hsome := h.complete name hmem theirs schema htheirs hschema (by rw [ht]; exact Ne.symm hne)
    rw [hremap] at hsome
    cases hsome

theorem Coherent.id_eq (h : registry.Coherent sha256) (hi : registry.getById i = some schema) :
    ∃ name, registry.byName.lookup name = some schema ∧ schema.id = i := by
  obtain ⟨name, hname, hschema⟩ := getById_eq_some hi
  obtain ⟨schema', hschema', hid⟩ := h.handles i name hname
  obtain rfl := Option.some.inj (hschema.symm.trans hschema')
  exact ⟨name, hschema, hid⟩

/-- All new names of one handle end up with one handle. -/
theorem Merging.same_handle (h : Merging sha256 base other done registry remap)
    (hother : other.Coherent sha256) {theirs' : TypeSchema}
    (htheirs : other.byName.lookup name = some theirs)
    (htheirs' : other.byName.lookup name' = some theirs') (hid : theirs.id = theirs'.id)
    (hnew : base.byName.lookup name = none) (hnew' : base.byName.lookup name' = none)
    (hschema : registry.byName.lookup name = some schema)
    (hschema' : registry.byName.lookup name' = some schema') :
    schema.id = schema'.id := by
  have hcontent : theirs.contentId sha256 = theirs'.contentId sha256 :=
    hother.separate _ _ theirs.id (hother.indexed name theirs htheirs)
      (hid ▸ hother.indexed name' theirs' htheirs')
  -- A new name holds the schema of `other`, so its content is that of `other`.
  have hcopy : ∀ n t s, other.byName.lookup n = some t → base.byName.lookup n = none →
      registry.byName.lookup n = some s → s.contentId sha256 = t.contentId sha256 := by
    intro n t s ht hn hs
    rcases h.origin n s hs with hb | ⟨t', ht', hs'⟩
    · rw [hn] at hb
      cases hb
    · obtain rfl := Option.some.inj (ht.symm.trans ht')
      rw [hs']
      rfl
  have hindexed := h.coherent.indexed name schema hschema
  rw [hcopy name theirs schema htheirs hnew hschema, hcontent,
    ← hcopy name' theirs' schema' htheirs' hnew' hschema', h.coherent.indexed name' schema'
      hschema'] at hindexed
  exact (Option.some.inj hindexed).symm

/-- A handle that stands for a predeclared schema is not the handle of a named one. -/
theorem Coherent.getById_eq_none (h : registry.Coherent sha256)
    (hi : registry.predeclaredById.lookup i = some schema) :
    registry.getById i = none := by
  cases hget : registry.getById i with
  | none => rfl
  | some named =>
    obtain ⟨name, hname, rfl⟩ := h.id_eq hget
    exact absurd (h.indexed name named hname) (h.predeclared _ schema hi _)

omit [DecidableEq C] in
theorem lookupSchemaById_of_getById (h : registry.getById i = some schema) :
    registry.lookupSchemaById i = some schema := by
  unfold lookupSchemaById
  rw [h]

omit [DecidableEq C] in
theorem lookupSchemaById_of_none (h : registry.getById i = none) :
    registry.lookupSchemaById i = registry.predeclaredById.lookup i := by
  unfold lookupSchemaById
  rw [h]
  rfl

/-- One named type. -/
def named (name field : String) (fieldType : FieldType) : List (Op String) :=
  [.registerType name [(field, fieldType)]]

def built (ops : List (Op String)) : TypeSchemaRegistry String := ops.foldl (step id) new

/-- The registry `first` after merging `second` into it, and what a handle of `second` leads to there. -/
def mergedLookup (first second : TypeSchemaRegistry String) (h : SchemaId) : Option TypeSchema :=
  (TypeSchemaRegistry.merge id .forward first second).1.lookupSchemaById
    (((TypeSchemaRegistry.merge id .forward first second).2.lookup h).getD h)

end TypeSchemaRegistry

end ShapeLang.Schemas
