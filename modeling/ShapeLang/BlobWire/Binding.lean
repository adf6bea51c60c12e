import ShapeLang.BlobWire.RoundTrip

/-!
# What the content hash binds

Two byte strings that pass `validate_blob` with one hash have the same bytes behind the header, so
the same table as far as both read it; and a longer reading of the table does not change which entry
of a type is the first. But an entry may lead anywhere, also back into the header, where the total
size and the number of sections are not hashed. Whatever the MessagePack decoders are, the decoded
blobs are the same exactly when no section that is read covers a byte of these two fields in which
the strings differ.
-/

namespace ShapeLang.BlobWire

open Lib Lib.Bytes Lib.Trap

/-! ## The hashed bytes -/

section

variable {sha256 : Bytes → Bytes} {a b data : Bytes}

theorem validateBlob_eq_ok (h : validateBlob sha256 data = .ok true) :
    Preamble data ∧ contentHashOf data = sha256 (data.drop HEADER_SIZE) := by
  unfold validateBlob at h
  obtain ⟨done, hpreamble, h⟩ := Fallible.bind_eq_ok.mp h
  obtain ⟨stored, hstored, h⟩ := Fallible.bind_eq_ok.mp h
  obtain ⟨body, hbody, h⟩ := Fallible.bind_eq_ok.mp h
  have hlength : (data.drop HEADER_SIZE).take (data.length - HEADER_SIZE) = data.drop HEADER_SIZE := by
    rw [← List.length_drop, List.take_length]
  rw [slice_eq_ok] at hstored hbody
  rw [hlength] at hbody
  split at h
  · cases h
  · rename_i hsame
    rw [not_not, hstored.2, hbody.2] at hsame
    exact ⟨checkPreamble_eq_ok.mp hpreamble, hsame⟩

/-- Two strings with valid headers, one hash and the same bytes behind the header. -/
structure SameBody (a b : Bytes) : Prop where
  left : Preamble a
  right : Preamble b
  contentHash : contentHashOf a = contentHashOf b
  body : a.drop HEADER_SIZE = b.drop HEADER_SIZE

theorem sameBody_of_valid (hsha : Function.Injective sha256) (ha : validateBlob sha256 a = .ok true)
    (hb : validateBlob sha256 b = .ok true) (hhash : contentHashOf a = contentHashOf b) : SameBody a b := by
  obtain ⟨hpa, hsa⟩ := validateBlob_eq_ok ha
  obtain ⟨hpb, hsb⟩ := validateBlob_eq_ok hb
  exact ⟨hpa, hpb, hhash, hsha (by rw [← hsa, ← hsb, hhash])⟩

theorem SameBody.symm (h : SameBody a b) :
    SameBody b a := ⟨h.right, h.left, h.contentHash.symm, h.body.symm⟩

/-! ## The table -/

theorem SameBody.entryAt (h : SameBody a b) (i : Nat) : entryAt a i = entryAt b i := by
  have hfield : ∀ skip width, field a (HEADER_SIZE + skip) width = field b (HEADER_SIZE + skip) width := by
    intro skip width
    rw [field_drop, field_drop, h.body]
  have htype := hfield (i * SECTION_ENTRY_SIZE) 2
  have hoffset := hfield (i * SECTION_ENTRY_SIZE + 2) 8
  have hlength := hfield (i * SECTION_ENTRY_SIZE + 10) 8
  rw [← Nat.add_assoc] at hoffset hlength
  unfold BlobWire.entryAt
  dsimp only
  rw [htype, hoffset, hlength]

/-- Reading more entries does not change what has been found. -/
theorem SameBody.entryFor_of_le (h : SameBody a b) (hle : sectionCountOf a ≤ sectionCountOf b)
    {type : SectionType} {entry : BlobSectionEntry} (hfound : entryFor a type = some entry) :
    entryFor b type = some entry := by
  have hentry : BlobWire.entryAt a = BlobWire.entryAt b := funext h.entryAt
  obtain ⟨more, hmore⟩ := Nat.exists_eq_add_of_le hle
  unfold entryFor table at hfound ⊢
  rw [hmore, List.range_add, List.filterMap_append, List.find?_append, ← hentry, hfound]
  rfl

theorem SameBody.entryFor (h : SameBody a b) {type : SectionType} {x y : BlobSectionEntry}
    (hx : entryFor a type = some x) (hy : entryFor b type = some y) : x = y := by
  rcases Nat.le_total (sectionCountOf a) (sectionCountOf b) with hle | hle
  · rw [h.entryFor_of_le hle hx] at hy
    exact Option.some.inj hy
  · rw [h.symm.entryFor_of_le hle hy] at hx
    exact (Option.some.inj hx).symm

/-! ## The bytes of the sections -/

/-- Where the strings can differ: in the total size and in the number of sections. -/
def AgreeWhereRead (a b : Bytes) : Prop :=
  ∀ type entry, entryFor a type = some entry → ∀ k, 40 ≤ k → k < HEADER_SIZE → entry.offset ≤ k →
    k < entry.offset + entry.length → a[k]? = b[k]?

/-- Outside the two fields the strings agree: in the magic, the version, the hash and behind the header. -/
theorem SameBody.getElem? (h : SameBody a b) {k : Nat} (hk : k < 40 ∨ HEADER_SIZE ≤ k) : a[k]? = b[k]? := by
  have hheader : HEADER_SIZE = 50 := rfl
  have hlong := h.left.1
  have hlong' := h.right.1
  have hmagic : (a.drop 0).take 4 = (b.drop 0).take 4 := h.left.2.1.trans h.right.2.1.symm
  have hversion : (a.drop 4).take 4 = (b.drop 4).take 4 := by
    refine ofLe_injective ?_ (h.left.2.2.trans h.right.2.2.symm)
    rw [List.length_take, List.length_take, List.length_drop, List.length_drop]
    omega
  by_cases hbody : HEADER_SIZE ≤ k
  · have hget := congrArg (fun bytes : Bytes => bytes[k - HEADER_SIZE]?) h.body
    rwa [List.getElem?_drop, List.getElem?_drop, Nat.add_sub_cancel' hbody] at hget
  · by_cases hfour : k < 4
    · exact getElem?_of_take_drop hmagic (Nat.zero_le k) (by omega)
    · by_cases height : k < 8
      · exact getElem?_of_take_drop hversion (by omega) (by omega)
      · exact getElem?_of_take_drop h.contentHash (by omega) (by omega)

theorem SameBody.agreeWhereRead_iff (h : SameBody a b) :
    AgreeWhereRead a b ↔ ∀ type entry, BlobWire.entryFor a type = some entry →
      (a.drop entry.offset).take entry.length = (b.drop entry.offset).take entry.length := by
  refine forall_congr' fun type => forall_congr' fun entry => imp_congr_right fun _ => ?_
  constructor
  · intro hagree
    refine take_drop_of_getElem? fun k hstart hstop => ?_
    by_cases hfields : 40 ≤ k ∧ k < HEADER_SIZE
    · exact hagree k hfields.1 hfields.2 hstart hstop
    · exact h.getElem? (by omega)
  · exact fun hslice k _ _ hstart hstop => getElem?_of_take_drop hslice hstart hstop

/-! ## The decoded blobs -/

/-- The bytes that the decoder takes for a section. -/
def payloadOf (data : Bytes) (type : SectionType) : Bytes :=
  ((entryFor data type).map fun entry => (data.drop entry.offset).take entry.length).getD []

variable {msgpack : Msgpack} {blob : DecodedBlob}

/-- A blob is decoded from payloads that are all there. -/
theorem decodeSections_eq_ok {contentHash : Bytes} {require : SectionType → Call Bytes}
    (h : decodeSections msgpack contentHash require = .ok blob) :
    ∀ type, ∃ bytes, require type = .ok bytes := by
  unfold decodeSections at h
  -- the eight sections in the order in which the code asks for them
  obtain ⟨_, hmetadata, h⟩ := Fallible.bind_eq_ok.mp h
  obtain ⟨_, hinstructions, h⟩ := Fallible.bind_eq_ok.mp h
  obtain ⟨_, hconstants, h⟩ := Fallible.bind_eq_ok.mp h
  obtain ⟨_, hstrings, h⟩ := Fallible.bind_eq_ok.mp h
  obtain ⟨_, hdependencies, h⟩ := Fallible.bind_eq_ok.mp h
  obtain ⟨_, htypeSchemas, h⟩ := Fallible.bind_eq_ok.mp h
  obtain ⟨_, hsourceMap, h⟩ := Fallible.bind_eq_ok.mp h
  obtain ⟨_, hpermissions, h⟩ := Fallible.bind_eq_ok.mp h
  have htaken : ∀ {α : Type} {type : SectionType} {decode : Bytes → Call α} {a : α},
      require type >>= decode = .ok a → ∃ bytes, require type = .ok bytes := by
    intro α type decode a hbind
    obtain ⟨bytes, hbytes, -⟩ := Fallible.bind_eq_ok.mp hbind
    exact ⟨bytes, hbytes⟩
  intro type
  cases type with
  | metadata => exact htaken hmetadata
  | instructions => exact ⟨_, hinstructions⟩
  | constants => exact ⟨_, hconstants⟩
  | strings => exact htaken hstrings
  | dependencies => exact htaken hdependencies
  | typeSchemas => exact htaken htypeSchemas
  | sourceMap => exact htaken hsourceMap
  | permissions => exact htaken hpermissions

/-- Bytes that one set of decoders takes through, every set takes to the same sections. -/
theorem decodeFromBytes_of_decodes (h : decodeFromBytes msgpack data = .ok blob) (other : Msgpack) :
    (∀ type, (entryFor data type).isSome) ∧
      decodeFromBytes other data =
        decodeSections other (contentHashOf data) fun type => .ok (payloadOf data type) := by
  -- the preamble and the length of the table were found good by the first run
  have hpreamble : Preamble data := by
    obtain ⟨done, hdone, -⟩ := Fallible.bind_eq_ok.mp h
    exact checkPreamble_eq_ok.mp hdone
  rw [decodeFromBytes_eq hpreamble] at h
  split at h
  · cases h
  · rename_i hshort
    have hneeded := Nat.not_lt.mp hshort
    obtain ⟨sections, hsections, hdecoded⟩ := Fallible.bind_eq_ok.mp h
    obtain ⟨hreads, rfl⟩ := (mapM_readEntry_eq_ok hneeded).mp hsections
    -- so was every section, and taking one does not depend on the decoders
    have hentries : ∀ type, ∃ entry, entryFor data type = some entry ∧
        requireSection data (table data) type = .ok (payloadOf data type) := by
      intro type
      obtain ⟨bytes, hbytes⟩ := decodeSections_eq_ok hdecoded type
      obtain ⟨entry, hentry, hle, rfl⟩ := (requireSection_eq_ok hreads).mp hbytes
      refine ⟨entry, hentry, hbytes.trans ?_⟩
      rw [payloadOf, hentry]
      rfl
    refine ⟨fun type => ?_, ?_⟩
    · obtain ⟨entry, hentry, -⟩ := hentries type
      rw [hentry]
      rfl
    · have hrequire : requireSection data (table data) = fun type => .ok (payloadOf data type) := by
        funext type
        obtain ⟨-, -, hbytes⟩ := hentries type
        exact hbytes
      rw [decodeFromBytes_eq hpreamble, if_neg hshort, hsections]
      show decodeSections other _ (requireSection data (table data)) = _
      rw [hrequire]

/-! ## Decoders that lose nothing -/

def byteNames (bytes : Bytes) : List String :=
  bytes.map fun byte => String.ofList (List.replicate byte.toNat 'x')

theorem byteNames_injective : Function.Injective byteNames := by
  refine List.map_injective_iff.mpr fun x y h => UInt8.toNat_inj.mp ?_
  have hlength := congrArg (fun text : String => text.toList.length) h
  simpa using hlength

/-- Each payload is kept byte by byte. -/
def losslessMsgpack : Msgpack where
  metadata bytes := .ok { emptyMetadata with paramNames := byteNames bytes }
  strings bytes := .ok (byteNames bytes)
  sourceMap bytes := .ok (bytes.map fun byte => (byte.toNat, 0, 0))

/-- Kept like this, a blob tells all its payloads. -/
theorem payload_eq_of_lossless {hash : Bytes} {x y : SectionType → Bytes}
    (hx : Recovers losslessMsgpack hash x blob) (hy : Recovers losslessMsgpack hash y blob)
    (type : SectionType) : x type = y type := by
  cases type with
  | metadata =>
    have hmetadata := Except.ok.inj (hx.metadata.trans hy.metadata.symm)
    exact byteNames_injective (congrArg BlobMetadata.paramNames hmetadata)
  | instructions => exact hx.instructions.symm.trans hy.instructions
  | constants => exact hx.constants.symm.trans hy.constants
  | strings => exact byteNames_injective (Except.ok.inj (hx.strings.trans hy.strings.symm))
  | dependencies => exact hx.dependencies.symm.trans hy.dependencies
  | typeSchemas => exact byteNames_injective (Except.ok.inj (hx.typeSchemas.trans hy.typeSchemas.symm))
  | sourceMap =>
    refine List.map_injective_iff.mpr (fun p q hpq => ?_)
      (Except.ok.inj (hx.sourceMap.trans hy.sourceMap.symm))
    exact UInt8.toNat_inj.mp (Prod.mk.inj hpq).1
  | permissions => exact byteNames_injective (Except.ok.inj (hx.permissions.trans hy.permissions.symm))

theorem decodes_lossless (h : decodeFromBytes msgpack data = .ok blob) :
    ∃ kept, decodeFromBytes losslessMsgpack data = .ok kept := by
  have hsections := h
  rw [(decodeFromBytes_of_decodes h msgpack).2] at hsections
  have hread := decodeSections_eq_ok_iff.mp hsections
  -- Of the eight decoders only that of the dependencies is left to fail, and it does not depend on
  -- MessagePack.
  have hdependencies := readDependencies_eq_ok.mpr ⟨hread.dependencies, hread.dependencyLength⟩
  rw [(decodeFromBytes_of_decodes h losslessMsgpack).2]
  show ∃ kept, (readDependencies (payloadOf data .dependencies) >>= fun dependencies => _) = .ok kept
  rw [hdependencies]
  exact ⟨_, rfl⟩

/-- For two valid strings that decode and have one hash: whatever the MessagePack decoders are, the
decoded blobs are the same in every field, exactly when the strings agree in the unhashed bytes that
sections cover. -/
theorem content_hash_binds_iff (hsha : Function.Injective sha256) (ha : validateBlob sha256 a = .ok true)
    (hb : validateBlob sha256 b = .ok true) (hda : ∃ msgpack blob, decodeFromBytes msgpack a = .ok blob)
    (hdb : ∃ msgpack blob, decodeFromBytes msgpack b = .ok blob)
    (hhash : contentHashOf a = contentHashOf b) :
    (∀ msgpack da db, decodeFromBytes msgpack a = .ok da → decodeFromBytes msgpack b = .ok db → da = db) ↔
      AgreeWhereRead a b := by
  have hsame := sameBody_of_valid hsha ha hb hhash
  obtain ⟨ma, blobA, hda⟩ := hda
  obtain ⟨mb, blobB, hdb⟩ := hdb
  -- Both take the same entry for each section.
  have hpayload : ∀ type, ∃ entry, entryFor a type = some entry ∧
      payloadOf a type = (a.drop entry.offset).take entry.length ∧
      payloadOf b type = (b.drop entry.offset).take entry.length := by
    intro type
    obtain ⟨x, hx⟩ := Option.isSome_iff_exists.mp ((decodeFromBytes_of_decodes hda ma).1 type)
    obtain ⟨y, hy⟩ := Option.isSome_iff_exists.mp ((decodeFromBytes_of_decodes hdb mb).1 type)
    obtain rfl := hsame.entryFor hx hy
    refine ⟨x, hx, ?_, ?_⟩
    · rw [payloadOf, hx]
      rfl
    · rw [payloadOf, hy]
      rfl
  rw [hsame.agreeWhereRead_iff]
  constructor
  · intro hbinds type entry hentry
    obtain ⟨kept, hkept⟩ := decodes_lossless hda
    obtain ⟨kept', hkept'⟩ := decodes_lossless hdb
    obtain rfl := hbinds losslessMsgpack kept kept' hkept hkept'
    rw [(decodeFromBytes_of_decodes hda losslessMsgpack).2] at hkept
    rw [(decodeFromBytes_of_decodes hdb losslessMsgpack).2, ← hhash] at hkept'
    obtain ⟨found, hfound, hxa, hxb⟩ := hpayload type
    rw [hentry] at hfound
    rw [Option.some.inj hfound, ← hxa, ← hxb]
    exact payload_eq_of_lossless (decodeSections_eq_ok_iff.mp hkept)
      (decodeSections_eq_ok_iff.mp hkept') type
  · intro hagree msgpack da db hdecodeA hdecodeB
    have hpayloads : payloadOf a = payloadOf b := by
      funext type
      obtain ⟨entry, hentry, hxa, hxb⟩ := hpayload type
      rw [hxa, hxb]
      exact hagree type entry hentry
    rw [(decodeFromBytes_of_decodes hda msgpack).2, hhash, hpayloads,
      ← (decodeFromBytes_of_decodes hdb msgpack).2, hdecodeB] at hdecodeA
    exact (Except.ok.inj hdecodeA).symm

end

/-! ## Two headers for one body -/

/-- A table with the given entry for the instructions, the payload of the metadata and an empty
array for the rest. -/
def craftedBody (offset length : Nat) : Bytes :=
  (([{ sectionType := .metadata, offset := 194, length := 11 },
      { sectionType := .instructions, offset, length },
      { sectionType := .constants, offset := 205, length := 0 },
      { sectionType := .strings, offset := 205, length := 1 },
      { sectionType := .dependencies, offset := 205, length := 0 },
      { sectionType := .typeSchemas, offset := 205, length := 1 },
      { sectionType := .sourceMap, offset := 205, length := 1 },
      { sectionType := .permissions, offset := 205, length := 1 }] : List BlobSectionEntry).map
    BlobSectionEntry.toBytes).flatten ++ (emptyMetadataBytes ++ [0x90])

def craftedBlob (offset length totalSize : Nat) : Bytes :=
  craftedHeader (zeros 32) totalSize 8 ++ craftedBody offset length

def decodedWith (instructions : Bytes) : DecodedBlob where
  contentHash := zeros 32
  metadata := emptyMetadata
  instructionsBytes := instructions
  constantsBytes := []
  strings := []
  dependencies := []
  typeSchemas := []
  sourceMap := []
  permissions := []

/-- An injective function that has 32 zero bytes for the hash of one body. -/
def pinnedSha256 (body bytes : Bytes) : Bytes := if bytes = body then zeros 32 else zeros 33 ++ bytes

theorem pinnedSha256_injective (body : Bytes) : Function.Injective (pinnedSha256 body) := by
  have hlength : ∀ bytes : Bytes, zeros 32 ≠ zeros 33 ++ bytes := by
    intro bytes h
    have hsizes := congrArg List.length h
    rw [List.length_append, length_zeros, length_zeros] at hsizes
    omega
  intro x y h
  unfold pinnedSha256 at h
  split at h
  · rename_i hx
    split at h
    · rename_i hy
      rw [hx, hy]
    · exact absurd h (hlength y)
  · split at h
    · exact absurd h.symm (hlength x)
    · exact List.append_cancel_left h

section

set_option maxRecDepth 4000

theorem validateBlob_craftedBlob_behind :
    validateBlob (pinnedSha256 (craftedBody 205 1)) (craftedBlob 205 1 206) = .ok true ∧
      validateBlob (pinnedSha256 (craftedBody 205 1)) (craftedBlob 205 1 207) = .ok true :=
  ⟨rfl, rfl⟩

theorem decodeFromBytes_craftedBlob_behind :
    decodeFromBytes smallMsgpack (craftedBlob 205 1 206) = .ok (decodedWith [0x90]) ∧
      decodeFromBytes smallMsgpack (craftedBlob 205 1 207) = .ok (decodedWith [0x90]) :=
  ⟨rfl, rfl⟩

theorem entryFor_craftedBlob_behind (type : SectionType) :
    (entryFor (craftedBlob 205 1 206) type).all (fun entry => HEADER_SIZE ≤ entry.offset) = true := by
  cases type <;> rfl

theorem validateBlob_craftedBlob_inside :
    validateBlob (pinnedSha256 (craftedBody 40 10)) (craftedBlob 40 10 206) = .ok true ∧
      validateBlob (pinnedSha256 (craftedBody 40 10)) (craftedBlob 40 10 207) = .ok true :=
  ⟨rfl, rfl⟩

theorem decodeFromBytes_craftedBlob_inside :
    decodeFromBytes smallMsgpack (craftedBlob 40 10 206) = .ok (decodedWith (le 8 206 ++ le 2 8)) ∧
      decodeFromBytes smallMsgpack (craftedBlob 40 10 207) = .ok (decodedWith (le 8 207 ++ le 2 8)) :=
  ⟨rfl, rfl⟩

end

/-- With all sections behind the header, another total size gives the same blob. -/
theorem resized_header_same_blob :
    craftedBlob 205 1 206 ≠ craftedBlob 205 1 207 ∧
      ∀ msgpack da db, decodeFromBytes msgpack (craftedBlob 205 1 206) = .ok da →
        decodeFromBytes msgpack (craftedBlob 205 1 207) = .ok db → da = db := by
  have hdecode := decodeFromBytes_craftedBlob_behind
  have hvalid := validateBlob_craftedBlob_behind
  refine ⟨by decide +kernel, ?_⟩
  refine (content_hash_binds_iff (pinnedSha256_injective (craftedBody 205 1)) hvalid.1 hvalid.2
    ⟨_, _, hdecode.1⟩
    ⟨_, _, hdecode.2⟩ rfl).mpr ?_
  intro type entry hentry k _ hk hstart _
  have hbehind := entryFor_craftedBlob_behind type
  rw [hentry, Option.all_some, decide_eq_true_iff] at hbehind
  omega

/-- Instructions that are the last ten bytes of the header: the total size is part of them, and not
hashed. -/
theorem instructions_in_header_not_bound :
    ¬ ∀ sha256 : Bytes → Bytes, Function.Injective sha256 → ∀ msgpack a b da db,
      validateBlob sha256 a = .ok true → validateBlob sha256 b = .ok true →
      decodeFromBytes msgpack a = .ok da → decodeFromBytes msgpack b = .ok db →
      da.contentHash = db.contentHash → da = db := by
  intro hclaim
  have hdecode := decodeFromBytes_craftedBlob_inside
  have hvalid := validateBlob_craftedBlob_inside
  have heq := hclaim _ (pinnedSha256_injective _) _ _ _ _ _ hvalid.1 hvalid.2 hdecode.1 hdecode.2 rfl
  have hinstructions : le 8 206 ++ le 2 8 = le 8 207 ++ le 2 8 := congrArg DecodedBlob.instructionsBytes heq
  exact absurd hinstructions (by decide)

end ShapeLang.BlobWire
