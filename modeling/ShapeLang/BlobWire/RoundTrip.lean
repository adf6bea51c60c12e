import ShapeLang.BlobWire.Untrusted

/-!
# Encoded blobs decode

The parts that the encoder puts one behind the other are read back at the offsets that it writes
into the table. What is left to the decoder is then the decoding of the payloads themselves.
-/

namespace ShapeLang.BlobWire

open Lib Lib.Bytes Lib.Trap

/-! ## Where the encoder puts the sections -/

variable {parts : List (SectionType × Bytes)} {entry : BlobSectionEntry}

/-- Entries end within the sections. -/
theorem sectionEntries_le {start : Nat} (h : entry ∈ sectionEntries parts start) :
    entry.offset + entry.length ≤ start + (parts.map fun part => part.2.length).sum := by
  induction parts generalizing start with
  | nil => cases h
  | cons part parts ih =>
    rw [List.map_cons, List.sum_cons]
    rcases List.mem_cons.mp h with rfl | hmem
    · show start + part.2.length ≤ _
      omega
    · have hrest := ih hmem
      omega

theorem length_sectionEntries (parts : List (SectionType × Bytes)) (start : Nat) :
    (sectionEntries parts start).length = parts.length := by
  induction parts generalizing start with
  | nil => rfl
  | cons part parts ih => exact congrArg (· + 1) (ih _)

/-- The entry of a type leads to the payload of that type. -/
theorem find_sectionEntries {data rest : Bytes} {start : Nat} (hnodup : (parts.map Prod.fst).Nodup)
    (hdata : data.drop start = (parts.map Prod.snd).flatten ++ rest) (hstart : start ≤ data.length)
    {type : SectionType} {payload : Bytes} (hmem : (type, payload) ∈ parts) :
    ∃ entry, ((sectionEntries parts start).find? fun entry => entry.sectionType = type) = some entry ∧
      entry.offset + entry.length ≤ data.length ∧ (data.drop entry.offset).take entry.length = payload := by
  induction parts generalizing start with
  | nil => cases hmem
  | cons part parts ih =>
    obtain ⟨first, bytes⟩ := part
    rw [List.map_cons, List.nodup_cons] at hnodup
    rw [List.map_cons, List.flatten_cons, List.append_assoc] at hdata
    have hfits : start + bytes.length ≤ data.length := by
      have hlength := congrArg List.length hdata
      rw [List.length_drop, List.length_append] at hlength
      dsimp only at hlength
      omega
    by_cases htype : first = type
    · -- The types are distinct, so this is the payload.
      have hpayload : payload = bytes := by
        rcases List.mem_cons.mp hmem with heq | hrest
        · exact (Prod.mk.inj heq).2
        · exact absurd (List.mem_map_of_mem hrest) (htype ▸ hnodup.1)
      refine ⟨⟨first, start, bytes.length⟩, List.find?_cons_of_pos (by simpa using htype), hfits, ?_⟩
      show (data.drop start).take bytes.length = payload
      rw [hdata, List.take_left, hpayload]
    · have hrest : (type, payload) ∈ parts := by
        rcases List.mem_cons.mp hmem with heq | hrest
        · exact absurd (Prod.mk.inj heq).1.symm htype
        · exact hrest
      have hdrop : data.drop (start + bytes.length) = (parts.map Prod.snd).flatten ++ rest := by
        rw [← List.drop_drop, hdata, List.drop_left]
      obtain ⟨entry, hfound, hentry⟩ := ih hnodup.2 hdrop hfits hrest
      exact ⟨entry, (List.find?_cons_of_neg (by simpa using htype)).trans hfound, hentry⟩

/-! ## Entries read back -/

theorem length_entry (entry : BlobSectionEntry) : entry.toBytes.length = SECTION_ENTRY_SIZE := by
  unfold BlobSectionEntry.toBytes
  rw [List.length_append, List.length_append, length_le, length_le, length_le]
  rfl

theorem fromU16_code (type : SectionType) (rest : Bytes) :
    SectionType.fromU16 (field (le 2 type.code ++ rest) 0 2) = some type := by
  rw [field_le]
  cases type <;> rfl

theorem entryAt_of_drop {data rest : Bytes} {i : Nat}
    (hdata : data.drop (HEADER_SIZE + i * SECTION_ENTRY_SIZE) = entry.toBytes ++ rest)
    (hoffset : entry.offset < 2 ^ 64) (hlength : entry.length < 2 ^ 64) :
    entryAt data i = some entry := by
  unfold BlobSectionEntry.toBytes at hdata
  rw [List.append_assoc, List.append_assoc] at hdata
  have htype : SectionType.fromU16 (field data (HEADER_SIZE + i * SECTION_ENTRY_SIZE) 2) =
      some entry.sectionType := by
    rw [← Nat.add_zero (HEADER_SIZE + i * SECTION_ENTRY_SIZE), field_drop, hdata]
    exact fromU16_code entry.sectionType _
  have hoff : field data (HEADER_SIZE + i * SECTION_ENTRY_SIZE + 2) 8 = entry.offset := by
    rw [field_drop, hdata, field_skip_append (length_le 2 _)]
    exact field_le_of_lt hoffset _
  have hlen : field data (HEADER_SIZE + i * SECTION_ENTRY_SIZE + 10) 8 = entry.length := by
    rw [field_drop, hdata, ← List.append_assoc, field_skip_append
      (by rw [List.length_append, length_le, length_le])]
    exact field_le_of_lt hlength _
  unfold entryAt
  dsimp only
  rw [htype, hoff, hlen]
  rfl

theorem filterMap_range_getElem {α : Type} (items : List α) (f : Nat → Option α)
    (h : ∀ i (hi : i < items.length), f i = some items[i]) :
    (List.range items.length).filterMap f = items := by
  induction items generalizing f with
  | nil => rfl
  | cons item items ih =>
    have hrest := ih (fun i => f (i + 1)) fun i hi => h (i + 1) (Nat.succ_lt_succ hi)
    rw [List.length_cons, List.range_succ_eq_map, List.filterMap_cons, h 0 (Nat.zero_lt_succ _),
      List.filterMap_map]
    exact congrArg (item :: ·) hrest

/-! ## The whole blob -/

namespace EncodableBlob

def dataStart : Nat := HEADER_SIZE + SectionType.all.length * SECTION_ENTRY_SIZE

/-- The size of the encoded blob. -/
def encodedSize (blob : EncodableBlob) : Nat :=
  dataStart + (blob.sections.map fun part => part.2.length).sum

theorem length_sections (blob : EncodableBlob) :
    blob.sections.length = SectionType.all.length := List.length_map _

theorem nodup_sections (blob : EncodableBlob) : (blob.sections.map Prod.fst).Nodup := by
  have htypes : blob.sections.map Prod.fst = SectionType.all := rfl
  rw [htypes]
  decide

theorem mem_sections (blob : EncodableBlob) (type : SectionType) :
    (type, blob.payload type) ∈ blob.sections := by
  refine List.mem_map_of_mem ?_
  cases type <;> decide

end EncodableBlob

section

variable {sha256 : Bytes → Bytes} {blob : EncodableBlob}

/-- Everything in front of the table. -/
def encodedHeader (sha256 : Bytes → Bytes) (blob : EncodableBlob) : Bytes :=
  BLOB_MAGIC ++ (le 4 WIRE_FORMAT_VERSION ++
    (sha256 (encodeBody blob) ++ (le 8 blob.encodedSize ++ le 2 8)))

theorem encodeToBytes_eq (sha256 : Bytes → Bytes) (blob : EncodableBlob) :
    encodeToBytes sha256 blob = encodedHeader sha256 blob ++ encodeBody blob := by
  unfold encodedHeader
  simp only [List.append_assoc]
  rfl

theorem length_encodedHeader (hsha : (sha256 (encodeBody blob)).length = 32) :
    (encodedHeader sha256 blob).length = HEADER_SIZE := by
  unfold encodedHeader
  simp only [List.length_append, length_le, hsha]
  rfl

theorem length_encodeBody (blob : EncodableBlob) :
    HEADER_SIZE + (encodeBody blob).length = blob.encodedSize := by
  have hentries :
      ((sectionEntries blob.sections EncodableBlob.dataStart).map
      BlobSectionEntry.toBytes).flatten.length =
      SectionType.all.length * SECTION_ENTRY_SIZE := by
    rw [length_flatten_map length_entry, length_sectionEntries, blob.length_sections]
  have hpayloads : (blob.sections.map Prod.snd).flatten.length =
      (blob.sections.map fun part => part.2.length).sum := by
    rw [List.length_flatten, List.map_map]
    rfl
  show HEADER_SIZE +
    (((sectionEntries blob.sections EncodableBlob.dataStart).map
    BlobSectionEntry.toBytes).flatten ++
    (blob.sections.map Prod.snd).flatten).length = _
  rw [List.length_append, hentries, hpayloads]
  unfold EncodableBlob.encodedSize EncodableBlob.dataStart
  omega

/-- What the decoder reads of an encoded blob. -/
structure ReadsBack (sha256 : Bytes → Bytes) (blob : EncodableBlob) (data : Bytes) : Prop where
  preamble : Preamble data
  length : data.length = blob.encodedSize
  contentHash : contentHashOf data = sha256 (encodeBody blob)
  totalSize : totalSizeOf data = blob.encodedSize
  sectionCount : sectionCountOf data = SectionType.all.length
  body : data.drop HEADER_SIZE = encodeBody blob

theorem readsBack_encodeToBytes (hsha : (sha256 (encodeBody blob)).length = 32)
    (hsize : blob.encodedSize < 2 ^ 64) :
    ReadsBack sha256 blob (encodeToBytes sha256 blob) := by
  have hheader := length_encodedHeader hsha
  have hbody := length_encodeBody blob
  have hfour : (BLOB_MAGIC ++ le 4 WIRE_FORMAT_VERSION).length = 8 := rfl
  have hforty : (BLOB_MAGIC ++ le 4 WIRE_FORMAT_VERSION ++ sha256 (encodeBody blob)).length = 40 := by
    rw [List.length_append, hfour, hsha]
  have hcount : (BLOB_MAGIC ++ le 4 WIRE_FORMAT_VERSION ++ sha256 (encodeBody blob) ++
    le 8 blob.encodedSize).length =
      48 := by
    rw [List.length_append, hforty, length_le]
  -- The same bytes, grouped to the left up to the field that is read.
  have hdata : encodeToBytes sha256 blob = BLOB_MAGIC ++
      (le 4 WIRE_FORMAT_VERSION ++ (sha256 (encodeBody blob) ++
      (le 8 blob.encodedSize ++ (le 2 8 ++ encodeBody blob)))) := rfl
  refine ⟨⟨?_, ?_, ?_⟩, ?_, ?_, ?_, ?_, ?_⟩
  · rw [encodeToBytes_eq, List.length_append, hheader]
    exact Nat.le_add_right _ _
  · rw [hdata]
    rfl
  · rw [hdata, field_skip_append (show BLOB_MAGIC.length = 4 from rfl)]
    exact field_le_of_lt (by decide) _
  · rw [encodeToBytes_eq, List.length_append, hheader, hbody]
  · rw [hdata, contentHashOf, ← List.append_assoc, List.drop_left' hfour, List.take_left' hsha]
  · rw [hdata, totalSizeOf, ← List.append_assoc, ← List.append_assoc, field_skip_append hforty]
    exact field_le_of_lt hsize _
  · rw [hdata, sectionCountOf, ← List.append_assoc, ← List.append_assoc, ← List.append_assoc,
      field_skip_append hcount]
    exact field_le_of_lt (by decide) _
  · rw [encodeToBytes_eq, ← hheader, List.drop_left]

variable {data : Bytes}

theorem entryAt_encoded (h : ReadsBack sha256 blob data) (hsize : blob.encodedSize < 2 ^ 64) {i : Nat}
    (hi : i < (sectionEntries blob.sections EncodableBlob.dataStart).length) :
    entryAt data i = some (sectionEntries blob.sections EncodableBlob.dataStart)[i] := by
  have hle := sectionEntries_le (List.getElem_mem hi)
  have hlt : (sectionEntries blob.sections EncodableBlob.dataStart)[i].offset +
      (sectionEntries blob.sections EncodableBlob.dataStart)[i].length < 2 ^ 64 := lt_of_le_of_lt hle hsize
  have hsizes : ∀ chunk ∈ (sectionEntries blob.sections EncodableBlob.dataStart).map
      BlobSectionEntry.toBytes,
      chunk.length = SECTION_ENTRY_SIZE := by
    intro chunk hmem
    obtain ⟨entry, -, rfl⟩ := List.mem_map.mp hmem
    exact length_entry entry
  -- all entries have one size, so the table can be cut behind the first `i`
  have hdrop := drop_flatten hsizes (blob.sections.map Prod.snd).flatten (i := i)
      (by rw [List.length_map]; exact hi.le)
  have hhead : ((sectionEntries blob.sections EncodableBlob.dataStart).map
    BlobSectionEntry.toBytes).drop i =
      (sectionEntries blob.sections EncodableBlob.dataStart)[i].toBytes ::
        ((sectionEntries blob.sections EncodableBlob.dataStart).map BlobSectionEntry.toBytes).drop
          (i + 1) := by
    rw [List.drop_eq_getElem_cons (by rw [List.length_map]; exact hi), List.getElem_map]
  rw [hhead, List.flatten_cons, List.append_assoc] at hdrop
  -- the bytes at the place where the reader looks for the entry
  have hat : data.drop (HEADER_SIZE + i * SECTION_ENTRY_SIZE) =
      (sectionEntries blob.sections EncodableBlob.dataStart)[i].toBytes ++
        ((((sectionEntries blob.sections EncodableBlob.dataStart).map BlobSectionEntry.toBytes).drop
          (i + 1)).flatten ++
          (blob.sections.map Prod.snd).flatten) := by
    rw [← List.drop_drop, h.body]
    exact hdrop
  exact entryAt_of_drop hat (by omega) (by omega)

theorem table_encoded (h : ReadsBack sha256 blob data) (hsize : blob.encodedSize < 2 ^ 64) :
    table data = sectionEntries blob.sections EncodableBlob.dataStart := by
  have hcount : sectionCountOf data = (sectionEntries blob.sections EncodableBlob.dataStart).length := by
    rw [h.sectionCount, length_sectionEntries, blob.length_sections]
  unfold table
  rw [hcount]
  exact filterMap_range_getElem _ _ fun i hi => entryAt_encoded h hsize hi

theorem requireSection_encoded (h : ReadsBack sha256 blob data) (hsize : blob.encodedSize < 2 ^ 64)
    (hreads : ∀ i < sectionCountOf data, EntryReads data i) (type : SectionType) :
    requireSection data (table data) type = .ok (blob.payload type) := by
  have hstart : EncodableBlob.dataStart ≤ data.length := by
    rw [h.length]
    exact Nat.le_add_right _ _
  have hpayloads : data.drop EncodableBlob.dataStart = (blob.sections.map Prod.snd).flatten ++ [] := by
    have hentries :
        ((sectionEntries blob.sections EncodableBlob.dataStart).map
        BlobSectionEntry.toBytes).flatten.length =
        SectionType.all.length * SECTION_ENTRY_SIZE := by
      rw [length_flatten_map length_entry, length_sectionEntries, blob.length_sections]
    rw [List.append_nil, EncodableBlob.dataStart, ← List.drop_drop, h.body]
    exact List.drop_left' hentries
  obtain ⟨entry, hfound, hle, hpayload⟩ :=
    find_sectionEntries blob.nodup_sections hpayloads hstart (blob.mem_sections type)
  refine (requireSection_eq_ok hreads).mpr ⟨entry, ?_, hle, hpayload.symm⟩
  unfold entryFor
  rw [table_encoded h hsize]
  exact hfound

theorem decode_encode (msgpack : Msgpack) (hsha : (sha256 (encodeBody blob)).length = 32)
    (hsize : blob.encodedSize < 2 ^ 64) :
    decodeFromBytes msgpack (encodeToBytes sha256 blob) =
      decodeSections msgpack (sha256 (encodeBody blob)) fun type => .ok (blob.payload type) := by
  have h := readsBack_encodeToBytes hsha hsize
  generalize encodeToBytes sha256 blob = data at h
  have hneeded : HEADER_SIZE + sectionCountOf data * SECTION_ENTRY_SIZE ≤ data.length := by
    rw [h.sectionCount, h.length]
    exact Nat.le_add_right _ _
  have hreads : ∀ i < sectionCountOf data, EntryReads data i := by
    intro i hi
    rw [h.sectionCount, ← blob.length_sections, ← length_sectionEntries blob.sections
      EncodableBlob.dataStart] at hi
    refine ⟨_, entryAt_encoded h hsize hi, ?_⟩
    rw [h.totalSize]
    exact sectionEntries_le (List.getElem_mem hi)
  have hrequire : requireSection data (table data) = fun type => .ok (blob.payload type) :=
    funext fun type => requireSection_encoded h hsize hreads type
  rw [decodeFromBytes_eq h.preamble, if_neg (Nat.not_lt.mpr hneeded),
    (mapM_readEntry_eq_ok hneeded).mpr ⟨hreads, rfl⟩, h.contentHash]
  show decodeSections msgpack _ (requireSection data (table data)) = _
  rw [hrequire]

end

/-! ## The decoded fields -/

/-- Each field of `decoded` is what its own payload says: the raw sections byte for byte, the
dependencies in pieces of 32 bytes that make up the section, the others as MessagePack reads them.
-/
structure Recovers (msgpack : Msgpack) (hash : Bytes) (payload : SectionType → Bytes)
    (decoded : DecodedBlob) : Prop where
  contentHash : decoded.contentHash = hash
  metadata : msgpack.metadata (payload .metadata) = .ok decoded.metadata
  instructions : decoded.instructionsBytes = payload .instructions
  constants : decoded.constantsBytes = payload .constants
  strings : msgpack.strings (payload .strings) = .ok decoded.strings
  dependencies : decoded.dependencies.flatten = payload .dependencies
  dependencyLength : ∀ hash ∈ decoded.dependencies, hash.length = 32
  typeSchemas : msgpack.strings (payload .typeSchemas) = .ok decoded.typeSchemas
  sourceMap : msgpack.sourceMap (payload .sourceMap) = .ok decoded.sourceMap
  permissions : msgpack.strings (payload .permissions) = .ok decoded.permissions

theorem chunks_flatten {size : Nat} {pieces : List Bytes} (h : ∀ piece ∈ pieces, piece.length = size) :
    chunks size pieces.length pieces.flatten = pieces := by
  induction pieces with
  | nil => rfl
  | cons piece pieces ih =>
    have hpiece : piece.length = size := h piece List.mem_cons_self
    show (piece ++ pieces.flatten).take size :: chunks size pieces.length
      ((piece ++ pieces.flatten).drop size) = _
    rw [List.take_left' hpiece, List.drop_left' hpiece, ih fun other hother => h other
      (List.mem_cons_of_mem _ hother)]

theorem flatten_chunks {size count : Nat} {bytes : Bytes} (h : bytes.length = count * size) :
    (chunks size count bytes).flatten = bytes ∧ ∀ piece ∈ chunks size count bytes, piece.length = size := by
  induction count generalizing bytes with
  | zero =>
    rw [Nat.zero_mul] at h
    exact ⟨(List.length_eq_zero_iff.mp h).symm, fun _ hpiece => absurd hpiece List.not_mem_nil⟩
  | succ count ih =>
    rw [Nat.succ_mul] at h
    have hrest : (bytes.drop size).length = count * size := by
      rw [List.length_drop]
      omega
    obtain ⟨hflatten, hpieces⟩ := ih hrest
    refine ⟨?_, fun piece hpiece => ?_⟩
    · show bytes.take size ++ (chunks size count (bytes.drop size)).flatten = bytes
      rw [hflatten, List.take_append_drop]
    · rcases List.mem_cons.mp hpiece with rfl | hpiece
      · rw [List.length_take]
        omega
      · exact hpieces piece hpiece

theorem readDependencies_eq_ok {bytes : Bytes} {hashes : List Bytes} :
    readDependencies bytes = .ok hashes ↔ hashes.flatten = bytes ∧ ∀ hash ∈ hashes, hash.length = 32 := by
  unfold readDependencies
  constructor
  · intro h
    split at h
    · cases h
    · rename_i hmod
      rw [← Except.ok.inj h]
      exact flatten_chunks (by omega)
  · rintro ⟨rfl, hlength⟩
    have htotal : hashes.flatten.length = hashes.length * 32 := by
      rw [List.length_flatten, List.map_congr_left hlength, List.map_const', List.sum_replicate,
        smul_eq_mul]
    rw [if_neg (by omega), htotal, Nat.mul_div_cancel _ (by omega), chunks_flatten hlength]

theorem fromMsgpack_eq_ok {α : Type} {decoded : Except String α} {a : α} :
    fromMsgpack decoded = .ok a ↔ decoded = .ok a := Fallible.mapError_eq_ok

theorem decodeSections_eq_ok_iff {msgpack : Msgpack} {hash : Bytes} {payload : SectionType → Bytes}
    {decoded : DecodedBlob} :
    decodeSections msgpack hash (fun type => .ok (payload type)) = .ok decoded ↔
      Recovers msgpack hash payload decoded := by
  constructor
  · intro h
    unfold decodeSections at h
    -- one bind a section, in the order in which they are read
    obtain ⟨metadata, hmetadata, h⟩ := Fallible.bind_eq_ok.mp h
    obtain ⟨instructions, hinstructions, h⟩ := Fallible.bind_eq_ok.mp h
    obtain ⟨constants, hconstants, h⟩ := Fallible.bind_eq_ok.mp h
    obtain ⟨strings, hstrings, h⟩ := Fallible.bind_eq_ok.mp h
    obtain ⟨dependencies, hdependencies, h⟩ := Fallible.bind_eq_ok.mp h
    obtain ⟨typeSchemas, htypeSchemas, h⟩ := Fallible.bind_eq_ok.mp h
    obtain ⟨sourceMap, hsourceMap, h⟩ := Fallible.bind_eq_ok.mp h
    obtain ⟨permissions, hpermissions, h⟩ := Fallible.bind_eq_ok.mp h
    obtain rfl := Except.ok.inj h
    obtain ⟨hflatten, hlength⟩ := readDependencies_eq_ok.mp hdependencies
    exact
      { contentHash := rfl
        metadata := fromMsgpack_eq_ok.mp hmetadata
        instructions := (Except.ok.inj hinstructions).symm
        constants := (Except.ok.inj hconstants).symm
        strings := fromMsgpack_eq_ok.mp hstrings
        dependencies := hflatten
        dependencyLength := hlength
        typeSchemas := fromMsgpack_eq_ok.mp htypeSchemas
        sourceMap := fromMsgpack_eq_ok.mp hsourceMap
        permissions := fromMsgpack_eq_ok.mp hpermissions }
  · intro h
    unfold decodeSections
    refine Fallible.bind_eq_ok.mpr ⟨_, fromMsgpack_eq_ok.mpr h.metadata, ?_⟩
    refine Fallible.bind_eq_ok.mpr ⟨_, rfl, Fallible.bind_eq_ok.mpr ⟨_, rfl, ?_⟩⟩
    refine Fallible.bind_eq_ok.mpr ⟨_, fromMsgpack_eq_ok.mpr h.strings, ?_⟩
    refine Fallible.bind_eq_ok.mpr ⟨_, readDependencies_eq_ok.mpr ⟨h.dependencies, h.dependencyLength⟩, ?_⟩
    refine Fallible.bind_eq_ok.mpr ⟨_, fromMsgpack_eq_ok.mpr h.typeSchemas, ?_⟩
    refine Fallible.bind_eq_ok.mpr ⟨_, fromMsgpack_eq_ok.mpr h.sourceMap, ?_⟩
    refine Fallible.bind_eq_ok.mpr ⟨_, fromMsgpack_eq_ok.mpr h.permissions, ?_⟩
    rw [← h.contentHash, ← h.instructions, ← h.constants]

/-- The decoder is safe exactly on the bytes that keep their sections in range; and what it returns
for an encoded blob is, field by field, what the payloads of the blob say. -/
theorem decode_safe_iff_in_range (msgpack : Msgpack) :
    (∀ data, Safe (decodeFromBytes msgpack data) ↔ SectionsInRange msgpack data) ∧
    (∀ sha256 : Bytes → Bytes, (∀ bytes, (sha256 bytes).length = 32) →
      ∀ blob : EncodableBlob, blob.encodedSize < 2 ^ 64 → ∀ decoded,
        decodeFromBytes msgpack (encodeToBytes sha256 blob) = .ok decoded ↔
          Recovers msgpack (sha256 (encodeBody blob)) blob.payload decoded) := by
  refine ⟨safe_decodeFromBytes_iff msgpack, fun sha256 hsha blob hsize decoded => ?_⟩
  rw [decode_encode msgpack (hsha _) hsize]
  exact decodeSections_eq_ok_iff

/-! ## Bytes out of range -/

/-- `rmp_serde` on the payloads below: the metadata of a function without a name, and the empty array. -/
def emptyMetadataBytes : Bytes := [0x9a, 0xa0, 0x00, 0x00, 0xc2, 0xc2, 0x00, 0x90, 0x90, 0x90, 0x90]

def emptyMetadata : BlobMetadata where
  name := ""
  arity := 0
  localsCount := 0
  isAsync := false
  isClosure := false
  capturesCount := 0
  paramNames := []
  refParams := []
  refMutates := []
  mutableCaptures := []

def smallMsgpack : Msgpack where
  metadata bytes := if bytes = emptyMetadataBytes then .ok emptyMetadata else .error "invalid type"
  strings bytes := if bytes = [0x90] then .ok [] else .error "invalid type"
  sourceMap bytes := if bytes = [0x90] then .ok [] else .error "invalid type"

/-- A header that claims `totalSize` bytes and `entries`, with `hash` for its content hash. -/
def craftedHeader (hash : Bytes) (totalSize sectionCount : Nat) : Bytes :=
  BLOB_MAGIC ++ (le 4 WIRE_FORMAT_VERSION ++ (hash ++ (le 8 totalSize ++ le 2 sectionCount)))

/-- One metadata section of 1000 bytes, in 68 bytes of data. -/
def overlongSection : Bytes :=
  craftedHeader (zeros 32) 1000 1 ++ BlobSectionEntry.toBytes
    { sectionType := .metadata, offset := 0, length := 1000 }

/-- A section whose end is not a 64-bit number. -/
def overflowingSection : Bytes :=
  craftedHeader (zeros 32) 1000 1 ++
    BlobSectionEntry.toBytes { sectionType := .metadata, offset := 2 ^ 64 - 1, length := 1 }

/-- Both pass `validate_blob` under a hash function that gives the hash in their headers. -/
theorem valid_blobs_trap :
    validateBlob (fun _ => zeros 32) overlongSection = .ok true ∧
      decodeFromBytes smallMsgpack overlongSection = .error .outOfRange ∧
      validateBlob (fun _ => zeros 32) overflowingSection = .ok true ∧
      decodeFromBytes smallMsgpack overflowingSection = .error .overflow :=
  ⟨rfl, rfl, rfl, rfl⟩

end ShapeLang.BlobWire
