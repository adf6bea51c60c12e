import ShapeLang.BlobWire.Format

/-!
# The blob decoder on arbitrary bytes

The bounds of a section are checked against the total size that the header claims, after an addition
that can overflow; the slice is then taken from the bytes that are there. `SectionsInRange` says of
the bytes where this goes well: the decoder is safe exactly then. What it reads of the table is
written down as `entryAt` and `table`, over the bytes alone.

Encoded blobs are in range, and each section is found where the encoder put it.
-/

namespace ShapeLang.BlobWire

open Lib Lib.Bytes Lib.Trap

/-! ## What the bytes say -/

def contentHashOf (data : Bytes) : Bytes := (data.drop 8).take 32

def totalSizeOf (data : Bytes) : Nat := field data 40 8

def sectionCountOf (data : Bytes) : Nat := field data 48 2

/-- Long enough for a header, with the right magic and version. -/
def Preamble (data : Bytes) : Prop :=
  HEADER_SIZE ≤ data.length ∧ data.take 4 = BLOB_MAGIC ∧ field data 4 4 = WIRE_FORMAT_VERSION

/-- An entry of the table, if its type is known. -/
def entryAt (data : Bytes) (i : Nat) : Option BlobSectionEntry :=
  let offset := HEADER_SIZE + i * SECTION_ENTRY_SIZE
  (SectionType.fromU16 (field data offset 2)).map fun sectionType =>
    { sectionType, offset := field data (offset + 2) 8, length := field data (offset + 10) 8 }

/-- The entry is of a known type, and ends within the claimed total size. -/
def EntryReads (data : Bytes) (i : Nat) : Prop :=
  ∃ entry, entryAt data i = some entry ∧ entry.offset + entry.length ≤ totalSizeOf data

def table (data : Bytes) : List BlobSectionEntry :=
  (List.range (sectionCountOf data)).filterMap (entryAt data)

/-- The entry that the decoder takes for a section. -/
def entryFor (data : Bytes) (type : SectionType) : Option BlobSectionEntry :=
  (table data).find? fun entry => entry.sectionType = type

/-- The payload of a section can be decoded. -/
def Msgpack.Reads (msgpack : Msgpack) (bytes : Bytes) : SectionType → Prop
  | .metadata => ∃ metadata, msgpack.metadata bytes = .ok metadata
  | .instructions => True
  | .constants => True
  | .strings => ∃ strings, msgpack.strings bytes = .ok strings
  | .dependencies => bytes.length % 32 = 0
  | .typeSchemas => ∃ names, msgpack.strings bytes = .ok names
  | .sourceMap => ∃ sourceMap, msgpack.sourceMap bytes = .ok sourceMap
  | .permissions => ∃ names, msgpack.strings bytes = .ok names

/-- The section is there, lies inside the data and can be decoded. -/
def SectionReads (msgpack : Msgpack) (data : Bytes) (type : SectionType) : Prop :=
  ∃ entry, entryFor data type = some entry ∧ entry.offset + entry.length ≤ data.length ∧
    msgpack.Reads ((data.drop entry.offset).take entry.length) type

/-- Up to the first error: each entry that is reached has an end below `2 ^ 64`, and each section
that is reached lies inside the data. -/
def SectionsInRange (msgpack : Msgpack) (data : Bytes) : Prop :=
  Preamble data → HEADER_SIZE + sectionCountOf data * SECTION_ENTRY_SIZE ≤ data.length →
    (∀ i < sectionCountOf data, (∀ j < i, EntryReads data j) →
      ∀ entry, entryAt data i = some entry → entry.offset + entry.length < 2 ^ 64) ∧
    ((∀ i < sectionCountOf data, EntryReads data i) →
      ∀ before type after, SectionType.all = before ++ type :: after →
        (∀ earlier ∈ before, SectionReads msgpack data earlier) →
        ∀ entry, entryFor data type = some entry → entry.offset + entry.length ≤ data.length)

/-! ## Reading fields -/

section

variable {msgpack : Msgpack} {data : Bytes}

theorem readLe_eq {start width : Nat} (h : start + width ≤ data.length) :
    readLe data start width = .ok (field data start width) := by
  unfold readLe Trap.slice
  rw [if_pos ⟨Nat.le_add_right _ _, h⟩, Nat.add_sub_cancel_left]
  rfl

theorem slice_eq {start stop : Nat} (hle : start ≤ stop) (h : stop ≤ data.length) :
    (Trap.slice data start stop : Call Bytes) = .ok ((data.drop start).take (stop - start)) :=
  if_pos ⟨hle, h⟩

theorem checkPreamble_eq (h : HEADER_SIZE ≤ data.length) :
    checkPreamble data =
      if data.take 4 ≠ BLOB_MAGIC then .error (.error .invalidMagic)
      else if field data 4 4 ≠ WIRE_FORMAT_VERSION then
        .error (.error (.unsupportedVersion (field data 4 4)))
      else .ok () := by
  have hlong : (50 : Nat) ≤ data.length := h
  unfold checkPreamble
  rw [if_neg (Nat.not_lt.mpr h), slice_eq (Nat.zero_le 4) (by omega), readLe_eq (by omega)]
  rfl

theorem checkPreamble_eq_ok : checkPreamble data = .ok () ↔ Preamble data := by
  by_cases hlong : HEADER_SIZE ≤ data.length
  · rw [checkPreamble_eq hlong]
    by_cases hmagic : data.take 4 = BLOB_MAGIC
    · by_cases hversion : field data 4 4 = WIRE_FORMAT_VERSION
      · simp [hmagic, hversion, Preamble, hlong]
      · simp [hmagic, hversion, Preamble]
    · simp [hmagic, Preamble]
  · constructor
    · intro h
      unfold checkPreamble at h
      rw [if_pos (Nat.lt_of_not_le hlong)] at h
      cases h
    · exact fun h => absurd h.1 hlong

theorem safe_checkPreamble (data : Bytes) : Safe (checkPreamble data) := by
  by_cases hlong : HEADER_SIZE ≤ data.length
  · rw [checkPreamble_eq hlong]
    split
    · exact safe_error _
    · split
      · exact safe_error _
      · exact safe_ok ()
  · unfold checkPreamble
    rw [if_pos (Nat.lt_of_not_le hlong)]
    exact safe_error _

theorem decodeFromBytes_eq (h : Preamble data) :
    decodeFromBytes msgpack data =
      if data.length < HEADER_SIZE + sectionCountOf data * SECTION_ENTRY_SIZE then
        .error (.error (.tooShort (HEADER_SIZE + sectionCountOf data * SECTION_ENTRY_SIZE) data.length))
      else
        (List.range (sectionCountOf data)).mapM (readEntry data (totalSizeOf data)) >>= fun sections =>
          decodeSections msgpack (contentHashOf data) (requireSection data sections) := by
  have hlong : (50 : Nat) ≤ data.length := h.1
  unfold decodeFromBytes
  rw [checkPreamble_eq_ok.mpr h, slice_eq (show 8 ≤ 40 by omega) (by omega), readLe_eq (by omega),
    readLe_eq (by omega)]
  rfl

/-! ## The table -/

theorem totalSizeOf_lt (data : Bytes) : totalSizeOf data < 2 ^ 64 := field_lt data 40 8

theorem readEntry_eq {i : Nat} (h : HEADER_SIZE + (i + 1) * SECTION_ENTRY_SIZE ≤ data.length)
    (totalSize : Nat) :
    readEntry data totalSize i =
      match entryAt data i with
      | none => .error (.error (.unknownSectionType (field data (HEADER_SIZE + i * SECTION_ENTRY_SIZE) 2)))
      | some entry =>
        Trap.add entry.offset entry.length >>= fun stop =>
          if stop > totalSize then .error (.error (.sectionOutOfBounds entry.offset entry.length totalSize))
          else .ok entry := by
  have hend : HEADER_SIZE + i * SECTION_ENTRY_SIZE + 18 ≤ data.length := by
    have hsize : SECTION_ENTRY_SIZE = 18 := rfl
    rw [Nat.add_mul] at h
    omega
  unfold readEntry entryAt
  dsimp only
  rw [readLe_eq (by omega), readLe_eq (by omega), readLe_eq (by omega)]
  dsimp only [bind, Except.bind]
  cases SectionType.fromU16 (field data (HEADER_SIZE + i * SECTION_ENTRY_SIZE) 2) with
  | none => rfl
  | some type => rfl

variable {entry : BlobSectionEntry}

theorem readEntry_eq_ok {i : Nat} (h : HEADER_SIZE + (i + 1) * SECTION_ENTRY_SIZE ≤ data.length) :
    readEntry data (totalSizeOf data) i = .ok entry ↔
      entryAt data i = some entry ∧ entry.offset + entry.length ≤ totalSizeOf data := by
  rw [readEntry_eq h]
  have htotal := totalSizeOf_lt data
  cases hentry : entryAt data i with
  | none => exact ⟨nofun, fun h => (nomatch h.1)⟩
  | some found =>
    dsimp only
    rw [Fallible.bind_eq_ok, Option.some.injEq]
    constructor
    · rintro ⟨stop, hstop, hok⟩
      rw [add_eq_ok] at hstop
      split at hok
      · cases hok
      · obtain rfl := Except.ok.inj hok
        exact ⟨rfl, by omega⟩
    · rintro ⟨rfl, hle⟩
      refine ⟨_, add_eq_ok.mpr ⟨by omega, rfl⟩, if_neg ?_⟩
      omega

theorem safe_readEntry_iff {i : Nat} (h : HEADER_SIZE + (i + 1) * SECTION_ENTRY_SIZE ≤ data.length) :
    Safe (readEntry data (totalSizeOf data) i) ↔
      ∀ entry, entryAt data i = some entry → entry.offset + entry.length < 2 ^ 64 := by
  rw [readEntry_eq h]
  cases hentry : entryAt data i with
  | none => exact ⟨fun _ entry h => (nomatch h), fun _ => safe_error _⟩
  | some found =>
    dsimp only
    rw [safe_bind_iff, safe_add_iff]
    constructor
    · rintro ⟨hlt, -⟩ entry heq
      rwa [← Option.some.inj heq]
    · intro hlt
      refine ⟨hlt found rfl, fun stop _ => ?_⟩
      split
      · exact safe_error _
      · exact safe_ok _

variable {sections : List BlobSectionEntry}

/-- The entries that the loop collects are those of the table. -/
theorem mapM_readEntry_eq_ok (h : HEADER_SIZE + sectionCountOf data * SECTION_ENTRY_SIZE ≤ data.length) :
    (List.range (sectionCountOf data)).mapM (readEntry data (totalSizeOf data)) = .ok sections ↔
      (∀ i < sectionCountOf data, EntryReads data i) ∧ sections = table data := by
  have hfits : ∀ i < sectionCountOf data, HEADER_SIZE + (i + 1) * SECTION_ENTRY_SIZE ≤ data.length := by
    intro i hi
    have hle : (i + 1) * SECTION_ENTRY_SIZE ≤ sectionCountOf data * SECTION_ENTRY_SIZE :=
      Nat.mul_le_mul_right _ hi
    omega
  unfold table
  -- over any indices of the table, so that the induction goes over the list of indices
  have hall : ∀ {items : List Nat} {sections : List BlobSectionEntry},
      (∀ i ∈ items, i < sectionCountOf data) →
      (items.mapM (readEntry data (totalSizeOf data)) = .ok sections ↔
        (∀ i ∈ items, EntryReads data i) ∧ sections = items.filterMap (entryAt data)) := by
    intro items
    induction items with
    | nil =>
      intro sections _
      exact ⟨fun h => ⟨fun i hi => absurd hi List.not_mem_nil, (Except.ok.inj h).symm⟩, fun h =>
        by rw [h.2]; rfl⟩
    | cons i items ih =>
      intro sections hitems
      have hi := hfits i (hitems i List.mem_cons_self)
      rw [List.mapM_cons, Fallible.bind_eq_ok, List.forall_mem_cons]
      constructor
      · rintro ⟨entry, hentry, hrest⟩
        obtain ⟨rest, hrest, hsections⟩ := Fallible.bind_eq_ok.mp hrest
        obtain ⟨hreads, rfl⟩ := (ih fun j hj => hitems j (List.mem_cons_of_mem _ hj)).mp hrest
        obtain ⟨hat, hle⟩ := (readEntry_eq_ok hi).mp hentry
        exact ⟨⟨⟨entry, hat, hle⟩, hreads⟩,
          by rw [List.filterMap_cons, hat]; exact (Except.ok.inj hsections).symm⟩
      · rintro ⟨⟨⟨entry, hat, hle⟩, hreads⟩, rfl⟩
        refine ⟨entry, (readEntry_eq_ok hi).mpr ⟨hat, hle⟩,
          Fallible.bind_eq_ok.mpr ⟨items.filterMap (entryAt data), ?_, ?_⟩⟩
        · exact (ih fun j hj => hitems j (List.mem_cons_of_mem _ hj)).mpr ⟨hreads, rfl⟩
        · rw [List.filterMap_cons, hat]
          rfl
  rw [hall fun i hi => List.mem_range.mp hi]
  simp only [List.mem_range]

/-! ## Sections -/

variable {type : SectionType}

theorem requireSection_eq (hfound : (sections.find? fun entry => entry.sectionType = type) = some entry)
    (hlt : entry.offset + entry.length < 2 ^ 64) :
    requireSection data sections type = Trap.slice data entry.offset (entry.offset + entry.length) := by
  have hadd : (Trap.add entry.offset entry.length : Call Nat) = .ok (entry.offset + entry.length) :=
    if_pos hlt
  unfold requireSection getSection
  rw [hfound]
  dsimp only
  rw [hadd]
  show (Trap.slice data entry.offset (entry.offset + entry.length) >>= fun bytes => .ok
    (some bytes)) >>= _ = _
  cases (Trap.slice data entry.offset (entry.offset + entry.length) : Call Bytes) <;> rfl

theorem requireSection_of_none (hnone : (sections.find? fun entry => entry.sectionType = type) = none) :
    requireSection data sections type = .error (.error (.missingSection type.label)) := by
  unfold requireSection getSection
  rw [hnone]
  rfl

/-- An entry that the decoder takes has passed the check of the table. -/
theorem entryFor_lt (hreads : ∀ i < sectionCountOf data, EntryReads data i)
    (h : entryFor data type = some entry) :
    entry.offset + entry.length < 2 ^ 64 := by
  obtain ⟨i, hi, hat⟩ := List.mem_filterMap.mp (List.mem_of_find?_eq_some h)
  obtain ⟨found, hfound, hle⟩ := hreads i (List.mem_range.mp hi)
  rw [hat] at hfound
  rw [Option.some.inj hfound]
  exact lt_of_le_of_lt hle (totalSizeOf_lt data)

theorem safe_requireSection_iff (hreads : ∀ i < sectionCountOf data, EntryReads data i)
    (type : SectionType) :
    Safe (requireSection data (table data) type) ↔
      ∀ entry, entryFor data type = some entry → entry.offset + entry.length ≤ data.length := by
  cases hentry : entryFor data type with
  | none =>
    rw [requireSection_of_none hentry]
    exact ⟨fun _ entry h => (nomatch h), fun _ => safe_error _⟩
  | some found =>
    rw [requireSection_eq hentry (entryFor_lt hreads hentry), safe_slice_iff]
    constructor
    · rintro ⟨-, hle⟩ entry heq
      rwa [← Option.some.inj heq]
    · exact fun h => ⟨Nat.le_add_right _ _, h found rfl⟩

variable {bytes : Bytes}

theorem requireSection_eq_ok (hreads : ∀ i < sectionCountOf data, EntryReads data i) :
    requireSection data (table data) type = .ok bytes ↔
      ∃ entry, entryFor data type = some entry ∧ entry.offset + entry.length ≤ data.length ∧
        bytes = (data.drop entry.offset).take entry.length := by
  cases hentry : entryFor data type with
  | none =>
    rw [requireSection_of_none hentry]
    exact ⟨nofun, fun ⟨entry, h, _⟩ => (nomatch h)⟩
  | some found =>
    rw [requireSection_eq hentry (entryFor_lt hreads hentry), slice_eq_ok, Nat.add_sub_cancel_left]
    constructor
    · rintro ⟨⟨-, hle⟩, rfl⟩
      exact ⟨found, rfl, hle, rfl⟩
    · rintro ⟨entry, heq, hle, rfl⟩
      obtain rfl := Option.some.inj heq
      exact ⟨⟨Nat.le_add_right _ _, hle⟩, rfl⟩

/-- The payload of one section, decoded and dropped. -/
def checkPayload (msgpack : Msgpack) (bytes : Bytes) : SectionType → Call Unit
  | .metadata => (fromMsgpack (msgpack.metadata bytes)).map fun _ => ()
  | .instructions => .ok ()
  | .constants => .ok ()
  | .strings => (fromMsgpack (msgpack.strings bytes)).map fun _ => ()
  | .dependencies => (readDependencies bytes).map fun _ => ()
  | .typeSchemas => (fromMsgpack (msgpack.strings bytes)).map fun _ => ()
  | .sourceMap => (fromMsgpack (msgpack.sourceMap bytes)).map fun _ => ()
  | .permissions => (fromMsgpack (msgpack.strings bytes)).map fun _ => ()

theorem safe_fromMsgpack {α : Type} (decoded : Except String α) : Safe (fromMsgpack decoded) := by
  cases decoded with
  | error e => exact safe_error _
  | ok a => exact safe_ok a

theorem exists_fromMsgpack_eq_ok {α : Type} {decoded : Except String α} :
    (∃ a, fromMsgpack decoded = .ok a) ↔ ∃ a, decoded = .ok a := by
  cases decoded with
  | error e => exact ⟨fun ⟨a, h⟩ => (nomatch h), fun ⟨a, h⟩ => (nomatch h)⟩
  | ok a => exact ⟨fun _ => ⟨a, rfl⟩, fun _ => ⟨a, rfl⟩⟩

theorem safe_readDependencies (bytes : Bytes) : Safe (readDependencies bytes) := by
  unfold readDependencies
  split
  · exact safe_error _
  · exact safe_ok _

theorem exists_readDependencies_eq_ok :
    (∃ hashes, readDependencies bytes = .ok hashes) ↔ bytes.length % 32 = 0 := by
  unfold readDependencies
  split
  · rename_i h
    exact ⟨fun ⟨_, heq⟩ => (nomatch heq), fun heq => absurd heq h⟩
  · rename_i h
    exact ⟨fun _ => not_not.mp h, fun _ => ⟨_, rfl⟩⟩

theorem safe_checkPayload (bytes : Bytes) (type : SectionType) :
    Safe (checkPayload msgpack bytes type) := by
  cases type with
  | instructions => exact safe_ok ()
  | constants => exact safe_ok ()
  | dependencies => exact safe_map_iff.mpr (safe_readDependencies bytes)
  | metadata => exact safe_map_iff.mpr (safe_fromMsgpack _)
  | strings => exact safe_map_iff.mpr (safe_fromMsgpack _)
  | typeSchemas => exact safe_map_iff.mpr (safe_fromMsgpack _)
  | sourceMap => exact safe_map_iff.mpr (safe_fromMsgpack _)
  | permissions => exact safe_map_iff.mpr (safe_fromMsgpack _)

theorem exists_checkPayload_eq_ok :
    (∃ done, checkPayload msgpack bytes type = .ok done) ↔ msgpack.Reads bytes type := by
  cases type with
  | instructions => exact ⟨fun _ => True.intro, fun _ => ⟨(), rfl⟩⟩
  | constants => exact ⟨fun _ => True.intro, fun _ => ⟨(), rfl⟩⟩
  | dependencies => exact (Fallible.exists_map_eq_ok _).trans exists_readDependencies_eq_ok
  | metadata => exact (Fallible.exists_map_eq_ok _).trans exists_fromMsgpack_eq_ok
  | strings => exact (Fallible.exists_map_eq_ok _).trans exists_fromMsgpack_eq_ok
  | typeSchemas => exact (Fallible.exists_map_eq_ok _).trans exists_fromMsgpack_eq_ok
  | sourceMap => exact (Fallible.exists_map_eq_ok _).trans exists_fromMsgpack_eq_ok
  | permissions => exact (Fallible.exists_map_eq_ok _).trans exists_fromMsgpack_eq_ok

/-- Where each section is decoded as soon as it is taken, the eight steps are a loop over the types. -/
theorem safe_decodeSections_iff_forM {contentHash : Bytes} {require : SectionType → Call Bytes} :
    Safe (decodeSections msgpack contentHash require) ↔
      Safe (SectionType.all.forM fun type => require type >>= fun bytes =>
        checkPayload msgpack bytes type) := by
  -- a section that is taken and decoded, against the same section taken and checked
  have hdecoded : ∀ {α : Type} (type : SectionType) (decode : Bytes → Call α),
      (∀ bytes, checkPayload msgpack bytes type = (decode bytes).map fun _ => ()) →
      (Safe (require type >>= decode) ↔
        Safe (require type >>= fun bytes => checkPayload msgpack bytes type)) ∧
      ((∃ a, require type >>= decode = .ok a) ↔
        ∃ done, (require type >>= fun bytes => checkPayload msgpack bytes type) = .ok done) := by
    intro α type decode hcheck
    cases require type with
    | error trap => exact ⟨by cases trap <;> simp [Safe, bind, Except.bind], by simp [bind, Except.bind]⟩
    | ok bytes =>
      show (Safe (decode bytes) ↔ Safe (checkPayload msgpack bytes type)) ∧
        ((∃ a, decode bytes = .ok a) ↔ ∃ done, checkPayload msgpack bytes type = .ok done)
      rw [hcheck]
      exact ⟨safe_map_iff.symm, (Fallible.exists_map_eq_ok _).symm⟩
  -- instructions and constants are kept as bytes, and nothing checks them
  have hraw : ∀ type, (∀ bytes, checkPayload msgpack bytes type = .ok ()) →
      (Safe (require type) ↔ Safe (require type >>= fun bytes => checkPayload msgpack bytes type)) ∧
      ((∃ a, require type = .ok a) ↔
        ∃ done, (require type >>= fun bytes => checkPayload msgpack bytes type) = .ok done) := by
    intro type hcheck
    have h := hdecoded type (fun bytes => .ok bytes) hcheck
    have hbind : (require type >>= fun bytes => .ok bytes) = require type := by cases require type <;> rfl
    rwa [hbind] at h
  unfold decodeSections
  -- the eight sections in order: each one that comes back safe and good leads to the next
  obtain ⟨hsafe, hok⟩ := hdecoded .metadata (fun bytes => fromMsgpack (msgpack.metadata bytes)) fun _ => rfl
  refine safe_bind_congr hsafe hok fun _ _ => ?_
  obtain ⟨hsafe, hok⟩ := hraw .instructions fun _ => rfl
  refine safe_bind_congr hsafe hok fun _ _ => ?_
  obtain ⟨hsafe, hok⟩ := hraw .constants fun _ => rfl
  refine safe_bind_congr hsafe hok fun _ _ => ?_
  obtain ⟨hsafe, hok⟩ := hdecoded .strings (fun bytes => fromMsgpack (msgpack.strings bytes)) fun _ => rfl
  refine safe_bind_congr hsafe hok fun _ _ => ?_
  obtain ⟨hsafe, hok⟩ := hdecoded .dependencies readDependencies fun _ => rfl
  refine safe_bind_congr hsafe hok fun _ _ => ?_
  obtain ⟨hsafe, hok⟩ := hdecoded .typeSchemas (fun bytes => fromMsgpack (msgpack.strings bytes))
      fun _ => rfl
  refine safe_bind_congr hsafe hok fun _ _ => ?_
  obtain ⟨hsafe, hok⟩ := hdecoded .sourceMap (fun bytes => fromMsgpack (msgpack.sourceMap bytes))
      fun _ => rfl
  refine safe_bind_congr hsafe hok fun _ _ => ?_
  obtain ⟨hsafe, hok⟩ := hdecoded .permissions (fun bytes => fromMsgpack (msgpack.strings bytes))
      fun _ => rfl
  refine safe_bind_congr hsafe hok fun _ _ => ?_
  exact ⟨fun _ => safe_ok (), fun _ => safe_ok _⟩

theorem safe_decodeFromBytes_iff (msgpack : Msgpack) (data : Bytes) :
    Safe (decodeFromBytes msgpack data) ↔ SectionsInRange msgpack data := by
  -- a file whose preamble is refused is not read further
  by_cases hpreamble : Preamble data
  · rw [decodeFromBytes_eq hpreamble]
    by_cases hshort : data.length < HEADER_SIZE + sectionCountOf data * SECTION_ENTRY_SIZE
    · rw [if_pos hshort]
      exact ⟨fun _ _ hle => absurd hshort (Nat.not_lt.mpr hle), fun _ => safe_error _⟩
    · have hlong := Nat.not_lt.mp hshort
      have hfits : ∀ i < sectionCountOf data, HEADER_SIZE + (i + 1) * SECTION_ENTRY_SIZE ≤ data.length := by
        intro i hi
        have hle : (i + 1) * SECTION_ENTRY_SIZE ≤ sectionCountOf data * SECTION_ENTRY_SIZE :=
          Nat.mul_le_mul_right _ hi
        omega
      -- an entry is read exactly if it lies inside, whatever the entries before it hold
      have hentry : ∀ i < sectionCountOf data,
          ((∃ entry, readEntry data (totalSizeOf data) i = .ok entry) ↔ EntryReads data i) :=
        fun i hi => exists_congr fun entry => readEntry_eq_ok (hfits i hi)
      rw [if_neg hshort, safe_bind_iff, safe_mapM_range_iff]
      unfold SectionsInRange
      constructor
      -- from the run to the file: what was taken before a section is in range and decodes
      · rintro ⟨htable, hsections⟩ - -
        refine ⟨fun i hi hbefore => ?_, fun hreads before type after hsplit hbefore => ?_⟩
        · refine (safe_readEntry_iff (hfits i hi)).mp (htable i hi fun j hj => ?_)
          exact (hentry j (Nat.lt_trans hj hi)).mpr (hbefore j hj)
        · have hsafe := hsections (table data) ((mapM_readEntry_eq_ok hlong).mpr ⟨hreads, rfl⟩)
          rw [safe_decodeSections_iff_forM, safe_forM_iff] at hsafe
          have htype := hsafe before type after hsplit fun earlier hmem => ?_
          · exact (safe_requireSection_iff hreads type).mp (safe_bind_iff.mp htype).1
          · obtain ⟨entry, hfound, hle, hpayload⟩ := hbefore earlier hmem
            obtain ⟨done, hdone⟩ := exists_checkPayload_eq_ok.mpr hpayload
            have hrequire := (requireSection_eq_ok hreads).mpr ⟨entry, hfound, hle, rfl⟩
            exact ⟨done, Fallible.bind_eq_ok.mpr ⟨_, hrequire, hdone⟩⟩
      -- from the file to the run
      · intro h
        obtain ⟨htable, hsections⟩ := h hpreamble hlong
        refine ⟨fun i hi hbefore => ?_, fun sections hok => ?_⟩
        · refine (safe_readEntry_iff (hfits i hi)).mpr (htable i hi fun j hj => ?_)
          exact (hentry j (Nat.lt_trans hj hi)).mp (hbefore j hj)
        · obtain ⟨hreads, rfl⟩ := (mapM_readEntry_eq_ok hlong).mp hok
          rw [safe_decodeSections_iff_forM, safe_forM_iff]
          intro before type after hsplit hbefore
          refine safe_bind_iff.mpr ⟨?_, fun bytes _ => safe_checkPayload bytes type⟩
          refine (safe_requireSection_iff hreads type).mpr
            (hsections hreads before type after hsplit fun earlier hmem => ?_)
          obtain ⟨done, hdone⟩ := hbefore earlier hmem
          obtain ⟨bytes, hrequire, hpayload⟩ := Fallible.bind_eq_ok.mp hdone
          obtain ⟨entry, hfound, hle, rfl⟩ := (requireSection_eq_ok hreads).mp hrequire
          exact ⟨entry, hfound, hle, exists_checkPayload_eq_ok.mp ⟨done, hpayload⟩⟩
  · refine ⟨fun _ h => absurd h hpreamble, fun _ => ?_⟩
    unfold decodeFromBytes
    refine safe_bind_iff.mpr ⟨safe_checkPreamble data, fun done hdone => ?_⟩
    exact absurd (checkPreamble_eq_ok.mp hdone) hpreamble

end

end ShapeLang.BlobWire
