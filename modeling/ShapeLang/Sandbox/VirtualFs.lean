import ShapeLang.Lib.Tally
import ShapeLang.Lib.Runs

/-!
# The in-memory file system of the sandbox

`crates/shape-runtime/src/stdlib/virtual_fs.rs`: one flat map from paths to entries, the set of
seeded paths, and a running total of the bytes that the guest has written. The host seeds before the
guest runs; the guest then uses the methods of `FileSystemProvider`.

The total is adjusted by `write`, `append` and `remove`, each in its own way. What ties it to the
map is `Accounted`: it is the sum over the files that are not seeded (`written`), which is what
`extract_written_files` returns. Seeded paths are guarded by the set, and the directories that an
operation creates on its way never replace an entry.

Locks are left out: every method takes and releases them by itself, and the model runs the methods
one at a time.
-/

namespace ShapeLang.Sandbox

open Lib

/-! ## Paths

`Path` compares by components: separators at the end, doubled separators and `.` behind the start do
not count. What is left is a start and the components behind it, the last one outermost. -/

inductive Segment where
  | parentDir
  | normal (name : String)
  deriving DecidableEq

inductive Path where
  /-- The path "". -/
  | empty
  /-- The path "/". -/
  | root
  /-- The path ".". -/
  | here
  | join (dir : Path) (segment : Segment)
  deriving DecidableEq

/-- In the order in which components compare. -/
inductive Component where
  | rootDir
  | curDir
  | parentDir
  | normal (name : String)
  deriving Ord

def Segment.component : Segment → Component
  | .parentDir => .parentDir
  | .normal name => .normal name

namespace Path

def components : Path → List Component
  | .empty => []
  | .root => [.rootDir]
  | .here => [.curDir]
  | .join dir segment => components dir ++ [segment.component]

def parent : Path → Option Path
  | .empty => none
  | .root => none
  | .here => some .empty
  | .join dir _ => some dir

/-- The path itself first. -/
def ancestors : Path → List Path
  | .empty => [.empty]
  | .root => [.root]
  | .here => [.here, .empty]
  | .join dir segment => .join dir segment :: ancestors dir

/-- `ancestors().skip(1)`. -/
def properAncestors (path : Path) : List Path := path.ancestors.tail

/-- The two paths that exist without an entry. -/
def isRoot (path : Path) : Bool := path = .empty || path = .root

/-- The ancestors that get an entry. -/
def enclosing (path : Path) : List Path := path.properAncestors.filter fun ancestor => !ancestor.isRoot

end Path

/-! ## States and operations -/

structure VfsEntry where
  content : List UInt8
  isDir : Bool
  deriving DecidableEq

namespace VfsEntry

def directory : VfsEntry := { content := [], isDir := true }

def file (content : List UInt8) : VfsEntry := { content, isDir := false }

def content? (entry : VfsEntry) : Option (List UInt8) := if entry.isDir then none else some entry.content

end VfsEntry

abbrev Files := HashMap Path VfsEntry

structure VirtualFilesystem where
  files : Files
  readOnly : Finset Path
  totalWritten : Nat
  /-- Zero is no limit. -/
  maxSize : Nat

/-- The errors of the provider, one for each message. -/
inductive IoError where
  /-- `Other`: "… is a directory". -/
  | isDirectory (path : Path)
  /-- `Other`: "… is not a directory". -/
  | notDirectory (path : Path)
  /-- `NotFound`: "… not found in VFS". -/
  | notFound (path : Path)
  /-- `PermissionDenied`: "… is read-only (seed file)". -/
  | readOnly (path : Path)
  /-- `Other`: "VFS size limit exceeded: … + … > …". -/
  | sizeLimitExceeded (current additional maxSize : Nat)
  deriving DecidableEq

structure PathEntry where
  path : Path
  isDir : Bool
  deriving DecidableEq

structure FileMetadata where
  size : Nat
  isDir : Bool
  isFile : Bool
  readonly : Bool
  deriving DecidableEq

namespace VirtualFilesystem

def new (maxSize : Nat) : VirtualFilesystem where
  files := ∅
  readOnly := ∅
  totalWritten := 0
  maxSize := maxSize

def ensureParents (fs : VirtualFilesystem) (path : Path) : VirtualFilesystem :=
  { fs with files := orInsertEach fs.files path.enclosing .directory }

/-- What `seed_file` and `seed_dir` share. -/
def seed (fs : VirtualFilesystem) (path : Path) (entry : VfsEntry) : VirtualFilesystem :=
  let fs := fs.ensureParents path
  { fs with files := fs.files.insert path entry, readOnly := insert path fs.readOnly }

def seedFile (fs : VirtualFilesystem) (path : Path) (content : List UInt8) : VirtualFilesystem :=
  fs.seed path (.file content)

def seedDir (fs : VirtualFilesystem) (path : Path) : VirtualFilesystem :=
  fs.seed path .directory

def isWritten (readOnly : Finset Path) (path : Path) (entry : VfsEntry) : Bool :=
  !entry.isDir && decide (path ∉ readOnly)

def extractWrittenFiles (fs : VirtualFilesystem) : HashMap Path (List UInt8) :=
  ⟨(fs.files.entries.filter fun entry => isWritten fs.readOnly entry.1 entry.2).map
      fun entry => ⟨entry.1, entry.2.content⟩, by
    have hkeys := List.NodupKeys.sublist
        (List.filter_sublist (p := fun entry => isWritten fs.readOnly entry.1 entry.2))
      fs.files.nodupKeys
    unfold List.NodupKeys List.keys at hkeys ⊢
    rw [List.map_map]
    exact hkeys⟩

def totalBytesWritten (fs : VirtualFilesystem) : Nat := fs.totalWritten

def checkSizeLimit (fs : VirtualFilesystem) (additional : Nat) : Except IoError Unit :=
  if fs.maxSize = 0 then .ok ()
  else if fs.totalWritten + additional > fs.maxSize then
    .error (.sizeLimitExceeded fs.totalWritten additional fs.maxSize)
  else .ok ()

def read (fs : VirtualFilesystem) (path : Path) : Except IoError (List UInt8) :=
  match fs.files.lookup path with
  | some entry => if entry.isDir then .error (.isDirectory path) else .ok entry.content
  | none => .error (.notFound path)

/-- The checks that `write` and `append` start with, and what they do behind them. -/
def checked (fs : VirtualFilesystem) (path : Path) (additional : Nat)
    (accepted : VirtualFilesystem × Except IoError Unit) : VirtualFilesystem × Except IoError Unit :=
  if path ∈ fs.readOnly then (fs, .error (.readOnly path))
  else match fs.checkSizeLimit additional with
    | .error error => (fs, .error error)
    | .ok () => accepted

/-- Behind the two checks of `write`. -/
def putFile (fs : VirtualFilesystem) (path : Path) (data : List UInt8) : VirtualFilesystem :=
  let fs := fs.ensureParents path
  let oldSize :=
    (((fs.files.lookup path).filter fun entry => !entry.isDir).map fun entry =>
    entry.content.length).getD 0
  { fs with
    files := fs.files.insert path (.file data)
    totalWritten := fs.totalWritten - oldSize + data.length }

def write (fs : VirtualFilesystem) (path : Path) (data : List UInt8) :
    VirtualFilesystem × Except IoError Unit :=
  fs.checked path data.length (fs.putFile path data, .ok ())

/-- Behind the two checks of `append`: `entry(path).or_insert_with(..)`, then the bytes go to the
end of the content. -/
def extendFile (fs : VirtualFilesystem) (path : Path) (data : List UInt8) :
    VirtualFilesystem × Except IoError Unit :=
  let fs := fs.ensureParents path
  let entry := (fs.files.lookup path).getD (.file [])
  if entry.isDir then (fs, .error (.isDirectory path))
  else
    ({ fs with
        files := fs.files.insert path { entry with content := entry.content ++ data }
        totalWritten := fs.totalWritten + data.length },
      .ok ())

def append (fs : VirtualFilesystem) (path : Path) (data : List UInt8) :
    VirtualFilesystem × Except IoError Unit :=
  fs.checked path data.length (fs.extendFile path data)

def pathExists (fs : VirtualFilesystem) (path : Path) : Bool :=
  path.isRoot || (fs.files.lookup path).isSome

def remove (fs : VirtualFilesystem) (path : Path) : VirtualFilesystem × Except IoError Unit :=
  if path ∈ fs.readOnly then (fs, .error (.readOnly path))
  else match fs.files.lookup path with
    | some entry =>
      if entry.isDir then
        -- Taken out and put back.
        ({ fs with files := (fs.files.erase path).insert path entry }, .error (.isDirectory path))
      else
        ({ fs with
          files := fs.files.erase path
          totalWritten := fs.totalWritten - entry.content.length }, .ok ())
    | none => (fs, .error (.notFound path))

/-- The entries whose parent the path is, sorted by path. -/
def entriesIn (fs : VirtualFilesystem) (path : Path) : List PathEntry :=
  ((fs.files.entries.filter fun entry => entry.1.parent = some path && entry.1 ≠ path).map
    fun entry => { path := entry.1, isDir := entry.2.isDir }).insertionSort
    fun a b => (compare a.path.components b.path.components).isLE = true

def listDir (fs : VirtualFilesystem) (path : Path) : Except IoError (List PathEntry) :=
  if path.isRoot then .ok (fs.entriesIn path)
  else match fs.files.lookup path with
    | some entry => if entry.isDir then .ok (fs.entriesIn path) else .error (.notDirectory path)
    | none => .error (.notFound path)

def metadata (fs : VirtualFilesystem) (path : Path) : Except IoError FileMetadata :=
  match fs.files.lookup path with
  | some entry =>
    .ok
      { size := entry.content.length
        isDir := entry.isDir
        isFile := !entry.isDir
        readonly := decide (path ∈ fs.readOnly) }
  | none => .error (.notFound path)

def createDirAll (fs : VirtualFilesystem) (path : Path) : VirtualFilesystem × Except IoError Unit :=
  let files := orInsertEach fs.files (path.ancestors.filter fun ancestor => !ancestor.isRoot) .directory
  ({ fs with files := orInsert files path .directory }, .ok ())

end VirtualFilesystem

/-! ## Runs -/

/-- What the host does. -/
inductive Seed where
  | file (path : Path) (content : List UInt8)
  | dir (path : Path)

def Seed.path : Seed → Path
  | .file path _ => path
  | .dir path => path

def Seed.entry : Seed → VfsEntry
  | .file _ content => .file content
  | .dir _ => .directory

/-- The methods of `FileSystemProvider`. -/
inductive GuestOp where
  | read (path : Path)
  | write (path : Path) (data : List UInt8)
  | append (path : Path) (data : List UInt8)
  | pathExists (path : Path)
  | remove (path : Path)
  | listDir (path : Path)
  | metadata (path : Path)
  | createDirAll (path : Path)

namespace VirtualFilesystem

def seedStep (fs : VirtualFilesystem) : Seed → VirtualFilesystem
  | .file path content => fs.seedFile path content
  | .dir path => fs.seedDir path

/-- The state after a method, whatever it returns. Four of the methods only look. -/
def guestStep (fs : VirtualFilesystem) : GuestOp → VirtualFilesystem
  | .read _ => fs
  | .write path data => (fs.write path data).1
  | .append path data => (fs.append path data).1
  | .pathExists _ => fs
  | .remove path => (fs.remove path).1
  | .listDir _ => fs
  | .metadata _ => fs
  | .createDirAll path => (fs.createDirAll path).1

end VirtualFilesystem

/-! ## The running total -/

namespace VirtualFilesystem

/-- What an entry adds to the bytes that `extract_written_files` returns. -/
def writtenSize (readOnly : Finset Path) (path : Path) (entry : VfsEntry) : Nat :=
  if isWritten readOnly path entry then entry.content.length else 0

theorem sum_extractWrittenFiles (fs : VirtualFilesystem) :
    (fs.extractWrittenFiles.entries.map fun entry => entry.2.length).sum = tally
    (writtenSize fs.readOnly) fs.files := by
  unfold extractWrittenFiles
  rw [List.map_map]
  exact sum_filter_eq_tally (isWritten fs.readOnly) (fun entry => entry.content.length) fs.files

/-- The total is the sum over the written files, and within the limit. -/
structure Accounted (fs : VirtualFilesystem) : Prop where
  total : fs.totalWritten = tally (writtenSize fs.readOnly) fs.files
  quota : fs.maxSize ≠ 0 → fs.totalWritten ≤ fs.maxSize

/-- What a guest can not do: change the set of seeded paths or the limit, or the entry of a seeded path. -/
structure Guards (before after : VirtualFilesystem) : Prop where
  readOnly : after.readOnly = before.readOnly
  maxSize : after.maxSize = before.maxSize
  entries : ∀ path ∈ before.readOnly, ∀ entry, before.files.lookup path = some entry →
    after.files.lookup path = some entry

theorem Guards.refl (fs : VirtualFilesystem) : Guards fs fs := ⟨rfl, rfl, fun _ _ _ h => h⟩

theorem Guards.trans {a b c : VirtualFilesystem} (hab : Guards a b) (hbc : Guards b c) : Guards a c where
  readOnly := hbc.readOnly.trans hab.readOnly
  maxSize := hbc.maxSize.trans hab.maxSize
  entries path hmem entry h := by
    have hmem' : path ∈ b.readOnly := by rwa [hab.readOnly]
    exact hbc.entries path hmem' entry (hab.entries path hmem entry h)

variable (readOnly : Finset Path)

/-- A directory adds nothing. -/
theorem writtenSize_directory (path : Path) : writtenSize readOnly path .directory = 0 := rfl

variable {path : Path}

theorem writtenSize_of_notMem {readOnly : Finset Path} (hro : path ∉ readOnly) (entry : VfsEntry) :
    writtenSize readOnly path entry = if entry.isDir then 0 else entry.content.length := by
  unfold writtenSize isWritten
  cases hdir : entry.isDir <;> simp [hro]

variable {fs : VirtualFilesystem} {additional : Nat}

theorem checkSizeLimit_eq_ok (h : fs.checkSizeLimit additional = .ok ()) :
    fs.maxSize ≠ 0 → fs.totalWritten + additional ≤ fs.maxSize := by
  intro hlimit
  unfold checkSizeLimit at h
  rw [if_neg hlimit] at h
  split at h
  · cases h
  · omega

/-- Both checks of `write` and `append` pass. -/
def Accepts (fs : VirtualFilesystem) (path : Path) (additional : Nat) : Prop :=
  path ∉ fs.readOnly ∧ fs.checkSizeLimit additional = .ok ()

/-- When a check fails, nothing has changed. -/
theorem checked_cases (fs : VirtualFilesystem) (path : Path) (additional : Nat)
    (accepted : VirtualFilesystem × Except IoError Unit) :
    (fs.Accepts path additional ∧ fs.checked path additional accepted = accepted) ∨
      (¬fs.Accepts path additional ∧ (fs.checked path additional accepted).1 = fs) := by
  unfold checked Accepts
  split
  · rename_i hro
    exact Or.inr ⟨fun haccepts => haccepts.1 hro, rfl⟩
  · rename_i hro
    cases hlimit : fs.checkSizeLimit additional with
    | error error => exact Or.inr ⟨fun haccepts => (nomatch haccepts.2), rfl⟩
    | ok done => exact Or.inl ⟨⟨hro, rfl⟩, rfl⟩

/-! ### Directories on the way -/

theorem lookup_ensureParents (fs : VirtualFilesystem) (path path' : Path) :
    (fs.ensureParents path).files.lookup path' =
      (fs.files.lookup path').or (if path' ∈ path.enclosing then some .directory else none) :=
  lookup_orInsertEach fs.files path.enclosing path' .directory

theorem tally_ensureParents (fs : VirtualFilesystem) (path : Path) (readOnly : Finset Path) :
    tally (writtenSize readOnly) (fs.ensureParents path).files = tally (writtenSize readOnly) fs.files :=
  tally_orInsertEach_of_zero (writtenSize_directory readOnly) fs.files path.enclosing

theorem accounted_ensureParents (h : Accounted fs) (path : Path) :
    Accounted (fs.ensureParents path) where
  total := by
    rw [show (fs.ensureParents path).readOnly = fs.readOnly from rfl, tally_ensureParents]
    exact h.total
  quota := h.quota

theorem guards_ensureParents (fs : VirtualFilesystem) (path : Path) :
    Guards fs (fs.ensureParents path) where
  readOnly := rfl
  maxSize := rfl
  entries path' _ entry h := by
    rw [lookup_ensureParents, h]
    rfl

/-- A new entry at a path that is not seeded. -/
theorem guards_insert (hro : path ∉ fs.readOnly) (entry : VfsEntry) (total : Nat) :
    Guards fs { fs with files := fs.files.insert path entry, totalWritten := total } where
  readOnly := rfl
  maxSize := rfl
  entries path' hmem entry' h := by
    have hne : path' ≠ path := by
      rintro rfl
      exact hro hmem
    exact (AList.lookup_insert_ne hne).trans h

/-! ### One operation -/

/-- The size that `write` subtracts is what the old entry adds to the total. -/
theorem weightAt_eq_oldSize {readOnly : Finset Path} (hro : path ∉ readOnly) (files : Files) :
    weightAt (writtenSize readOnly) files path =
      (((files.lookup path).filter fun entry => !entry.isDir).map fun entry =>
        entry.content.length).getD 0 := by
  unfold weightAt
  cases files.lookup path with
  | none => rfl
  | some entry =>
    rw [Option.map_some, writtenSize_of_notMem hro, Option.filter_some]
    cases hdir : entry.isDir <;> rfl

theorem accounted_putFile (h : Accounted fs) (hro : path ∉ fs.readOnly) {data : List UInt8}
    (hlimit : fs.checkSizeLimit data.length = .ok ()) : Accounted (fs.putFile path data) := by
  have hparents := accounted_ensureParents h path
  have hroom : (fs.ensureParents path).maxSize ≠ 0 →
      (fs.ensureParents path).totalWritten + data.length ≤ (fs.ensureParents path).maxSize :=
        checkSizeLimit_eq_ok hlimit
  have hro' : path ∉ (fs.ensureParents path).readOnly := hro
  unfold putFile
  generalize fs.ensureParents path = fs at hparents hroom hro'
  dsimp only
  rw [← weightAt_eq_oldSize hro' fs.files]
  have hsplit := tally_eq_weightAt_add_erase (writtenSize fs.readOnly) fs.files path
  have hnew : writtenSize fs.readOnly path (.file data) = data.length := writtenSize_of_notMem hro' _
  have htotal := hparents.total
  refine ⟨?_, fun hmax => ?_⟩
  · show fs.totalWritten - weightAt (writtenSize fs.readOnly) fs.files path + data.length =
      tally (writtenSize fs.readOnly) (fs.files.insert path (.file data))
    rw [tally_insert, hnew]
    omega
  · have hle := hroom hmax
    show fs.totalWritten - weightAt (writtenSize fs.readOnly) fs.files path + data.length ≤ fs.maxSize
    omega

theorem accounted_extendFile (h : Accounted fs) (hro : path ∉ fs.readOnly) {data : List UInt8}
    (hlimit : fs.checkSizeLimit data.length = .ok ()) :
    Accounted (fs.extendFile path data).1 := by
  have hparents := accounted_ensureParents h path
  have hroom : (fs.ensureParents path).maxSize ≠ 0 →
      (fs.ensureParents path).totalWritten + data.length ≤ (fs.ensureParents path).maxSize :=
        checkSizeLimit_eq_ok hlimit
  have hro' : path ∉ (fs.ensureParents path).readOnly := hro
  unfold extendFile
  generalize fs.ensureParents path = fs' at hparents hroom hro'
  dsimp only
  split
  · exact hparents
  · rename_i hdir
    refine ⟨?_, fun hmax => hroom hmax⟩
    -- A file that was there keeps its bytes, one that was not starts with none.
    have hold : weightAt (writtenSize fs'.readOnly) fs'.files path =
        ((fs'.files.lookup path).getD (.file [])).content.length := by
      unfold weightAt
      cases hlookup : fs'.files.lookup path with
      | none => rfl
      | some entry =>
        rw [hlookup, Option.getD_some] at hdir
        rw [Option.map_some, writtenSize_of_notMem hro', Option.getD_some, Option.getD_some, if_neg hdir]
    have hsplit := tally_eq_weightAt_add_erase (writtenSize fs'.readOnly) fs'.files path
    have htotal := hparents.total
    show fs'.totalWritten + data.length = tally (writtenSize fs'.readOnly) (fs'.files.insert path _)
    rw [tally_insert, writtenSize_of_notMem hro', if_neg hdir, List.length_append]
    omega

variable {accepted : VirtualFilesystem × Except IoError Unit}

theorem accounted_checked (h : Accounted fs)
    (haccepted : path ∉ fs.readOnly → fs.checkSizeLimit additional = .ok () → Accounted accepted.1) :
    Accounted (fs.checked path additional accepted).1 := by
  rcases checked_cases fs path additional accepted with ⟨⟨hro, hlimit⟩, heq⟩ | ⟨-, heq⟩
  · rw [heq]
    exact haccepted hro hlimit
  · rwa [heq]

theorem accounted_remove (h : Accounted fs) (path : Path) : Accounted (fs.remove path).1 := by
  unfold remove
  split
  · exact h
  · rename_i hro
    have hsplit := tally_eq_weightAt_add_erase (writtenSize fs.readOnly) fs.files path
    have htotal := h.total
    split
    · rename_i entry hlookup
      have hold : weightAt (writtenSize fs.readOnly) fs.files path = writtenSize fs.readOnly path
          entry := by
        rw [weightAt, hlookup]
        rfl
      -- a directory is taken out and put back
      split
      · refine ⟨?_, h.quota⟩
        show fs.totalWritten = tally (writtenSize fs.readOnly) ((fs.files.erase path).insert path entry)
        rw [tally_insert]
        have herase := tally_eq_weightAt_add_erase (writtenSize fs.readOnly) (fs.files.erase path) path
        rw [weightAt, AList.lookup_erase, Option.map_none, Option.getD_none] at herase
        omega
      -- a file gives back the bytes that were counted for it
      · rename_i hdir
        rw [writtenSize_of_notMem hro, if_neg hdir] at hold
        refine ⟨?_, fun hmax => ?_⟩
        · show fs.totalWritten - entry.content.length = tally (writtenSize fs.readOnly)
            (fs.files.erase path)
          omega
        · have hle := h.quota hmax
          show fs.totalWritten - entry.content.length ≤ fs.maxSize
          omega
    · exact h

theorem accounted_createDirAll (h : Accounted fs) (path : Path) :
    Accounted (fs.createDirAll path).1 := by
  refine ⟨?_, h.quota⟩
  show fs.totalWritten = tally (writtenSize fs.readOnly)
    (orInsert (orInsertEach fs.files _ _) path .directory)
  rw [tally_orInsert_of_zero (writtenSize_directory fs.readOnly path),
    tally_orInsertEach_of_zero (writtenSize_directory fs.readOnly)]
  exact h.total

theorem accounted_guestStep (h : Accounted fs) (op : GuestOp) :
    Accounted (fs.guestStep op) := by
  cases op with
  | write path data => exact accounted_checked h fun hro hlimit => accounted_putFile h hro hlimit
  | append path data => exact accounted_checked h fun hro hlimit => accounted_extendFile h hro hlimit
  | remove path => exact accounted_remove h path
  | createDirAll path => exact accounted_createDirAll h path
  | read path => exact h
  | pathExists path => exact h
  | listDir path => exact h
  | metadata path => exact h

/-! ### Seeded paths -/

theorem guards_checked (haccepted : path ∉ fs.readOnly → Guards fs accepted.1) :
    Guards fs (fs.checked path additional accepted).1 := by
  rcases checked_cases fs path additional accepted with ⟨⟨hro, -⟩, heq⟩ | ⟨-, heq⟩
  · rw [heq]
    exact haccepted hro
  · rw [heq]
    exact .refl fs

theorem guards_putFile (hro : path ∉ fs.readOnly) (data : List UInt8) :
    Guards fs (fs.putFile path data) :=
  have hro' : path ∉ (fs.ensureParents path).readOnly := hro
  (guards_ensureParents fs path).trans (guards_insert hro' _ _)

theorem guards_extendFile (hro : path ∉ fs.readOnly) (data : List UInt8) :
    Guards fs (fs.extendFile path data).1 := by
  have hguards := guards_ensureParents fs path
  have hro' : path ∉ (fs.ensureParents path).readOnly := hro
  unfold extendFile
  dsimp only
  split
  · exact hguards
  · exact hguards.trans (guards_insert hro' _ _)

theorem guards_remove (fs : VirtualFilesystem) (path : Path) : Guards fs (fs.remove path).1 := by
  unfold remove
  split
  · exact .refl fs
  · rename_i hro
    have hne : ∀ path' ∈ fs.readOnly, path' ≠ path := fun path' hmem heq => hro (heq ▸ hmem)
    split
    · split
      · refine ⟨rfl, rfl, fun path' hmem entry' hlookup' => ?_⟩
        exact (AList.lookup_insert_ne (hne path' hmem)).trans
          ((AList.lookup_erase_ne (hne path' hmem)).trans hlookup')
      · refine ⟨rfl, rfl, fun path' hmem entry' hlookup' => ?_⟩
        exact (AList.lookup_erase_ne (hne path' hmem)).trans hlookup'
    · exact .refl fs

theorem guards_createDirAll (fs : VirtualFilesystem) (path : Path) :
    Guards fs (fs.createDirAll path).1 := by
  refine ⟨rfl, rfl, fun path' _ entry hlookup => lookup_orInsert_of_some ?_⟩
  rw [lookup_orInsertEach, hlookup]
  rfl

theorem guards_guestStep (fs : VirtualFilesystem) (op : GuestOp) : Guards fs (fs.guestStep op) := by
  cases op with
  | write path data => exact guards_checked fun hro => guards_putFile hro data
  | append path data => exact guards_checked fun hro => guards_extendFile hro data
  | remove path => exact guards_remove fs path
  | createDirAll path => exact guards_createDirAll fs path
  | read path => exact .refl fs
  | pathExists path => exact .refl fs
  | listDir path => exact .refl fs
  | metadata path => exact .refl fs

/-! ### Seeding -/

theorem seedStep_eq (fs : VirtualFilesystem) (seed : Seed) :
    fs.seedStep seed = fs.seed seed.path seed.entry := by
  cases seed <;> rfl

theorem lookup_seed (fs : VirtualFilesystem) (path path' : Path) (entry : VfsEntry) :
    (fs.seed path entry).files.lookup path' =
      if path' = path then some entry
      else (fs.files.lookup path').or (if path' ∈ path.enclosing then some .directory else none) := by
  show ((fs.ensureParents path).files.insert path entry).lookup path' = _
  by_cases heq : path' = path
  · rw [if_pos heq, heq, AList.lookup_insert]
  · rw [if_neg heq, AList.lookup_insert_ne heq, lookup_ensureParents]

/-- Before the guest runs: nothing is written, and every file is a seed. -/
structure SeededOnly (fs : VirtualFilesystem) : Prop where
  total : fs.totalWritten = 0
  files : ∀ path entry, fs.files.lookup path = some entry → entry.isDir = true ∨ path ∈ fs.readOnly

theorem seededOnly_seedStep (h : SeededOnly fs) (seed : Seed) :
    SeededOnly (fs.seedStep seed) := by
  rw [seedStep_eq]
  refine ⟨h.total, fun path entry hlookup => ?_⟩
  have hgrows : (fs.seed seed.path seed.entry).readOnly = insert seed.path fs.readOnly := rfl
  rw [hgrows]
  rw [lookup_seed] at hlookup
  split at hlookup
  · rename_i heq
    exact Or.inr (heq ▸ Finset.mem_insert_self _ _)
  · -- An older entry, or a directory on the way to the seed.
    rcases Option.or_eq_some_iff.mp hlookup with hold | ⟨-, hnew⟩
    · exact (h.files path entry hold).imp_right (Finset.mem_insert_of_mem ·)
    · split at hnew
      · rw [← Option.some.inj hnew]
        exact Or.inl rfl
      · cases hnew

theorem SeededOnly.accounted (h : SeededOnly fs) : Accounted fs where
  total := by
    rw [h.total]
    refine (tally_eq_zero fun path entry hlookup => ?_).symm
    unfold writtenSize isWritten
    rcases h.files path entry hlookup with hdir | hro
    · simp [hdir]
    · simp [hro]
  quota _ := by
    rw [h.total]
    exact Nat.zero_le _

theorem maxSize_seeds (fs : VirtualFilesystem) (seeds : List Seed) :
    (seeds.foldl seedStep fs).maxSize = fs.maxSize := by
  induction seeds generalizing fs with
  | nil => rfl
  | cons seed seeds ih => rw [List.foldl_cons, ih, seedStep_eq]; rfl

/-- Seeds of other paths leave a seeded path alone. -/
theorem lookup_seeds {seeds : List Seed} (hnot : path ∉ seeds.map Seed.path) {entry : VfsEntry}
    (hlookup : fs.files.lookup path = some entry) (hro : path ∈ fs.readOnly) :
    (seeds.foldl seedStep fs).files.lookup path = some entry ∧ path ∈
    (seeds.foldl seedStep fs).readOnly := by
  induction seeds generalizing fs with
  | nil => exact ⟨hlookup, hro⟩
  | cons seed seeds ih =>
    rw [List.map_cons, List.mem_cons, not_or] at hnot
    have hstep : (fs.seedStep seed).files.lookup path = some entry := by
      rw [seedStep_eq, lookup_seed, if_neg hnot.1, hlookup]
      rfl
    have hro' : path ∈ (fs.seedStep seed).readOnly := by
      rw [seedStep_eq]
      exact Finset.mem_insert_of_mem hro
    exact ih hnot.2 hstep hro'

/-- The last seed of a path stands. -/
theorem lookup_last_seed (fs : VirtualFilesystem) (before : List Seed) (seed : Seed) {after : List Seed}
    (hlast : seed.path ∉ after.map Seed.path) :
    ((before ++ seed :: after).foldl seedStep fs).files.lookup seed.path = some seed.entry ∧
      seed.path ∈ ((before ++ seed :: after).foldl seedStep fs).readOnly := by
  rw [List.foldl_append, List.foldl_cons]
  refine lookup_seeds hlast ?_ ?_
  · rw [seedStep_eq, lookup_seed, if_pos rfl]
  · rw [seedStep_eq]
    exact Finset.mem_insert_self _ _

/-! ### The run -/

/-- What every guest operation keeps, seen from the state that the guest starts in. -/
theorem guest_run {start : VirtualFilesystem} (h : Accounted start) (ops : List GuestOp) :
    Accounted (ops.foldl guestStep start) ∧ Guards start (ops.foldl guestStep start) := by
  have hkept : Throughout guestStep start ops fun fs => Accounted fs ∧ Guards start fs := by
    refine throughout_of_invariant (fun fs op hfs => ?_) ⟨h, .refl start⟩
    exact ⟨accounted_guestStep hfs.1 op, hfs.2.trans (guards_guestStep fs op)⟩
  exact hkept.last

theorem remove_of_readOnly (hro : path ∈ fs.readOnly) :
    fs.remove path = (fs, .error (.readOnly path)) := if_pos hro

/-- Behind any seeding and any guest run, seeded paths hold what the host put there and can not be
removed, the total is the size of what `extract_written_files` returns, and it is within the limit.
-/
theorem seeds_stand_and_total_exact (maxSize : Nat) (seeds : List Seed) (ops : List GuestOp) :
    let fs := ops.foldl guestStep (seeds.foldl seedStep (new maxSize))
    (∀ before seed after, seeds = before ++ seed :: after → seed.path ∉ after.map Seed.path →
      fs.files.lookup seed.path = some seed.entry ∧ fs.remove seed.path =
        (fs, .error (.readOnly seed.path))) ∧
    fs.totalBytesWritten = (fs.extractWrittenFiles.entries.map fun entry => entry.2.length).sum ∧
    (maxSize ≠ 0 → fs.totalBytesWritten ≤ maxSize) := by
  have hseeding : Throughout seedStep (new maxSize) seeds SeededOnly :=
    throughout_of_invariant (fun fs seed hfs => seededOnly_seedStep hfs seed)
      ⟨rfl, fun path entry hlookup => by cases hlookup⟩
  have hseeded := hseeding.last
  obtain ⟨haccounted, hguards⟩ := guest_run hseeded.accounted ops
  refine ⟨fun before seed after hsplit hlast => ?_, ?_, fun hmax => ?_⟩
  · obtain ⟨hlookup, hro⟩ := lookup_last_seed (new maxSize) before seed hlast
    rw [← hsplit] at hlookup hro
    refine ⟨hguards.entries _ hro _ hlookup, remove_of_readOnly ?_⟩
    rwa [hguards.readOnly]
  · rw [sum_extractWrittenFiles]
    exact haccounted.total
  · have hlimit : (ops.foldl guestStep (seeds.foldl seedStep (new maxSize))).maxSize = maxSize :=
      hguards.maxSize.trans (maxSize_seeds _ seeds)
    exact (haccounted.quota (by rwa [hlimit])).trans hlimit.le

/-! ## Contents, told by calls and results -/

/-- Whether a method that can change something returns `Ok`. -/
def succeeds (fs : VirtualFilesystem) : GuestOp → Bool
  | .write path data => (fs.write path data).2.isOk
  | .append path data => (fs.append path data).2.isOk
  | .remove path => (fs.remove path).2.isOk
  | _ => true

/-- The methods of a run that return `Ok`. -/
def succeeding (fs : VirtualFilesystem) : List GuestOp → List GuestOp
  | [] => []
  | op :: ops => (if fs.succeeds op then [op] else []) ++ succeeding (fs.guestStep op) ops

/-- What a method that returns `Ok` makes of the content of `path`. A directory has none. -/
def effect (path : Path) (content : Option (List UInt8)) : GuestOp → Option (List UInt8)
  | .write path' data => if path' = path then some data else content
  | .append path' data => if path' = path then some (content.getD [] ++ data) else content
  | .remove path' => if path' = path then none else content
  | _ => content

/-- What `read` returns, if it returns `Ok`. -/
def content (fs : VirtualFilesystem) (path : Path) : Option (List UInt8) := (fs.read path).toOption

variable (fs) (path) (path' : Path)

theorem content_eq : fs.content path = (fs.files.lookup path).bind VfsEntry.content? := by
  unfold content read VfsEntry.content?
  cases fs.files.lookup path with
  | none => rfl
  | some entry => cases hdir : entry.isDir <;> simp [hdir, Except.toOption]

/-- A directory that appears where nothing was has no content. -/
theorem content_of_or {fs fs' : VirtualFilesystem} {path : Path} {p : Prop} [Decidable p]
    (h : fs'.files.lookup path = (fs.files.lookup path).or (if p then some .directory else none)) :
    fs'.content path = fs.content path := by
  rw [content_eq, content_eq, h]
  cases fs.files.lookup path with
  | some entry => rfl
  | none => split <;> rfl

theorem content_insert (entry : VfsEntry) (total : Nat) :
    content { fs with files := fs.files.insert path' entry, totalWritten := total } path =
      if path' = path then entry.content? else fs.content path := by
  rw [content_eq, content_eq]
  by_cases heq : path' = path
  · simp [heq]
  · rw [if_neg heq, AList.lookup_insert_ne (Ne.symm heq)]

/-- A method's result has the effect if it is `Ok`, and none otherwise. -/
def Follows (op : GuestOp) (result : VirtualFilesystem × Except IoError Unit) : Prop :=
  result.1.content path = if result.2.isOk then effect path (fs.content path) op else fs.content path

theorem follows_checked {op : GuestOp} (h : fs.Follows path op accepted) :
    fs.Follows path op (fs.checked path' additional accepted) := by
  unfold checked
  split
  · rfl
  · split
    · rfl
    · exact h

theorem follows_extendFile (data : List UInt8) :
    fs.Follows path (.append path' data) (fs.extendFile path' data) := by
  have hparents := content_of_or (lookup_ensureParents fs path' path)
  unfold extendFile Follows
  generalize fs.ensureParents path' = fs' at hparents
  dsimp only
  split
  · exact hparents
  · rw [content_insert, ← hparents, content_eq]
    show _ = if path' = path then
      some (((fs'.files.lookup path).bind VfsEntry.content?).getD [] ++ data) else _
    cases hlookup : fs'.files.lookup path' <;> grind [VfsEntry.content?, VfsEntry.file]

theorem follows_remove : fs.Follows path (.remove path') (fs.remove path') := by
  unfold Follows remove
  split
  · rfl
  · split
    · rename_i entry hlookup
      by_cases heq : path = path'
      · subst heq
        split <;> simp [content_eq, effect, hlookup, Except.isOk, Except.toBool]
      · split <;> simp [content_eq, effect, heq, Ne.symm heq]
    · rfl

theorem content_createDirAll : (fs.createDirAll path').1.content path = fs.content path := by
  refine content_of_or (p := path ∈ path'.ancestors.filter (fun ancestor => !ancestor.isRoot) ∨
    path = path') ?_
  rw [show (fs.createDirAll path').1.files = orInsert _ path' .directory from rfl, lookup_orInsert,
    lookup_orInsertEach, Option.or_assoc]
  grind

theorem content_guestStep (op : GuestOp) :
    (fs.guestStep op).content path = if fs.succeeds op then effect path
    (fs.content path) op else fs.content path := by
  cases op with
  | write path' data =>
    refine follows_checked path fs path' ?_
    show content { fs.ensureParents path' with files := _, totalWritten := _ } path = if path' =
      path then some data else _
    rw [content_insert, content_of_or (lookup_ensureParents fs path' path)]
    rfl
  | append path' data => exact follows_checked path fs path' (follows_extendFile path fs path' data)
  | remove path' => exact follows_remove path fs path'
  | createDirAll path' => exact content_createDirAll path fs path'
  | read path' => rfl
  | pathExists path' => rfl
  | listDir path' => rfl
  | metadata path' => rfl

/-- After any run a path reads as what the calls that returned `Ok` have made of it in turn. -/
theorem content_replays_successes (ops : List GuestOp) :
    (ops.foldl guestStep fs).content path = (fs.succeeding ops).foldl (effect path) (fs.content path) := by
  induction ops generalizing fs with
  | nil => rfl
  | cons op ops ih =>
    rw [List.foldl_cons, ih, succeeding, List.foldl_append, content_guestStep]
    split <;> rfl

end VirtualFilesystem

end ShapeLang.Sandbox
