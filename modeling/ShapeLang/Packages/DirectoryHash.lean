import ShapeLang.Lib.Bytes
import ShapeLang.Modules.Resolution
import ShapeLang.Packages.Lock

/-!
# The content hash of a dependency

`hash_path` hashes a file by its bytes, and a directory by the bytes of all `.shape` files below it,
one after the other in the order of their paths. Neither the paths nor the lengths go into the hash,
so it determines the concatenation and no more; where the paths and lengths are known it determines
the contents.

The walk comes from the crate `walkdir` and is a parameter, `WalkDir`: it follows no links, lists
what is below a directory and the directory itself, in any order, and reports an entry it cannot
look at as an error, which the source drops.
-/

namespace ShapeLang.Packages

open Lib Modules

section

variable {IoError : Type}

/-- An entry of a file system. A leaf is a file or a link, with what reading it gives. -/
inductive DirNode (IoError : Type) where
  | leaf (read : Except IoError Bytes)
  | failed
  | dir (entries : List (String × DirNode IoError))

namespace DirNode

/-- The names in each directory are distinct. -/
inductive Distinct : DirNode IoError → Prop where
  | leaf (read : Except IoError Bytes) : Distinct (.leaf read)
  | failed : Distinct .failed
  | dir {entries : List (String × DirNode IoError)} (names : (entries.map Prod.fst).Nodup)
      (below : ∀ entry ∈ entries, Distinct entry.2) : Distinct (.dir entries)

/-- What stands at a path below a node. -/
inductive At : DirNode IoError → Path → DirNode IoError → Prop where
  | here (node : DirNode IoError) : At node [] node
  | into {entries : List (String × DirNode IoError)} {name : String} {child found : DirNode IoError}
      {path : Path}
      (mem : (name, child) ∈ entries) (rest : At child path found) : At (.dir entries) (name :: path) found

variable (isADirectory : IoError)

/-- What `fs::read` gives for an entry that the walk lists. -/
def read : DirNode IoError → Option (Except IoError Bytes)
  | .leaf read => some read
  | .failed => none
  | .dir _ => some (.error isADirectory)

end DirNode

/-- `walkdir`: the entries at and below a node that are listed without an error, each once. -/
structure WalkDir (IoError : Type) where
  walk : DirNode IoError → List (Path × DirNode IoError)
  mem_walk : ∀ {node : DirNode IoError}, node.Distinct → ∀ {path : Path} {found : DirNode IoError},
    (path, found) ∈ walk node ↔ node.At path found ∧ found ≠ .failed
  nodup_walk : ∀ {node : DirNode IoError}, node.Distinct → ((walk node).map Prod.fst).Nodup

structure DirTree (IoError : Type) where
  /-- The file name of the path that is walked, where it has one. -/
  name : Option String
  entries : List (String × DirNode IoError)
  distinct : (DirNode.dir entries).Distinct

/-- What a path leads to. -/
inductive HashTarget (IoError : Type) where
  | file (read : Except IoError Bytes)
  | dir (tree : DirTree IoError)
  | neither

def hasShapeExtension : Option String → Bool
  | none | some ".." => false
  | some name => (splitExtension name).2 = some "shape"

namespace DirTree

variable (walkdir : WalkDir IoError) (isADirectory : IoError)

/-- The entries with the extension, with what reading them gives. -/
def shapeEntries (tree : DirTree IoError) : List (Path × Except IoError Bytes) :=
  ((walkdir.walk (.dir tree.entries)).filter fun entry =>
    hasShapeExtension (if entry.1 = [] then tree.name else entry.1.getLast?)).filterMap fun entry =>
      (entry.2.read isADirectory).map (entry.1, ·)

/-- There is a readable `.shape` file with these bytes at this path. -/
def ShapeFile (tree : DirTree IoError) (path : Path) (data : Bytes) : Prop :=
  (DirNode.dir tree.entries).At path (.leaf (.ok data)) ∧ hasShapeExtension path.getLast? = true

/-- The `.shape` files of a tree, in the order of their paths. -/
def Lists (tree : DirTree IoError) (files : List (Path × Bytes)) : Prop :=
  files.Pairwise (fun a b => a.1 < b.1) ∧ ∀ path data, (path, data) ∈ files ↔ tree.ShapeFile path data

end DirTree

/-- The order the entries are read in. -/
abbrev entryLe (a b : Path × Except IoError Bytes) : Prop := a.1 ≤ b.1

def hashPath (walkdir : WalkDir IoError) (sha256 : Bytes → Bytes) (isADirectory : IoError) :
    HashTarget IoError → Except IoError String
  | .file read => do
    let data ← read
    return lowerHex (sha256 data)
  | .dir tree => do
    let contents ← ((tree.shapeEntries walkdir isADirectory).insertionSort entryLe).mapM Prod.snd
    return lowerHex (sha256 contents.flatten)
  | .neither => .ok (lowerHex (sha256 []))

/-! ## The files of a tree -/

namespace DirTree

variable {walkdir : WalkDir IoError} {isADirectory : IoError} {tree : DirTree IoError}

variable {other : DirTree IoError} {files files' : List (Path × Bytes)}

/-- A tree has one list of files. -/
theorem Lists.unique (h : tree.Lists files) (h' : other.Lists files')
    (hsame : ∀ path data, tree.ShapeFile path data ↔ other.ShapeFile path data) :
    files = files' := by
  have hnodup : ∀ {l : List (Path × Bytes)}, l.Pairwise (fun a b => a.1 < b.1) → l.Nodup := fun hl =>
    hl.imp fun hlt heq => absurd (heq ▸ hlt) (lt_irrefl _)
  refine List.Perm.eq_of_pairwise (fun a b _ _ hab hba => absurd (hab.trans hba) (lt_irrefl _)) h.1 h'.1 ?_
  refine (List.perm_ext_iff_of_nodup (hnodup h.1) (hnodup h'.1)).mpr fun file => ?_
  rw [h.2 file.1 file.2, h'.2 file.1 file.2]
  exact hsame _ _

variable {path : Path} {data : Bytes}

theorem mem_shapeEntries :
    (path, .ok data) ∈ tree.shapeEntries walkdir isADirectory ↔ tree.ShapeFile path data := by
  rw [shapeEntries, List.mem_filterMap, ShapeFile]
  constructor
  · rintro ⟨⟨p, found⟩, hmem, hread⟩
    obtain ⟨result, hread, heq⟩ := Option.map_eq_some_iff.mp hread
    cases heq
    obtain ⟨hlisted, hshape⟩ := List.mem_filter.mp hmem
    obtain ⟨hat, -⟩ := (walkdir.mem_walk tree.distinct).mp hlisted
    -- only a leaf is read without an error
    cases found with
    | failed => cases hread
    | dir entries => cases hread
    | leaf read =>
      cases hread
      cases hat with
      | into mem rest => exact ⟨.into mem rest, by rwa [if_neg (by simp)] at hshape⟩
  · rintro ⟨hat, hshape⟩
    refine ⟨(path, .leaf (.ok data)), List.mem_filter.mpr ⟨?_, ?_⟩, rfl⟩
    · exact (walkdir.mem_walk tree.distinct).mpr ⟨hat, by simp⟩
    · cases hat with
      | into mem rest => rwa [if_neg (by simp)]

theorem nodup_shapeEntries (tree : DirTree IoError) :
    ((tree.shapeEntries walkdir isADirectory).map Prod.fst).Nodup := by
  have hsublist : ∀ entries : List (Path × DirNode IoError),
      ((entries.filterMap fun entry => (entry.2.read isADirectory).map (entry.1, ·)).map Prod.fst).Sublist
        (entries.map Prod.fst) := by
    intro entries
    induction entries with
    | nil => exact .slnil
    | cons entry entries ih =>
      cases hread : entry.2.read isADirectory with
      | none => simpa [hread] using ih.cons entry.1
      | some result => simpa [hread] using ih.cons_cons entry.1
  refine (walkdir.nodup_walk tree.distinct).sublist ((hsublist _).trans ?_)
  exact List.filter_sublist.map Prod.fst

/-- Entries that can all be read are files with their bytes. -/
theorem exists_files_of_mapM_eq_ok {entries : List (Path × Except IoError Bytes)} {contents : List Bytes}
    (h : entries.mapM Prod.snd = .ok contents) :
    ∃ files : List (Path × Bytes), entries = files.map (fun file => (file.1, .ok file.2)) ∧
      contents = files.map Prod.snd := by
  have hall := Fallible.mapM_eq_ok.mp h
  clear h
  induction hall with
  | nil => exact ⟨[], rfl, rfl⟩
  | @cons entry data entries contents hentry _ ih =>
    obtain ⟨files, rfl, rfl⟩ := ih
    refine ⟨(entry.1, data) :: files, ?_, rfl⟩
    rw [List.map_cons, ← hentry]

instance : IsTrans (Path × Except IoError Bytes) entryLe := ⟨fun _ _ _ => le_trans⟩

instance : @Std.Total (Path × Except IoError Bytes) entryLe := ⟨fun a b => le_total a.1 b.1⟩

/-- A hash that is given for a tree is the hash of its files in a row. -/
theorem exists_lists_of_hashPath {sha256 : Bytes → Bytes} {hash : String}
    (h : hashPath walkdir sha256 isADirectory (.dir tree) = .ok hash) :
    ∃ files, tree.Lists files ∧ hash = lowerHex (sha256 (files.map Prod.snd).flatten) := by
  obtain ⟨contents, hcontents, hhash⟩ := Fallible.bind_eq_ok.mp h
  obtain ⟨files, hfiles, rfl⟩ := exists_files_of_mapM_eq_ok hcontents
  have hsorted := List.pairwise_insertionSort entryLe (tree.shapeEntries walkdir isADirectory)
  have hnodup : (((tree.shapeEntries walkdir isADirectory).insertionSort entryLe).map Prod.fst).Nodup := by
    refine ((List.perm_insertionSort entryLe _).map Prod.fst).nodup_iff.mpr ?_
    exact tree.nodup_shapeEntries
  refine ⟨files, ⟨?_, fun path data => ?_⟩, (Except.ok.inj hhash).symm⟩
  · rw [hfiles, List.pairwise_map] at hsorted
    rw [hfiles, List.map_map] at hnodup
    have hne := List.pairwise_map.mp hnodup
    exact hsorted.imp₂ (fun _ _ hle hne => lt_of_le_of_ne hle hne) hne
  · rw [← mem_shapeEntries, ← List.mem_insertionSort entryLe, hfiles]
    simp

/-- Files of known lengths can be read off their concatenation. -/
theorem files_eq_of_flatten_eq
    (hshape : files.map (fun file => (file.1, file.2.length)) = files'.map fun file =>
      (file.1, file.2.length))
    (hflat : (files.map Prod.snd).flatten = (files'.map Prod.snd).flatten) : files = files' := by
  induction files generalizing files' with
  | nil =>
    cases files' with
    | nil => rfl
    | cons file' files' => cases hshape
  | cons file files ih =>
    cases files' with
    | nil => cases hshape
    | cons file' files' =>
      obtain ⟨hfirst, hrest⟩ := List.cons.inj hshape
      obtain ⟨hpath, hlength⟩ := Prod.mk.inj hfirst
      obtain ⟨hdata, hflat⟩ := List.append_inj hflat hlength
      rw [ih hrest hflat, Prod.ext hpath hdata]

theorem Lists.data_unique (h : tree.Lists files) {data' : Bytes} (hfile : tree.ShapeFile path data)
    (hfile' : tree.ShapeFile path data') : data = data' := by
  rw [← h.2] at hfile hfile'
  have hnodup : (files.map Prod.fst).Nodup := List.pairwise_map.mpr (h.1.imp ne_of_lt)
  exact (Prod.mk.inj (List.inj_on_of_nodup_map hnodup hfile hfile' rfl)).2

/-- Trees that agree but for the bytes of one file have the same files but for these. -/
theorem Lists.replace {data' : Bytes} (h : tree.Lists files) (h' : other.Lists files')
    (hfile : tree.ShapeFile path data) (hfile' : other.ShapeFile path data')
    (hsame : ∀ p, p ≠ path → ∀ d, tree.ShapeFile p d ↔ other.ShapeFile p d) :
    ∃ before after, files = before ++ (path, data) :: after ∧ files' = before ++ (path, data') ::
      after := by
  obtain ⟨before, after, rfl⟩ := List.append_of_mem ((h.2 path data).mpr hfile)
  have hsorted := h.1
  rw [List.pairwise_append, List.pairwise_cons] at hsorted
  obtain ⟨hbefore, ⟨hpath, hafter⟩, hacross⟩ := hsorted
  have hother : ∀ d, (path, d) ∉ before ∧ (path, d) ∉ after := fun d =>
    ⟨fun hmem => lt_irrefl path (hacross (path, d) hmem (path, data) List.mem_cons_self),
      fun hmem => lt_irrefl path (hpath (path, d) hmem)⟩
  -- the same list with the bytes of the one file replaced lists the other tree
  have hlists : other.Lists (before ++ (path, data') :: after) := by
    refine ⟨?_, fun p d => ?_⟩
    · rw [List.pairwise_append, List.pairwise_cons]
      refine ⟨hbefore, ⟨hpath, hafter⟩, fun a ha b hb => ?_⟩
      rcases List.mem_cons.mp hb with rfl | hb
      · exact hacross a ha (path, data) List.mem_cons_self
      · exact hacross a ha b (List.mem_cons_of_mem _ hb)
    · by_cases hp : p = path
      · subst hp
        constructor
        · intro hmem
          obtain rfl : d = data' := by simpa [hother d] using hmem
          exact hfile'
        · intro hd
          rw [h'.data_unique hd hfile']
          simp
      · rw [← hsame p hp d, ← h.2 p d]
        simp [hp]
  exact ⟨before, after, rfl, h'.unique hlists fun _ _ => Iff.rfl⟩

/-- Equal hashes mean equal concatenations, in the order of the paths, and conversely. The same
files give the same hash; where the paths and the lengths are the same, or where only the bytes of
one file may differ, the same hash gives the same files. -/
theorem directory_hash_eq_iff (walkdir : WalkDir IoError) {sha256 : Bytes → Bytes}
    (hsha : Function.Injective sha256) (isADirectory : IoError) (a b : DirTree IoError) {ha hb : String}
    (hhasha : hashPath walkdir sha256 isADirectory (.dir a) = .ok ha)
    (hhashb : hashPath walkdir sha256 isADirectory (.dir b) = .ok hb) :
    ∃ files files', a.Lists files ∧ b.Lists files' ∧
      (ha = hb ↔ (files.map Prod.snd).flatten = (files'.map Prod.snd).flatten) ∧
      ((∀ path data, a.ShapeFile path data ↔ b.ShapeFile path data) → ha = hb) ∧
      (files.map (fun file => (file.1, file.2.length)) = files'.map (fun file => (file.1, file.2.length)) →
        ha = hb → files = files') ∧
      (∀ path data data', a.ShapeFile path data → b.ShapeFile path data' →
        (∀ p, p ≠ path → ∀ d, a.ShapeFile p d ↔ b.ShapeFile p d) → ha = hb → data = data') := by
  obtain ⟨files, hfiles, rfl⟩ := exists_lists_of_hashPath hhasha
  obtain ⟨files', hfiles', rfl⟩ := exists_lists_of_hashPath hhashb
  have hiff : lowerHex (sha256 (files.map Prod.snd).flatten) = lowerHex
      (sha256 (files'.map Prod.snd).flatten) ↔
      (files.map Prod.snd).flatten = (files'.map Prod.snd).flatten :=
    ⟨fun h => hsha (lowerHex_injective h), fun h => by rw [h]⟩
  refine ⟨files, files', hfiles, hfiles', hiff, ?_, ?_, ?_⟩
  · intro hsame
    rw [hfiles.unique hfiles' hsame]
  · intro hshape hhash
    exact files_eq_of_flatten_eq hshape (hiff.mp hhash)
  · intro path data data' hfile hfile' hsame hhash
    obtain ⟨before, after, rfl, rfl⟩ := hfiles.replace hfiles' hfile hfile' hsame
    have hflat := hiff.mp hhash
    simp only [List.map_append, List.map_cons, List.flatten_append, List.flatten_cons] at hflat
    exact List.append_cancel_right (List.append_cancel_left hflat)

end DirTree

/-! ## A walk

A directory before what is in it, its entries in the order in which they stand. -/

namespace DirNode

mutual

def walk : DirNode IoError → List (Path × DirNode IoError)
  | .leaf read => [([], .leaf read)]
  | .failed => []
  | .dir entries => ([], .dir entries) :: walkEntries entries

def walkEntries : List (String × DirNode IoError) → List (Path × DirNode IoError)
  | [] => []
  | (name, child) :: rest => (walk child).map (fun entry => (name :: entry.1, entry.2)) ++ walkEntries rest

end

theorem mem_walkEntries {entries : List (String × DirNode IoError)} {found : Path × DirNode IoError} :
    found ∈ walkEntries entries ↔
      ∃ entry ∈ entries, ∃ below ∈ walk entry.2, found = (entry.1 :: below.1, below.2) := by
  induction entries with
  | nil => simp [walkEntries]
  | cons entry rest ih => simp [walkEntries, ih, eq_comm]

variable {node : DirNode IoError}

theorem Distinct.mem_walk (h : node.Distinct) {path : Path} {found : DirNode IoError} :
    (path, found) ∈ walk node ↔ node.At path found ∧ found ≠ .failed := by
  induction h generalizing path with
  | leaf read =>
    constructor
    · intro hmem
      obtain ⟨rfl, rfl⟩ : path = [] ∧ found = .leaf read := by simpa [walk] using hmem
      exact ⟨.here _, by simp⟩
    · rintro ⟨hat, -⟩
      cases hat
      simp [walk]
  | failed =>
    constructor
    · intro hmem
      simp [walk] at hmem
    · rintro ⟨hat, hne⟩
      cases hat
      exact absurd rfl hne
  | dir names below ih =>
    rw [walk, List.mem_cons, mem_walkEntries]
    constructor
    · rintro (heq | ⟨entry, hentry, listed, hlisted, heq⟩)
      · cases heq
        exact ⟨.here _, by simp⟩
      · cases heq
        obtain ⟨hat, hne⟩ := (ih entry hentry).mp hlisted
        exact ⟨.into hentry hat, hne⟩
    · rintro ⟨hat, hne⟩
      cases hat with
      | here => exact .inl rfl
      | into mem rest => exact .inr ⟨_, mem, _, (ih _ mem).mpr ⟨rest, hne⟩, rfl⟩

/-- No path is listed twice. -/
theorem Distinct.nodup_walk (h : node.Distinct) :
    ((walk node).map Prod.fst).Nodup := by
  induction h with
  | leaf read => simp [walk]
  | failed => simp [walk]
  | @dir entries names below ih =>
    have hentries : ((walkEntries entries).map Prod.fst).Nodup := by
      clear below
      induction entries with
      | nil => simp [walkEntries]
      | cons entry rest ihrest =>
        obtain ⟨hname, hnames⟩ := List.nodup_cons.mp names
        rw [walkEntries, List.map_append, List.nodup_append]
        refine ⟨?_, ihrest hnames fun other hother => ih other (List.mem_cons_of_mem _ hother), ?_⟩
        · have hchild := ih entry List.mem_cons_self
          rw [List.map_map]
          have hmap : (walk entry.2).map (Prod.fst ∘ fun listed => (entry.1 :: listed.1, listed.2))
              = ((walk entry.2).map Prod.fst).map (entry.1 :: ·) := by simp
          rw [hmap]
          exact hchild.map fun _ _ h => (List.cons.inj h).2
        -- a path below another entry begins with another name
        · intro first hfirst second hsecond heq
          simp only [List.map_map, List.mem_map, Function.comp] at hfirst hsecond
          obtain ⟨listed, -, rfl⟩ := hfirst
          obtain ⟨found, hfound, hpath⟩ := hsecond
          obtain ⟨other, hother, deeper, -, rfl⟩ := mem_walkEntries.mp hfound
          have hsame : entry.1 = other.1 := (List.cons.inj (heq.trans hpath.symm)).1
          exact hname (hsame ▸ List.mem_map_of_mem hother)
    rw [walk, List.map_cons, List.nodup_cons]
    refine ⟨fun hmem => ?_, hentries⟩
    obtain ⟨found, hfound, hpath⟩ := List.mem_map.mp hmem
    obtain ⟨entry, -, listed, -, rfl⟩ := mem_walkEntries.mp hfound
    cases hpath

end DirNode

def depthFirst : WalkDir IoError where
  walk := DirNode.walk
  mem_walk := DirNode.Distinct.mem_walk
  nodup_walk := DirNode.Distinct.nodup_walk

end

/-! ## What the hash does not see -/

/-- Two files of a package, one of them empty or not. -/
def twoFiles (first second : Bytes) : DirTree Unit where
  name := some "pkg"
  entries := [("a.shape", .leaf (.ok first)), ("b.shape", .leaf (.ok second))]
  distinct := .dir (show ["a.shape", "b.shape"].Nodup by decide) (by
    intro entry hmem
    simp only [List.mem_cons, List.not_mem_nil, or_false] at hmem
    rcases hmem with rfl | rfl <;> exact .leaf _)

theorem shapeFile_twoFiles {first second data : Bytes} :
    (twoFiles first second).ShapeFile ["a.shape"] data ↔ data = first := by
  constructor
  · rintro ⟨hat, -⟩
    cases hat with
    | into mem rest =>
      cases rest
      have hfirst : DirNode.leaf (.ok data) = (.leaf (.ok first) : DirNode Unit) := by
        simpa [twoFiles] using mem
      injection hfirst with hread
      exact Except.ok.inj hread
  · rintro rfl
    exact ⟨.into (by simp [twoFiles]) (.here _), by decide⟩

/-- Trees that differ in the bytes of `b.shape` only. -/
theorem changed_file_changes_hash :
    hashPath depthFirst id () (.dir (twoFiles [120] [121])) = .ok "7879" ∧
      hashPath depthFirst id () (.dir (twoFiles [120] [122])) = .ok "787a" ∧
      ∃ files files', (twoFiles [120] [121]).Lists files ∧ (twoFiles [120] [122]).Lists files' ∧
        ("7879" = "787a" ↔ (files.map Prod.snd).flatten = (files'.map Prod.snd).flatten) := by
  have hfirst : hashPath depthFirst id () (.dir (twoFiles [120] [121])) = .ok "7879" := by decide +kernel
  have hsecond : hashPath depthFirst id () (.dir (twoFiles [120] [122])) = .ok "787a" := by decide +kernel
  obtain ⟨files, files', hfiles, hfiles', hiff, -⟩ :=
    DirTree.directory_hash_eq_iff depthFirst Function.injective_id () _ _ hfirst hsecond
  exact ⟨hfirst, hsecond, files, files', hfiles, hfiles', hiff⟩

/-- Bytes moved from one file into the file before it are not seen. -/
theorem moved_bytes_hash_alike :
    ¬ ∀ (walkdir : WalkDir Unit) (sha256 : Bytes → Bytes), Function.Injective sha256 →
      ∀ (a b : DirTree Unit) (hash : String),
        hashPath walkdir sha256 () (.dir a) = .ok hash → hashPath walkdir sha256 () (.dir b) = .ok hash →
        ∀ path data, a.ShapeFile path data ↔ b.ShapeFile path data := by
  intro hclaim
  have hfirst : hashPath depthFirst id () (.dir (twoFiles [120] [121])) = .ok "7879" := by decide +kernel
  have hsecond : hashPath depthFirst id () (.dir (twoFiles [120, 121] [])) = .ok "7879" := by decide +kernel
  have hsame := hclaim depthFirst id Function.injective_id _ _ "7879" hfirst hsecond ["a.shape"] [120]
  rw [shapeFile_twoFiles, shapeFile_twoFiles] at hsame
  exact absurd (hsame.mp rfl) (by decide)

end ShapeLang.Packages
