import ShapeLang.Sandbox.VirtualFs

/-!
# The shape of the virtual file system

The entries live in one flat map, so that they form a tree is a matter of the operations.
`ensure_parents` makes sure that there is an entry for each ancestor, but takes whatever is there: a
file above the new path stays a file. `write` and `seed_file` replace any entry at their path, a
directory with children as well.

`KeepsTree` is what a step has to meet, seen from the state before it. It is exact: from a tree, a
step that meets it gives a tree, and a step that does not gives none. In a tree every entry can be
listed from a root down.
-/

namespace ShapeLang.Sandbox

open Lib

/-! ## Ancestors -/

namespace Path

def depth : Path → Nat
  | .empty => 0
  | .root => 0
  | .here => 1
  | .join dir _ => depth dir + 1

theorem ancestors_eq_cons (path : Path) : path.ancestors = path :: path.properAncestors := by
  cases path <;> rfl

theorem mem_properAncestors_join {path dir : Path} {segment : Segment} :
    path ∈ (join dir segment).properAncestors ↔ path = dir ∨ path ∈ dir.properAncestors := by
  show path ∈ dir.ancestors ↔ _
  rw [ancestors_eq_cons, List.mem_cons]

theorem depth_lt_of_mem_properAncestors {path ancestor : Path} (h : ancestor ∈ path.properAncestors) :
    ancestor.depth < path.depth := by
  induction path with
  | empty => cases h
  | root => cases h
  | here =>
    rw [show ancestor = .empty from List.mem_singleton.mp h]
    decide
  | join dir segment ih =>
    show ancestor.depth < dir.depth + 1
    rcases mem_properAncestors_join.mp h with rfl | hmem
    · omega
    · have hlt := ih hmem
      omega

theorem properAncestors_trans {path middle ancestor : Path} (h : ancestor ∈ middle.properAncestors)
    (hmiddle : middle ∈ path.properAncestors) : ancestor ∈ path.properAncestors := by
  induction path with
  | empty => cases hmiddle
  | root => cases hmiddle
  | here =>
    rw [show middle = .empty from List.mem_singleton.mp hmiddle] at h
    cases h
  | join dir segment ih =>
    rw [mem_properAncestors_join] at hmiddle ⊢
    rcases hmiddle with rfl | hmem
    · exact Or.inr h
    · exact Or.inr (ih hmem)

theorem mem_enclosing {path ancestor : Path} :
    ancestor ∈ path.enclosing ↔ ancestor ∈ path.properAncestors ∧ ancestor.isRoot = false := by
  unfold enclosing
  rw [List.mem_filter, Bool.not_eq_true']

theorem ne_of_mem_enclosing {path ancestor : Path} (h : ancestor ∈ path.enclosing) : ancestor ≠ path := by
  rintro rfl
  exact Nat.lt_irrefl _ (depth_lt_of_mem_properAncestors (mem_enclosing.mp h).1)

theorem enclosing_trans {path middle ancestor : Path} (h : ancestor ∈ middle.enclosing)
    (hmiddle : middle ∈ path.enclosing) : ancestor ∈ path.enclosing := by
  rw [mem_enclosing] at h hmiddle ⊢
  exact ⟨properAncestors_trans h.1 hmiddle.1, h.2⟩

theorem ne_of_parent_eq {path dir : Path} (h : path.parent = some dir) : path ≠ dir := by
  rintro rfl
  have hmem : path ∈ path.properAncestors := by
    cases path with
    | empty => cases h
    | root => cases h
    | here => cases h
    | join dir segment => exact mem_properAncestors_join.mpr (Or.inl (Option.some.inj h).symm)
  exact Nat.lt_irrefl _ (depth_lt_of_mem_properAncestors hmem)

end Path

/-! ## Trees -/

namespace Files

def isDirAt (files : Files) (path : Path) : Bool := (files.lookup path).any fun entry => entry.isDir

def isFileAt (files : Files) (path : Path) : Bool := (files.lookup path).any fun entry => !entry.isDir

/-- Every proper ancestor of an existing path, the roots apart, exists and is a directory. -/
def IsTree (files : Files) : Prop :=
  ∀ path, (files.lookup path).isSome → ∀ ancestor ∈ path.enclosing, files.isDirAt ancestor = true

def NoFileAbove (files : Files) (path : Path) : Prop :=
  ∀ ancestor ∈ path.enclosing, files.isFileAt ancestor = false

def NothingBelow (files : Files) (path : Path) : Prop :=
  ∀ path', (files.lookup path').isSome → path ∉ path'.enclosing

/-- The map after `ensure_parents` and an insertion. -/
def settle (files : Files) (path : Path) (entry : VfsEntry) : Files :=
  (orInsertEach files path.enclosing .directory).insert path entry

variable {files files' : Files} {path ancestor : Path} {entry : VfsEntry}

theorem isTree_congr (h : ∀ path, files'.lookup path = files.lookup path) :
    files'.IsTree ↔ files.IsTree := by
  unfold IsTree isDirAt
  simp only [h]

theorem lookup_settle_self (files : Files) (path : Path) (entry : VfsEntry) :
    (files.settle path entry).lookup path = some entry := AList.lookup_insert _

theorem lookup_settle_ne (files : Files) {path path' : Path} (entry : VfsEntry) (hne : path' ≠ path) :
    (files.settle path entry).lookup path' =
      (files.lookup path').or (if path' ∈ path.enclosing then some .directory else none) := by
  unfold settle
  rw [AList.lookup_insert_ne hne, lookup_orInsertEach]

/-- An ancestor ends up a directory unless a file is there. -/
theorem isDirAt_settle_iff (files : Files) (entry : VfsEntry) (hmem : ancestor ∈ path.enclosing) :
    (files.settle path entry).isDirAt ancestor = true ↔ files.isFileAt ancestor = false := by
  unfold isDirAt isFileAt
  rw [lookup_settle_ne files entry (Path.ne_of_mem_enclosing hmem), if_pos hmem]
  cases files.lookup ancestor with
  | none => simp [VfsEntry.directory]
  | some found => simp

theorem isFileAt_eq_false_of_isDirAt (h : files.isDirAt path = true) : files.isFileAt path = false := by
  unfold isDirAt at h
  unfold isFileAt
  cases hlookup : files.lookup path with
  | none => rfl
  | some found =>
    rw [hlookup] at h
    simpa using h

theorem IsTree.noFileAbove (h : files.IsTree) (hpath : (files.lookup path).isSome) :
    files.NoFileAbove path :=
  fun ancestor hmem => isFileAt_eq_false_of_isDirAt (h path hpath ancestor hmem)

/-- What is not a directory has nothing below it. -/
theorem IsTree.nothingBelow (h : files.IsTree) (hdir : files.isDirAt path = false) :
    files.NothingBelow path := by
  intro path' hpath' hmem
  rw [h path' hpath' path hmem] at hdir
  cases hdir

theorem isTree_settle (h : files.IsTree) (habove : files.NoFileAbove path)
    (hbelow : entry.isDir = false → files.NothingBelow path) : (files.settle path entry).IsTree := by
  -- The ancestors of the new path are directories behind the step, so those of a directory on the
  -- way are too.
  have hway : ∀ ancestor ∈ path.enclosing, (files.settle path entry).isDirAt ancestor = true :=
    fun ancestor hmem => (isDirAt_settle_iff files entry hmem).mpr (habove ancestor hmem)
  intro path' hpath' ancestor hmem
  by_cases heq : path' = path
  · subst heq
    exact hway ancestor hmem
  · rw [lookup_settle_ne files entry heq] at hpath'
    cases hlookup : files.lookup path' with
    | none =>
      -- A directory that the step has created on the way.
      rw [hlookup, Option.none_or] at hpath'
      split at hpath'
      · rename_i hnew
        exact hway ancestor (Path.enclosing_trans hmem hnew)
      · cases hpath'
    | some found =>
      have hold : (files.lookup path').isSome := by rw [hlookup]; rfl
      have hdir := h path' hold ancestor hmem
      by_cases hself : ancestor = path
      · subst hself
        cases hkind : entry.isDir with
        | false => exact absurd hmem (hbelow hkind path' hold)
        | true =>
          unfold isDirAt
          rw [lookup_settle_self]
          exact hkind
      · unfold isDirAt at hdir ⊢
        rw [lookup_settle_ne files entry hself]
        cases hentry : files.lookup ancestor with
        | none => rw [hentry] at hdir; cases hdir
        | some above => rwa [hentry] at hdir

theorem isTree_settle_iff (h : files.IsTree) :
    (files.settle path entry).IsTree ↔
      files.NoFileAbove path ∧ (entry.isDir = false → files.NothingBelow path) := by
  refine ⟨fun htree => ⟨fun ancestor hmem => ?_, fun hkind path' hpath' hmem => ?_⟩, fun hok =>
    isTree_settle h hok.1 hok.2⟩
  · have hself : ((files.settle path entry).lookup path).isSome := by rw [lookup_settle_self]; rfl
    exact (isDirAt_settle_iff files entry hmem).mp (htree path hself ancestor hmem)
  · -- The entry below is still there, and above it there is now a file.
    have hstays : ((files.settle path entry).lookup path').isSome := by
      rw [lookup_settle_ne files entry (Path.ne_of_mem_enclosing hmem).symm]
      obtain ⟨found, hfound⟩ := Option.isSome_iff_exists.mp hpath'
      rw [hfound]
      rfl
    have hdir := htree path' hstays path hmem
    unfold isDirAt at hdir
    rw [lookup_settle_self] at hdir
    exact absurd hdir (by simp [hkind])

/-- In a tree the ancestors of an existing path are there, and `ensure_parents` changes nothing. -/
theorem lookup_orInsertEach_enclosing (h : files.IsTree) (hpath : (files.lookup path).isSome)
    (path' : Path) :
    (orInsertEach files path.enclosing .directory).lookup path' = files.lookup path' := by
  rw [lookup_orInsertEach]
  split
  · rename_i hmem
    have hdir := h path hpath path' hmem
    unfold isDirAt at hdir
    cases hlookup : files.lookup path' with
    | none => rw [hlookup] at hdir; cases hdir
    | some found => rfl
  · exact Option.or_none

theorem isTree_erase (h : files.IsTree) (hfile : files.isDirAt path = false) :
    IsTree (files.erase path) := by
  intro path' hpath' ancestor hmem
  obtain ⟨found, hfound⟩ := Option.isSome_iff_exists.mp hpath'
  have hold : (files.lookup path').isSome := by rw [lookup_erase_eq_some hfound]; rfl
  have hdir := h path' hold ancestor hmem
  have hne : ancestor ≠ path := by
    rintro rfl
    rw [hdir] at hfile
    cases hfile
  unfold isDirAt at hdir ⊢
  rwa [AList.lookup_erase_ne hne]

end Files

/-! ## Steps -/

inductive Op where
  | host (seed : Seed)
  | guest (op : GuestOp)

namespace VirtualFilesystem

def step (fs : VirtualFilesystem) : Op → VirtualFilesystem
  | .host seed => fs.seedStep seed
  | .guest op => fs.guestStep op

/-- The condition on a step, in the state before it. -/
def KeepsTree (fs : VirtualFilesystem) : Op → Prop
  | .host (.file path _) => fs.files.NoFileAbove path ∧ fs.files.NothingBelow path
  | .host (.dir path) => fs.files.NoFileAbove path
  | .guest (.write path data) =>
    fs.Accepts path data.length → fs.files.NoFileAbove path ∧ fs.files.NothingBelow path
  | .guest (.append path data) => fs.Accepts path data.length → fs.files.NoFileAbove path
  | .guest (.createDirAll path) => fs.files.NoFileAbove path
  | .guest _ => True

variable {fs : VirtualFilesystem}

theorem isTree_seed_iff (h : fs.files.IsTree) (path : Path) (entry : VfsEntry) :
    (fs.seed path entry).files.IsTree ↔
      fs.files.NoFileAbove path ∧ (entry.isDir = false → fs.files.NothingBelow path) :=
  Files.isTree_settle_iff h

theorem isTree_putFile_iff (h : fs.files.IsTree) (path : Path) (data : List UInt8) :
    (fs.putFile path data).files.IsTree ↔ fs.files.NoFileAbove path ∧ fs.files.NothingBelow path := by
  have hiff := isTree_seed_iff h path (.file data)
  exact hiff.trans (and_congr_right fun _ => ⟨fun hbelow => hbelow rfl, fun hbelow _ => hbelow⟩)

/-- `append` can only create a file, never replace a directory: what is below does not matter. -/
theorem isTree_extendFile_iff (h : fs.files.IsTree) (path : Path) (data : List UInt8) :
    (fs.extendFile path data).1.files.IsTree ↔ fs.files.NoFileAbove path := by
  have hparents : (fs.ensureParents path).files.lookup path = fs.files.lookup path := by
    rw [lookup_ensureParents, if_neg (fun hmem => Path.ne_of_mem_enclosing hmem rfl), Option.or_none]
  unfold extendFile
  dsimp only
  rw [hparents]
  split
  · -- A directory, so the path exists and so do its ancestors.
    rename_i hdir
    have hsome : (fs.files.lookup path).isSome := by
      cases hlookup : fs.files.lookup path with
      | none => rw [hlookup] at hdir; cases hdir
      | some entry => rfl
    have hsame : (fs.ensureParents path).files.IsTree ↔ fs.files.IsTree :=
      Files.isTree_congr (Files.lookup_orInsertEach_enclosing h hsome)
    exact ⟨fun _ => h.noFileAbove hsome, fun _ => hsame.mpr h⟩
  · rename_i hdir
    have hnotdir : fs.files.isDirAt path = false := by
      unfold Files.isDirAt
      cases hlookup : fs.files.lookup path with
      | none => rfl
      | some entry =>
        rw [hlookup] at hdir
        simpa using hdir
    refine (isTree_seed_iff h path { (fs.files.lookup path).getD (.file []) with content := _ }).trans ?_
    exact and_iff_left fun _ => h.nothingBelow hnotdir

theorem isTree_createDirAll_iff (h : fs.files.IsTree) (path : Path) :
    (fs.createDirAll path).1.files.IsTree ↔ fs.files.NoFileAbove path := by
  have hlookup : ∀ path', (fs.createDirAll path).1.files.lookup path' =
      ((fs.files.lookup path').or (if path' ∈ path.enclosing then some .directory else none)).or
        (if path' = path then some .directory else none) := by
    intro path'
    show (orInsert (orInsertEach fs.files (path.ancestors.filter fun ancestor => !ancestor.isRoot)
      .directory) path
      .directory).lookup path' = _
    rw [lookup_orInsert, lookup_orInsertEach, Path.ancestors_eq_cons, Option.or_assoc, Option.or_assoc]
    congr 1
    by_cases heq : path' = path
    · subst heq
      rw [if_neg fun hmem => Path.ne_of_mem_enclosing hmem rfl, if_pos rfl, Option.none_or]
      split <;> rfl
    · have hmem : path' ∈ (path :: path.properAncestors).filter (fun ancestor => !ancestor.isRoot) ↔
          path' ∈ path.enclosing := by
        unfold Path.enclosing
        simp [List.mem_filter, heq]
      simp only [hmem]
  by_cases hsome : (fs.files.lookup path).isSome
  · have hsame : (fs.createDirAll path).1.files.IsTree ↔ fs.files.IsTree := by
      refine Files.isTree_congr fun path' => ?_
      have hway := Files.lookup_orInsertEach_enclosing h hsome path'
      rw [lookup_orInsertEach] at hway
      rw [hlookup, hway]
      split
      · rename_i heq
        obtain ⟨entry, hentry⟩ := Option.isSome_iff_exists.mp hsome
        rw [heq, hentry]
        rfl
      · exact Option.or_none
    exact ⟨fun _ => h.noFileAbove hsome, fun _ => hsame.mpr h⟩
  · -- A new directory, as `seed_dir` makes one.
    have hsame : (fs.createDirAll path).1.files.IsTree ↔ (fs.seed path .directory).files.IsTree := by
      refine Files.isTree_congr fun path' => ?_
      rw [hlookup, lookup_seed]
      by_cases heq : path' = path
      · subst heq
        have hnone : fs.files.lookup path' = none := by simpa using hsome
        rw [hnone, if_neg (fun hmem => Path.ne_of_mem_enclosing hmem rfl), if_pos rfl, if_pos rfl]
        rfl
      · rw [if_neg heq, if_neg heq, Option.or_none]
    rw [hsame, isTree_seed_iff h]
    exact and_iff_left fun hfile => absurd hfile (by decide)

theorem isTree_remove (h : fs.files.IsTree) (path : Path) : (fs.remove path).1.files.IsTree := by
  unfold remove
  split
  · exact h
  · split
    · rename_i entry hlookup
      split
      · refine (Files.isTree_congr fun path' => ?_).mpr h
        by_cases heq : path' = path
        · rw [heq, AList.lookup_insert, hlookup]
        · rw [AList.lookup_insert_ne heq, AList.lookup_erase_ne heq]
      · rename_i hdir
        refine Files.isTree_erase h ?_
        unfold Files.isDirAt
        rw [hlookup]
        simpa using hdir
    · exact h

/-- From a tree, the condition is exact. -/
theorem isTree_step_iff (h : fs.files.IsTree) (op : Op) : (fs.step op).files.IsTree ↔ fs.KeepsTree op := by
  cases op with
  | host seed =>
    cases seed with
    | file path content =>
      refine (isTree_seed_iff h path (.file content)).trans (and_congr_right fun _ => ?_)
      exact ⟨fun hbelow => hbelow rfl, fun hbelow _ => hbelow⟩
    | dir path => exact (isTree_seed_iff h path .directory).trans (and_iff_left fun hfile => nomatch hfile)
  -- a call that is refused changes nothing; the others keep the tree or do not touch it
  | guest op =>
    cases op with
    | write path data =>
      show (fs.checked path data.length (fs.putFile path data, .ok ())).1.files.IsTree ↔ _
      rcases checked_cases fs path data.length (fs.putFile path data, .ok ())
        with ⟨haccepts, heq⟩ | ⟨hrefused, heq⟩
      · rw [heq]
        exact (isTree_putFile_iff h path data).trans ⟨fun hok _ => hok, fun hok => hok haccepts⟩
      · rw [heq]
        exact ⟨fun _ haccepts => absurd haccepts hrefused, fun _ => h⟩
    | append path data =>
      show (fs.checked path data.length (fs.extendFile path data)).1.files.IsTree ↔ _
      rcases checked_cases fs path data.length (fs.extendFile path data)
        with ⟨haccepts, heq⟩ | ⟨hrefused, heq⟩
      · rw [heq]
        exact (isTree_extendFile_iff h path data).trans ⟨fun hok _ => hok, fun hok => hok haccepts⟩
      · rw [heq]
        exact ⟨fun _ haccepts => absurd haccepts hrefused, fun _ => h⟩
    | remove path => exact ⟨fun _ => True.intro, fun _ => isTree_remove h path⟩
    | createDirAll path => exact isTree_createDirAll_iff h path
    | read path => exact ⟨fun _ => True.intro, fun _ => h⟩
    | pathExists path => exact ⟨fun _ => True.intro, fun _ => h⟩
    | listDir path => exact ⟨fun _ => True.intro, fun _ => h⟩
    | metadata path => exact ⟨fun _ => True.intro, fun _ => h⟩

/-! ## Listing from the roots -/

/-- Reached from a root by `list_dir`. -/
inductive Listed (fs : VirtualFilesystem) : Path → Prop
  | root {path : Path} (hroot : path.isRoot = true) : Listed fs path
  | entry {dir : Path} {entries : List PathEntry} {found : PathEntry} (hdir : Listed fs dir)
      (hlist : fs.listDir dir = .ok entries) (hmem : found ∈ entries) : Listed fs found.path

theorem mem_entriesIn {found : PathEntry} {dir : Path} :
    found ∈ fs.entriesIn dir ↔
      ∃ entry, fs.files.lookup found.path = some entry ∧ found.isDir = entry.isDir ∧
        found.path.parent = some dir := by
  unfold entriesIn
  rw [List.mem_insertionSort, List.mem_map]
  constructor
  · rintro ⟨entry, hmem, rfl⟩
    obtain ⟨hentry, hparent⟩ := List.mem_filter.mp hmem
    rw [Bool.and_eq_true] at hparent
    exact ⟨entry.2, AList.mem_lookup_iff.mpr hentry, rfl, of_decide_eq_true hparent.1⟩
  · rintro ⟨entry, hlookup, hkind, hparent⟩
    refine ⟨⟨found.path, entry⟩, List.mem_filter.mpr ⟨AList.mem_lookup_iff.mp hlookup, ?_⟩, ?_⟩
    · have hne := Path.ne_of_parent_eq hparent
      simp [hparent, hne]
    · rw [← hkind]

theorem listDir_eq_ok {dir : Path} {entries : List PathEntry} (h : fs.listDir dir = .ok entries) :
    entries = fs.entriesIn dir ∧ (dir.isRoot = true ∨ fs.files.isDirAt dir = true) := by
  unfold listDir at h
  split at h
  · rename_i hroot
    exact ⟨(Except.ok.inj h).symm, Or.inl hroot⟩
  · split at h
    · rename_i entry hlookup
      split at h
      · rename_i hdir
        refine ⟨(Except.ok.inj h).symm, Or.inr ?_⟩
        unfold Files.isDirAt
        rw [hlookup]
        exact hdir
      · cases h
    · cases h

/-- A listed path is a root, or its parent is one or is a directory. -/
theorem Listed.parent {path : Path} (h : Listed fs path) :
    path.isRoot = true ∨ ∃ dir, path.parent = some dir ∧
      (dir.isRoot = true ∨ fs.files.isDirAt dir = true) := by
  cases h with
  | root hroot => exact Or.inl hroot
  | entry hdir hlist hmem =>
    obtain ⟨rfl, hkind⟩ := listDir_eq_ok hlist
    obtain ⟨entry, -, -, hparent⟩ := mem_entriesIn.mp hmem
    exact Or.inr ⟨_, hparent, hkind⟩

/-- What is there and has a directory or a root for its parent is one listing further down. -/
theorem Listed.child {dir path : Path} (hdir : Listed fs dir)
    (hkind : dir.isRoot = true ∨ fs.files.isDirAt dir = true)
    (hpath : (fs.files.lookup path).isSome) (hparent : path.parent = some dir) :
    Listed fs path := by
  obtain ⟨entry, hentry⟩ := Option.isSome_iff_exists.mp hpath
  have hlist : fs.listDir dir = .ok (fs.entriesIn dir) := by
    unfold listDir
    split
    · rfl
    · rename_i hnot
      have hisdir := hkind.resolve_left hnot
      unfold Files.isDirAt at hisdir
      cases hlookup : fs.files.lookup dir with
      | none => rw [hlookup] at hisdir; cases hisdir
      | some found =>
        rw [hlookup] at hisdir
        exact if_pos hisdir
  have hmem : (⟨path, entry.isDir⟩ : PathEntry) ∈ fs.entriesIn dir :=
    mem_entriesIn.mpr ⟨entry, hentry, rfl, hparent⟩
  exact .entry hdir hlist hmem

theorem listed_of_isTree (h : fs.files.IsTree) {path : Path} (hpath : fs.pathExists path = true) :
    Listed fs path := by
  unfold pathExists at hpath
  induction path with
  | empty => exact .root rfl
  | root => exact .root rfl
  | here => exact Listed.child (.root rfl) (Or.inl rfl) hpath rfl
  | join dir segment ih =>
    have hsome : (fs.files.lookup (.join dir segment)).isSome := hpath
    cases hroot : dir.isRoot with
    | true => exact Listed.child (.root hroot) (Or.inl hroot) hsome rfl
    | false =>
      -- The parent is one of the ancestors that a tree has as directories.
      have hmem : dir ∈ (Path.join dir segment).enclosing :=
        Path.mem_enclosing.mpr ⟨Path.mem_properAncestors_join.mpr (Or.inl rfl), hroot⟩
      have hisdir := h _ hsome dir hmem
      have hdir : (dir.isRoot || (fs.files.lookup dir).isSome) = true := by
        rw [hroot, Bool.false_or]
        unfold Files.isDirAt at hisdir
        cases hlookup : fs.files.lookup dir with
        | none => rw [hlookup] at hisdir; cases hisdir
        | some found => rfl
      exact Listed.child (ih hdir) (Or.inr hisdir) hsome rfl

/-! ## Whole runs -/

/-- Seeded paths exist, in every state that a run reaches. -/
def SeedsExist (fs : VirtualFilesystem) : Prop := ∀ path ∈ fs.readOnly, (fs.files.lookup path).isSome

theorem isSome_step {path : Path} (hro : path ∈ fs.readOnly) (hpath : (fs.files.lookup path).isSome)
    (op : Op) :
    ((fs.step op).files.lookup path).isSome := by
  obtain ⟨entry, hentry⟩ := Option.isSome_iff_exists.mp hpath
  cases op with
  | host seed =>
    show ((fs.seedStep seed).files.lookup path).isSome
    rw [seedStep_eq, lookup_seed, hentry]
    split <;> rfl
  | guest op =>
    show ((fs.guestStep op).files.lookup path).isSome
    rw [(guards_guestStep fs op).entries path hro entry hentry]
    rfl

theorem seedsExist_step (h : SeedsExist fs) (op : Op) : SeedsExist (fs.step op) := by
  intro path hro
  cases op with
  | host seed =>
    have hinsert : (fs.step (.host seed)).readOnly = insert seed.path fs.readOnly := by
      show (fs.seedStep seed).readOnly = _
      rw [seedStep_eq]
      rfl
    rw [hinsert] at hro
    rcases Finset.mem_insert.mp hro with rfl | hold
    · show ((fs.seedStep seed).files.lookup seed.path).isSome
      rw [seedStep_eq, lookup_seed, if_pos rfl]
      rfl
    · exact isSome_step hold (h path hold) (.host seed)
  | guest op =>
    have hold : path ∈ fs.readOnly := by
      rw [← (guards_guestStep fs op).readOnly]
      exact hro
    exact isSome_step hold (h path hold) (.guest op)

/-- The steps of a run meet the condition exactly when every state that it reaches is a tree in
which every existing path can be listed from a root, and no step takes a seeded path out of reach.
-/
theorem run_stays_tree_iff (maxSize : Nat) (ops : List Op) :
    EveryStep step (new maxSize) ops KeepsTree ↔
      Throughout step (new maxSize) ops
        (fun fs => fs.files.IsTree ∧ ∀ path, fs.pathExists path = true → Listed fs path) ∧
      EveryStep step (new maxSize) ops
        (fun fs op => ∀ path ∈ fs.readOnly, Listed fs path → Listed (fs.step op) path) := by
  have hempty : (new maxSize).files.IsTree := fun path hpath => by cases hpath
  constructor
  · intro hkeeps
    have htrees : Throughout step (new maxSize) ops fun fs => fs.files.IsTree :=
      throughout_of_everyStep (fun fs op h hok => (isTree_step_iff h op).mpr hok) hempty hkeeps
    have hseeds : Throughout step (new maxSize) ops SeedsExist :=
      throughout_of_invariant (fun fs op h => seedsExist_step h op) fun path hro => by cases hro
    refine ⟨fun done hprefix => ⟨htrees done hprefix, fun path => listed_of_isTree
      (htrees done hprefix)⟩, ?_⟩
    intro done op hprefix path hro _
    -- The state behind the step is a tree too, and the seeded path is still there.
    have hafter := htrees (done ++ [op]) hprefix
    have hexists := hseeds done ((List.prefix_append done [op]).trans hprefix) path hro
    rw [List.foldl_append] at hafter
    refine listed_of_isTree hafter ?_
    unfold pathExists
    exact Bool.or_eq_true_iff.mpr (Or.inr (isSome_step hro hexists op))
  · rintro ⟨htrees, -⟩
    refine everyStep_of_throughout (fun fs op h hafter => (isTree_step_iff h op).mp hafter)
      fun done hprefix => (htrees done hprefix).1

/-- The host seeds "/d/s"; the guest then writes to "/d", which is a directory and not seeded itself. -/
def hidingRun : List Op :=
  [.host (.file (.join (.join .root (.normal "d")) (.normal "s")) [1]), .guest
    (.write (.join .root (.normal "d")) [2])]

/-- The write succeeds and puts a file in the place of the directory: the seeded path, listed
before, is out of reach. -/
theorem write_hides_seeded_path :
    let seeded := (hidingRun.take 1).foldl step (new 0)
    let fs := hidingRun.foldl step (new 0)
    let path := Path.join (.join .root (.normal "d")) (.normal "s")
    ¬fs.files.IsTree ∧ path ∈ seeded.readOnly ∧ Listed seeded path ∧ fs.pathExists path = true ∧
      ¬Listed fs path := by
  intro seeded fs path
  have hfile : fs.files.isDirAt (.join .root (.normal "d")) = false := by decide +kernel
  have hsome : (fs.files.lookup path).isSome := by decide +kernel
  refine ⟨fun htree => ?_, by decide +kernel, ?_, by decide +kernel, fun hlisted => ?_⟩
  · have hdir := htree path hsome (.join .root (.normal "d")) (by decide +kernel)
    rw [hfile] at hdir
    cases hdir
  · have hdir : Listed seeded (.join .root (.normal "d")) :=
      Listed.child (.root rfl) (Or.inl rfl) (by decide +kernel) rfl
    exact Listed.child hdir (Or.inr (by decide +kernel)) (by decide +kernel) rfl
  · -- The only listing that can hold it is that of its parent, and the parent is a file.
    rcases hlisted.parent with hroot | ⟨dir, hparent, hkind⟩
    · cases hroot
    · obtain rfl : Path.join .root (.normal "d") = dir := Option.some.inj hparent
      rcases hkind with hroot | hdir
      · cases hroot
      · rw [hfile] at hdir
        cases hdir

end VirtualFilesystem

end ShapeLang.Sandbox
