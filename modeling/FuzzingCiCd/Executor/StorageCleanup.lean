import FuzzingCiCd.Executor.LocalFilesystemStorageBackend
import FuzzingCiCd.Foundation.Exec
import FuzzingCiCd.Foundation.FileWalk
import Mathlib.Data.List.Infix
import Mathlib.Data.List.Sort

/-!
# The cleanup of the storage, path by path

`LocalFilesystemStorageBackend.cleanup` takes the paths of a walk in the reverse of their order and
deletes them one after the other. A file system refuses to delete a directory that still holds
something. The order of paths is that of their octets, where a directory comes before what it holds,
so that the reverse deletes a directory after its contents.

## Main results

* `deleteAll_eq_ok`: the loop meets no directory with contents, and what it counts.
* `cleanup_eq`: the loop does what deleting the whole tree at once does.
* `cleanup_frame`: what a recursive cleanup removes, reports and leaves.
-/

namespace FuzzingCiCd.Executor

/-! ## The order of paths -/

/-- The comparison of two sequences of octets, by the first difference or the lengths. -/
def compareOctets : List UInt8 → List UInt8 → ℤ
  | a :: as, b :: bs => if a = b then compareOctets as bs else (a.toNat : ℤ) - b.toNat
  | as, bs => (as.length : ℤ) - bs.length

def Path.octets (path : Path) : List UInt8 := path.text.flatMap String.utf8EncodeChar

def Path.compareTo (path other : Path) : ℤ := compareOctets path.octets other.octets

section Order

variable {as bs cs : List UInt8}

theorem compareOctets_neg (as bs : List UInt8) : compareOctets as bs = -compareOctets bs as := by
  induction as generalizing bs with
  | nil =>
    rcases bs with _ | ⟨b, bs⟩
    · rfl
    · simp [compareOctets]
  | cons a as ih =>
    rcases bs with _ | ⟨b, bs⟩
    · simp [compareOctets]
    · rw [compareOctets, compareOctets]
      by_cases h : a = b
      · rw [if_pos h, if_pos h.symm, ih]
      · rw [if_neg h, if_neg (Ne.symm h)]
        omega

theorem compareOctets_append (as : List UInt8) (b : UInt8) (bs : List UInt8) :
    compareOctets as (as ++ b :: bs) < 0 := by
  induction as with
  | nil =>
    rw [List.nil_append, compareOctets, List.length_nil, List.length_cons]
    · omega
    · simp
  | cons a as ih =>
    rw [List.cons_append, compareOctets, if_pos rfl]
    exact ih

theorem compareOctets_trans (h : compareOctets as bs ≤ 0) (h' : compareOctets bs cs ≤ 0) :
    compareOctets as cs ≤ 0 := by
  induction as generalizing bs cs with
  | nil =>
    rcases cs with _ | ⟨c, cs⟩
    · decide
    · rw [compareOctets, List.length_nil, List.length_cons]
      · omega
      · simp
  | cons a as ih =>
    rcases bs with _ | ⟨b, bs⟩
    · rw [compareOctets] at h
      · rw [List.length_cons, List.length_nil] at h
        omega
      · simp
    rcases cs with _ | ⟨c, cs⟩
    · rw [compareOctets] at h'
      · rw [List.length_cons, List.length_nil] at h'
        omega
      · simp
    rw [compareOctets] at h h' ⊢
    by_cases hab : a = b
    · subst hab
      rw [if_pos rfl] at h
      by_cases hac : a = c
      · rw [if_pos hac] at h' ⊢
        exact ih h h'
      · rw [if_neg hac] at h' ⊢
        exact h'
    · rw [if_neg hab] at h
      have hne : a.toNat ≠ b.toNat := fun heq ↦ hab (UInt8.toNat_inj.mp heq)
      by_cases hbc : b = c
      · subst hbc
        rw [if_neg hab]
        exact h
      · rw [if_neg hbc] at h'
        have hac : a ≠ c := by
          rintro rfl
          omega
        rw [if_neg hac]
        omega

end Order

namespace StorageCleanup

open LocalFilesystemStorageBackend Transition

/-- What the storage holds: a tree of directories and files, with names that are names. -/
structure Store where
  files : StoredFiles
  lawful : files.Lawful
  plain : ∀ path, files.find path ≠ none → Paths.Plain "." ".." path

/-! ## The loop -/

/-- The counters of a cleanup. -/
structure CleanupStats where
  deletedCount : ℕ
  bytesFreed : ℕ
  deriving DecidableEq

/-- What ends a cleanup early: an `IOException`, which it catches, or its own exception. -/
inductive CleanupFailure
  | io
  | storage (exception : StorageException)
  deriving DecidableEq

abbrev Cleanup : Type → Type := Exec StoredFiles CleanupFailure

def sizeIfRegularFile (path : Path) : Cleanup ℕ := fun files ↦
  match files.find path.names with
  | some node => (.ok (LocalFilesystemStorageBackend.sizeIfRegularFile node), files)
  | none => (.ok 0, files)

/-- `Files.deleteIfExists`. -/
def deleteIfExists (path : Path) : Cleanup Bool := fun files ↦
  match files.find path.names with
  | none => (.ok false, files)
  | some .directory =>
    if files.occupied path.names then (.error .io, files)
    else (.ok true, files.delete path.names)
  | some (.file _) => (.ok true, files.delete path.names)

/-- `Files.walk`, which goes as deep as there are directories. -/
def walk (files : StoredFiles) (targetPath : Path) : List Path :=
  (files.walk files.depth targetPath.names).map (Path.mk targetPath.isAbsolute)

/-- `sorted(Comparator.reverseOrder())`. -/
def reverseOrder (paths : List Path) : List Path :=
  paths.insertionSort fun path other ↦ other.compareTo path ≤ 0

def deletionOrder (files : StoredFiles) (targetPath : Path) : List Path :=
  reverseOrder (walk files targetPath)

section Loop

variable (root : Directory)

def ensurePathInsideRoot (path : Path) : Except CleanupFailure Unit :=
  if !path.normalize.startsWith root.path then
    .error (.storage (.storageClient
      ("Storage cleanup вышел за пределы root: " ++ .ofList path.text)))
  else .ok ()

def deleteAll (stats : CleanupStats) : List Path → Cleanup CleanupStats
  | [] => pure stats
  | path :: paths => do
    Exec.ofExcept (ensurePathInsideRoot root path)
    let bytes ← sizeIfRegularFile path
    let deleted ← deleteIfExists path
    deleteAll
      ⟨stats.deletedCount + if deleted then 1 else 0, stats.bytesFreed + bytes⟩ paths

def cleanupExistingPath (targetPath : Path) (recursive : Bool) : Cleanup CleanupStats :=
  if !recursive then do
    let bytesFreed ← sizeIfRegularFile targetPath
    let deleted ← deleteIfExists targetPath
    return if deleted then ⟨1, bytesFreed⟩ else ⟨0, 0⟩
  else do
    let files ← Exec.get
    deleteAll root ⟨0, 0⟩ (deletionOrder files targetPath)

/-- The `catch` branch of `cleanup`. -/
def CleanupFailure.thrown (storageUri : List Char) : CleanupFailure → StorageException
  | .io => .storageClient
    ("Не удалось удалить artifact из local storage: " ++ .ofList storageUri)
  | .storage exception => exception

def cleanup (namespacePath : List Char) (recursive : Bool) :
    Exec StoredFiles StorageException StorageCleanupResult := do
  let place ← Exec.ofExcept (place root namespacePath)
  let files ← Exec.get
  match files.find place.targetPath with
  | none => return ⟨place.namespacePath, place.storageUri, false, 0, 0⟩
  | some node =>
    if node = .directory ∧ recursive = false then
      Exec.throw (.illegalArgument ("Storage namespace является директорией, для удаления " ++
        "дерева нужен recursive=true: " ++ .ofList place.storageUri))
    else do
      let stats ← Exec.mapError (CleanupFailure.thrown place.storageUri)
        (cleanupExistingPath root ⟨true, place.targetPath⟩ recursive)
      return ⟨place.namespacePath, place.storageUri, 0 < stats.deletedCount, stats.deletedCount,
        stats.bytesFreed⟩

end Loop

/-! ## Directories come before what they hold -/

theorem intercalate_append {before after : List (List Char)} (hbefore : before ≠ [])
    (hafter : after ≠ []) : List.intercalate ['/'] (before ++ after) =
      List.intercalate ['/'] before ++ '/' :: List.intercalate ['/'] after := by
  induction before with
  | nil => exact absurd rfl hbefore
  | cons part before ih =>
    by_cases hnil : before = []
    · rw [hnil, List.singleton_append, List.intercalate_cons_of_ne_nil hafter,
        List.intercalate_singleton, List.append_assoc]
      rfl
    · have hsome := List.append_ne_nil_of_left_ne_nil hnil after
      rw [List.cons_append, List.intercalate_cons_of_ne_nil hsome,
        List.intercalate_cons_of_ne_nil hnil, ih hnil, List.append_assoc]
      simp

theorem compareTo_below {names rest : List String} (hnames : names ≠ []) (hrest : rest ≠ []) :
    Path.compareTo ⟨true, names⟩ ⟨true, names ++ rest⟩ < 0 := by
  have htext : Path.text ⟨true, names ++ rest⟩ = Path.text ⟨true, names⟩ ++
      '/' :: List.intercalate ['/'] (rest.map String.toList) := by
    rw [Path.text, Path.text, List.map_append,
      intercalate_append (List.map_eq_nil_iff.not.mpr hnames) (List.map_eq_nil_iff.not.mpr hrest),
      List.append_assoc]
  rw [Path.compareTo, Path.octets, Path.octets, htext, List.flatMap_append, List.flatMap_cons]
  exact compareOctets_append _ _ _

instance : Std.Total fun path other : Path ↦ other.compareTo path ≤ 0 := by
  refine ⟨fun path other ↦ ?_⟩
  have h := compareOctets_neg path.octets other.octets
  rw [Path.compareTo, Path.compareTo]
  omega

instance : IsTrans Path fun path other ↦ other.compareTo path ≤ 0 :=
  ⟨fun _ _ _ h h' ↦ compareOctets_trans h' h⟩

/-- A path is not above the ones behind it. -/
def ContentsFirst (paths : List (List String)) : Prop :=
  paths.Pairwise fun earlier later ↦ ¬(earlier <+: later ∧ earlier ≠ later)

theorem contentsFirst_reverseOrder {paths : List Path}
    (h : ∀ path ∈ paths, path.isAbsolute = true ∧ path.names ≠ []) :
    ContentsFirst ((reverseOrder paths).map Path.names) := by
  have hsorted := List.pairwise_insertionSort
    (fun path other : Path ↦ other.compareTo path ≤ 0) paths
  rw [ContentsFirst, List.pairwise_map]
  refine hsorted.imp_of_mem fun {earlier later} hearlier hlater horder ↦ ?_
  rintro ⟨⟨rest, hrest⟩, hne⟩
  obtain ⟨habsolute, hnames⟩ := h earlier ((List.mem_insertionSort _).mp hearlier)
  obtain ⟨habsolute', -⟩ := h later ((List.mem_insertionSort _).mp hlater)
  have hsome : rest ≠ [] := by
    rintro rfl
    exact hne ((List.append_nil _).symm.trans hrest)
  have hbefore := compareTo_below hnames hsome
  obtain ⟨absolute, names⟩ := earlier
  obtain ⟨absolute', names'⟩ := later
  dsimp only at habsolute habsolute' hrest hbefore
  subst habsolute habsolute' hrest
  have hneg := compareOctets_neg (Path.octets ⟨true, names ++ rest⟩) (Path.octets ⟨true, names⟩)
  rw [Path.compareTo] at horder hbefore
  omega

/-! ## The loop of deletions -/

section Run

variable {root : Directory} {files : StoredFiles} {path : Path}

/-- The number of nodes. -/
abbrev count : FileTree.Node (List UInt8) → ℕ := fun _ ↦ 1

theorem weigh_count (files : StoredFiles) : files.weigh count = files.length := by
  simp [FileTree.weigh]

/-- A path that holds nothing below it is deleted, and counted if it was there. -/
theorem exists_deleted (hkeyed : (files.map Prod.fst).Nodup)
    (hempty : files.occupied path.names = false) : ∃ bytes deleted,
      sizeIfRegularFile path files = (.ok bytes, files) ∧
      deleteIfExists path files = (.ok deleted, files.delete path.names) ∧
      ((files.delete path.names).weigh count + if deleted then 1 else 0) = files.weigh count ∧
      (files.delete path.names).weigh LocalFilesystemStorageBackend.sizeIfRegularFile + bytes =
        files.weigh LocalFilesystemStorageBackend.sizeIfRegularFile := by
  rw [sizeIfRegularFile, deleteIfExists]
  rcases hfind : files.find path.names with _ | node
  · have hstays : files.delete path.names = files := by
      refine List.filter_eq_self.mpr fun entry hentry ↦ decide_eq_true ?_
      rintro heq
      exact FileTree.find_ne_none_iff.mpr (heq ▸ List.mem_map_of_mem hentry) hfind
    exact ⟨0, false, rfl, by rw [hstays], by rw [hstays]; rfl, by rw [hstays]; rfl⟩
  · have hcount := FileTree.weigh_delete count hkeyed hfind
    have hbytes :=
      FileTree.weigh_delete LocalFilesystemStorageBackend.sizeIfRegularFile hkeyed hfind
    refine ⟨LocalFilesystemStorageBackend.sizeIfRegularFile node, true, rfl, ?_, hcount, hbytes⟩
    rcases node with _ | content
    · rw [hempty]
      rfl
    · rfl

theorem filter_delete (files : StoredFiles) (name : List String) (names : List (List String)) :
    (files.delete name).filter (fun entry ↦ decide (entry.1 ∉ names)) =
      files.filter fun entry ↦ decide (entry.1 ∉ name :: names) := by
  rw [FileTree.delete, List.filter_filter]
  refine List.filter_congr fun entry _ ↦ ?_
  simp [Bool.and_comm]

/-- **The loop.** If the paths are inside the root, contents first, and with a path everything below
it is among them, then none of the deletions fails and what they count is what they remove. -/
theorem deleteAll_eq_ok {paths : List Path} (stats : CleanupStats)
    (hkeyed : (files.map Prod.fst).Nodup)
    (hinside : ∀ path ∈ paths, ensurePathInsideRoot root path = .ok ())
    (hfirst : ContentsFirst (paths.map Path.names))
    (hclosed : ∀ path ∈ paths, ∀ other, files.find other ≠ none → path.names <+: other →
      other ≠ path.names → other ∈ paths.map Path.names) :
    ∃ stats', deleteAll root stats paths files =
        (.ok stats', files.filter fun entry ↦ decide (entry.1 ∉ paths.map Path.names)) ∧
      (FileTree.weigh count (files.filter fun entry ↦ decide (entry.1 ∉ paths.map Path.names))) +
        stats'.deletedCount = files.weigh count + stats.deletedCount ∧
      (FileTree.weigh LocalFilesystemStorageBackend.sizeIfRegularFile
        (files.filter fun entry ↦ decide (entry.1 ∉ paths.map Path.names))) +
        stats'.bytesFreed =
          files.weigh LocalFilesystemStorageBackend.sizeIfRegularFile + stats.bytesFreed := by
  induction paths generalizing files stats with
  | nil =>
    have hstays : files.filter (fun entry ↦ decide (entry.1 ∉ [])) = files :=
      List.filter_eq_self.mpr fun _ _ ↦ decide_eq_true List.not_mem_nil
    refine ⟨stats, ?_, ?_, ?_⟩
    · rw [List.map_nil, hstays]
      rfl
    · rw [List.map_nil, hstays]
    · rw [List.map_nil, hstays]
  | cons path paths ih =>
    rw [List.map_cons] at hfirst hclosed ⊢
    obtain ⟨hnotAbove, hfirst⟩ := List.pairwise_cons.mp hfirst
    -- what lies below the path would come later in the list, where nothing of it is left
    have hempty : files.occupied path.names = false := by
      rw [Bool.eq_false_iff]
      intro hoccupied
      obtain ⟨other, hfound, hbelow, hne⟩ := FileTree.occupied_iff.mp hoccupied
      have hmem := hclosed path List.mem_cons_self other hfound hbelow hne
      exact hnotAbove other ((List.mem_cons.mp hmem).resolve_left hne) ⟨hbelow, hne.symm⟩
    obtain ⟨bytes, deleted, hsize, hdelete, hcount, hbytes⟩ := exists_deleted hkeyed hempty
    have hkeyed' : ((files.delete path.names).map Prod.fst).Nodup :=
      hkeyed.sublist (List.filter_sublist.map _)
    obtain ⟨stats', hrun, hcount', hbytes'⟩ := ih
      ⟨stats.deletedCount + if deleted then 1 else 0, stats.bytesFreed + bytes⟩ hkeyed'
      (fun later hlater ↦ hinside later (List.mem_cons_of_mem _ hlater)) hfirst
      fun later hlater other hfound hbelow hne ↦ by
        rw [FileTree.find_delete] at hfound
        split at hfound
        · exact absurd rfl hfound
        · rename_i hother
          have hmem := hclosed later (List.mem_cons_of_mem _ hlater) other hfound hbelow hne
          exact (List.mem_cons.mp hmem).resolve_left hother
    rw [filter_delete] at hrun hcount' hbytes'
    refine ⟨stats', ?_, ?_, ?_⟩
    · rw [deleteAll, Exec.ofExcept_bind_ok (hinside path List.mem_cons_self),
        Exec.bind_of_ok hsize, Exec.bind_of_ok hdelete]
      exact hrun
    · rw [hcount', ← hcount]
      dsimp only
      omega
    · rw [hbytes', ← hbytes]
      dsimp only
      omega

end Run

/-! ## What a cleanup does

The loop checks every path against the root again, and deletes a directory only when it is empty.
Neither stops it: all paths lie below the target, and they come contents first. What is left is
the tree without the target and what lies below it, as if it had been deleted at once
(`cleanup_eq`). -/

section Cleanup

variable {root : Directory} {namespacePath : List Char} {found : Place} {store : Store}
  {target path : List String}

theorem root_of_place (h : place root namespacePath = .ok found) :
    root.names <+: found.targetPath := by
  rcases hnormal : StorageUris.normalizeNamespacePath (some namespacePath) with _ | normalized
  · rw [place, hnormal] at h
    cases h
  · rw [place_of_ok hnormal] at h
    obtain rfl := Except.ok.inj h
    exact List.prefix_append _ _

theorem ensurePathInsideRoot_of_found (hpath : store.files.find path ≠ none)
    (hroot : root.names <+: path) : ensurePathInsideRoot root ⟨true, path⟩ = .ok () := by
  have hnormal : Path.normalize ⟨true, path⟩ = ⟨true, path⟩ := by
    rw [Path.normalize, normalizeName_eq]
    exact congrArg (Path.mk true) (Paths.normalize_plain (store.plain path hpath))
  have hstarts : Path.startsWith ⟨true, path⟩ root.path = true := by
    obtain ⟨rest, rfl⟩ := hroot
    exact Path.startsWith_append
  rw [ensurePathInsideRoot, hnormal, hstarts]
  rfl

theorem mem_deletionOrder (hfound : store.files.find target ≠ none) :
    path ∈ (deletionOrder store.files ⟨true, target⟩).map Path.names ↔
      store.files.find path ≠ none ∧ target <+: path := by
  rw [← FileTree.mem_walk_depth store.lawful hfound, List.mem_map]
  simp only [deletionOrder, reverseOrder, List.mem_insertionSort, walk, List.mem_map]
  constructor
  · rintro ⟨_, ⟨names, hnames, rfl⟩, rfl⟩
    exact hnames
  · intro h
    exact ⟨⟨true, path⟩, ⟨path, h, rfl⟩, rfl⟩

theorem isAbsolute_of_mem {path : Path}
    (h : path ∈ deletionOrder store.files ⟨true, target⟩) : path.isAbsolute = true := by
  rw [deletionOrder, reverseOrder, List.mem_insertionSort, walk] at h
  obtain ⟨names, -, rfl⟩ := List.mem_map.mp h
  rfl

/-- A directory is deleted after its contents. -/
theorem contentsFirst_deletionOrder (hfound : store.files.find target ≠ none)
    (htarget : target ≠ []) :
    ContentsFirst ((deletionOrder store.files ⟨true, target⟩).map Path.names) := by
  refine contentsFirst_reverseOrder fun path hpath ↦ ?_
  have hmem : path ∈ deletionOrder store.files ⟨true, target⟩ :=
    (List.mem_insertionSort _).mpr hpath
  obtain ⟨-, hbelow⟩ := (mem_deletionOrder hfound).mp (List.mem_map_of_mem hmem)
  refine ⟨isAbsolute_of_mem hmem, ?_⟩
  rintro hnil
  rw [hnil] at hbelow
  exact htarget (List.prefix_nil.mp hbelow)

theorem target_ne_nil (h : place root namespacePath = .ok found) : found.targetPath ≠ [] := by
  obtain ⟨names, name, htarget⟩ := exists_target h
  rw [htarget]
  exact List.concat_ne_nil _ _

theorem inside_of_mem (h : place root namespacePath = .ok found)
    (hfound : store.files.find found.targetPath ≠ none) :
    ∀ path ∈ deletionOrder store.files ⟨true, found.targetPath⟩,
      ensurePathInsideRoot root path = .ok () := by
  intro path hpath
  obtain ⟨hexists, hbelow⟩ := (mem_deletionOrder hfound).mp (List.mem_map_of_mem hpath)
  have habsolute := isAbsolute_of_mem hpath
  obtain ⟨absolute, names⟩ := path
  dsimp only at habsolute
  subst habsolute
  exact ensurePathInsideRoot_of_found hexists ((root_of_place h).trans hbelow)

theorem filter_deletionOrder (hfound : store.files.find target ≠ none) :
    store.files.filter (fun entry ↦
      decide (entry.1 ∉ (deletionOrder store.files ⟨true, target⟩).map Path.names)) =
        store.files.deleteBelow target := by
  refine List.filter_congr fun entry hentry ↦ ?_
  have hexists : store.files.find entry.1 ≠ none :=
    FileTree.find_ne_none_iff.mpr (List.mem_map_of_mem hentry)
  by_cases hbelow : target <+: entry.1
  · rw [decide_eq_false (not_not.mpr ((mem_deletionOrder hfound).mpr ⟨hexists, hbelow⟩)),
      List.isPrefixOf_iff_prefix.mpr hbelow]
    rfl
  · have hkept : entry.1 ∉ (deletionOrder store.files ⟨true, target⟩).map Path.names :=
      fun hmem ↦ hbelow ((mem_deletionOrder hfound).mp hmem).2
    rw [decide_eq_true hkept,
      Bool.eq_false_iff.mpr fun hpre ↦ hbelow (List.isPrefixOf_iff_prefix.mp hpre)]
    rfl

/-- **The loop of a recursive cleanup** deletes the tree below its target and counts it. -/
theorem cleanupExistingPath_recursive (h : place root namespacePath = .ok found)
    (hfound : store.files.find found.targetPath ≠ none) :
    cleanupExistingPath root ⟨true, found.targetPath⟩ true store.files =
      (.ok ⟨(store.files.below found.targetPath).length,
        (store.files.below found.targetPath).weigh
          LocalFilesystemStorageBackend.sizeIfRegularFile⟩,
        store.files.deleteBelow found.targetPath) := by
  obtain ⟨stats, hrun, hcount, hbytes⟩ := deleteAll_eq_ok ⟨0, 0⟩ store.lawful.keyed
    (inside_of_mem h hfound) (contentsFirst_deletionOrder hfound (target_ne_nil h))
    fun path hpath other hexists hbelow _ ↦ by
      obtain ⟨-, habove⟩ := (mem_deletionOrder hfound).mp (List.mem_map_of_mem hpath)
      exact (mem_deletionOrder hfound).mpr ⟨hexists, habove.trans hbelow⟩
  rw [filter_deletionOrder hfound] at hrun hcount hbytes
  -- the counts are the difference between the tree before and the tree after
  have hcounted := FileTree.weigh_below count store.files found.targetPath
  have hfreed := FileTree.weigh_below LocalFilesystemStorageBackend.sizeIfRegularFile store.files
    found.targetPath
  rw [weigh_count (store.files.below _)] at hcounted
  have hstats : stats = ⟨(store.files.below found.targetPath).length,
      (store.files.below found.targetPath).weigh
        LocalFilesystemStorageBackend.sizeIfRegularFile⟩ := by
    rw [CleanupStats.mk.injEq]
    constructor
    · dsimp only at hcount
      omega
    · dsimp only at hbytes
      omega
  rw [← hstats]
  exact hrun

theorem cleanupExistingPath_file {files : StoredFiles} {content : List UInt8}
    (h : files.find target = some (.file content)) :
    cleanupExistingPath root ⟨true, target⟩ false files =
      (.ok ⟨1, content.length⟩, files.delete target) := by
  have hsize : sizeIfRegularFile ⟨true, target⟩ files = (.ok content.length, files) := by
    rw [sizeIfRegularFile, h]
    rfl
  have hdelete : deleteIfExists ⟨true, target⟩ files = (.ok true, files.delete target) := by
    rw [deleteIfExists, h]
  rw [cleanupExistingPath, if_pos Bool.not_false, Exec.bind_of_ok hsize, Exec.bind_of_ok hdelete]
  rfl

/-- **The loop refines the deletion at once**, whose results it has, for either kind of cleanup. -/
theorem cleanup_eq (root : Directory) (namespacePath : List Char) (recursive : Bool)
    (store : Store) : cleanup root namespacePath recursive store.files =
      LocalFilesystemStorageBackend.cleanup root namespacePath recursive store.files := by
  rw [cleanup, LocalFilesystemStorageBackend.cleanup]
  rcases hplace : place root namespacePath with exception | found
  · rw [Exec.ofExcept_bind_error rfl]
  rw [Exec.ofExcept_bind_ok rfl, Exec.bind_of_ok (Exec.get_apply _)]
  dsimp only
  rcases hfind : store.files.find found.targetPath with _ | node
  · rfl
  have hfound : store.files.find found.targetPath ≠ none := by
    rw [hfind]
    exact Option.some_ne_none _
  dsimp only
  rcases recursive with _ | _
  · rcases node with _ | content
    · rfl
    · rw [if_neg (by simp), if_neg (by simp),
        Exec.bind_of_ok (Exec.mapError_eq_ok.mpr (cleanupExistingPath_file hfind))]
      rfl
  · rw [if_neg (by simp), if_pos rfl,
      Exec.bind_of_ok (Exec.mapError_eq_ok.mpr (cleanupExistingPath_recursive hplace hfound))]
    rfl

/-- The tree that is left is one that a file system can hold. -/
def Store.deleteBelow (store : Store) (target : List String) : Store where
  files := store.files.deleteBelow target
  lawful := by
    refine ⟨store.lawful.keyed.sublist (List.filter_sublist.map _),
      fun path lead hpath hpre hne ↦ ?_⟩
    rw [FileTree.find_deleteBelow] at hpath ⊢
    by_cases hbelow : target <+: path
    · rw [if_pos hbelow] at hpath
      exact absurd rfl hpath
    · rw [if_neg hbelow] at hpath
      rw [if_neg fun h ↦ hbelow (h.trans hpre)]
      exact store.lawful.leads path lead hpath hpre hne
  plain := by
    intro path hpath
    rw [FileTree.find_deleteBelow] at hpath
    by_cases hbelow : target <+: path
    · rw [if_pos hbelow] at hpath
      exact absurd rfl hpath
    · rw [if_neg hbelow] at hpath
      exact store.plain path hpath

/-- A recursive cleanup of a place: what is left of the tree, in which order the rest was deleted,
what is reported, and that a second cleanup finds nothing. -/
structure Cleaned (root : Directory) (namespacePath : List Char) (place : Place)
    (store store' : Store) (result : StorageCleanupResult) : Prop where
  removed : ∀ path, place.targetPath <+: path → store'.files.find path = none
  kept : ∀ path, ¬place.targetPath <+: path → store'.files.find path = store.files.find path
  deletes : store.files.find place.targetPath ≠ none → ∀ path,
    path ∈ (deletionOrder store.files ⟨true, place.targetPath⟩).map Path.names ↔
      store.files.find path ≠ none ∧ place.targetPath <+: path
  order : store.files.find place.targetPath ≠ none →
    ContentsFirst ((deletionOrder store.files ⟨true, place.targetPath⟩).map Path.names)
  reported : result = ⟨place.namespacePath, place.storageUri,
    0 < (store.files.below place.targetPath).length, (store.files.below place.targetPath).length,
    (store.files.below place.targetPath).weigh LocalFilesystemStorageBackend.sizeIfRegularFile⟩
  again : cleanup root namespacePath true store'.files =
    (.ok ⟨place.namespacePath, place.storageUri, false, 0, 0⟩, store'.files)

theorem below_eq_nil (h : store.files.find target = none) : store.files.below target = [] := by
  refine List.filter_eq_nil_iff.mpr fun entry hentry hpre ↦ ?_
  have hexists : store.files.find entry.1 ≠ none :=
    FileTree.find_ne_none_iff.mpr (List.mem_map_of_mem hentry)
  have hbelow := List.isPrefixOf_iff_prefix.mp hpre
  by_cases hsame : target = entry.1
  · rw [← hsame] at hexists
    exact hexists h
  · rw [store.lawful.leads _ _ hexists hbelow hsame] at h
    cases h

theorem deleteBelow_eq_self (h : store.files.find target = none) :
    store.files.deleteBelow target = store.files := by
  have hnil := List.filter_eq_nil_iff.mp (below_eq_nil h)
  refine List.filter_eq_self.mpr fun entry hentry ↦ ?_
  rw [Bool.not_eq_true']
  exact Bool.eq_false_iff.mpr (hnil entry hentry)

/-- **What a recursive cleanup does**, to any tree: an unacceptable namespace leaves everything, and
an accepted one loses what lies at its path and below it, and nothing else. -/
theorem cleanup_frame (root : Directory) (namespacePath : List Char) (store : Store) :
    (∃ exception, place root namespacePath = .error exception ∧
      cleanup root namespacePath true store.files = (.error exception, store.files)) ∨
    ∃ found result, ∃ store' : Store, place root namespacePath = .ok found ∧
      cleanup root namespacePath true store.files = (.ok result, store'.files) ∧
      Cleaned root namespacePath found store store' result := by
  rcases hplace : place root namespacePath with exception | found
  · left
    refine ⟨exception, rfl, ?_⟩
    rw [cleanup_eq, LocalFilesystemStorageBackend.cleanup, hplace]
  right
  have hgone : (store.deleteBelow found.targetPath).files.find found.targetPath = none := by
    rw [Store.deleteBelow, FileTree.find_deleteBelow, if_pos List.prefix_rfl]
  refine ⟨found, _, store.deleteBelow found.targetPath, rfl, ?_, ?_, ?_,
    fun hfound path ↦ mem_deletionOrder hfound,
    fun hfound ↦ contentsFirst_deletionOrder hfound (target_ne_nil hplace), rfl, ?_⟩
  · rw [cleanup_eq, LocalFilesystemStorageBackend.cleanup, hplace]
    dsimp only
    rcases hfind : store.files.find found.targetPath with _ | node
    · rw [below_eq_nil hfind]
      exact Prod.ext rfl (deleteBelow_eq_self hfind).symm
    · rfl
  · intro path hpath
    rw [Store.deleteBelow, FileTree.find_deleteBelow, if_pos hpath]
  · intro path hpath
    rw [Store.deleteBelow, FileTree.find_deleteBelow, if_neg hpath]
  · rw [cleanup_eq, LocalFilesystemStorageBackend.cleanup, hplace]
    dsimp only
    rw [hgone]

/-- A directory `a` with a file and a directory in it, and a sibling whose name continues its
name. -/
def smallStore : Store where
  files :=
    [([], .directory), (["ab"], .file [1, 2]), (["a"], .directory), (["a", "b"], .file [3]),
      (["a", "b.c"], .directory)]
  lawful := by
    refine ⟨by decide +kernel, fun path lead hexists hlead hne ↦ ?_⟩
    have hall : ∀ path ∈ [[], ["ab"], ["a"], ["a", "b"], ["a", "b.c"]], ∀ lead ∈ path.inits,
        lead ≠ path → FileTree.find [([], .directory), (["ab"], .file [1, 2]), (["a"], .directory),
          (["a", "b"], .file [3]), (["a", "b.c"], .directory)] lead =
            some (.directory : FileTree.Node (List UInt8)) := by
      decide +kernel
    exact hall path (FileTree.find_ne_none_iff.mp hexists) lead ((List.mem_inits _ _).mpr hlead) hne
  plain := by
    intro path hexists
    have hall : ∀ path ∈ [[], ["ab"], ["a"], ["a", "b"], ["a", "b.c"]],
        Paths.Plain "." ".." path := by
      decide +kernel
    exact hall path (FileTree.find_ne_none_iff.mp hexists)

/-- The directory is deleted with its contents, and the sibling stays. -/
theorem cleanup_frame_small : ∃ store' : Store,
    cleanup ⟨[], by decide⟩ "a".toList true smallStore.files =
        (.ok ⟨"a".toList, "storage://a".toList, true, 3, 1⟩, store'.files) ∧
      store'.files.find ["a", "b"] = none ∧ store'.files.find ["ab"] = some (.file [1, 2]) := by
  have hplace : place ⟨[], by decide⟩ "a".toList =
      .ok ⟨"a".toList, "storage://a".toList, ["a"]⟩ := by
    decide +kernel
  rcases cleanup_frame ⟨[], by decide⟩ "a".toList smallStore with
    ⟨exception, hrefused, -⟩ | ⟨found, result, store', hfound, hcleanup, hcleaned⟩
  · cases hplace.symm.trans hrefused
  · obtain rfl := Except.ok.inj (hplace.symm.trans hfound)
    have hreported : result = ⟨"a".toList, "storage://a".toList, true, 3, 1⟩ :=
      hcleaned.reported.trans (by decide +kernel)
    refine ⟨store', by rw [hcleanup, hreported], hcleaned.removed _ (by decide), ?_⟩
    rw [hcleaned.kept _ (by decide)]
    decide +kernel

end Cleanup

end StorageCleanup

end FuzzingCiCd.Executor
