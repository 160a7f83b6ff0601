import FuzzingCiCd.Contracts.Messages
import FuzzingCiCd.Executor.StorageUris
import FuzzingCiCd.Foundation.FileTree
import Mathlib.Algebra.Ring.Nat

/-!
# The storage on a local file system

`save` copies a source to the path of its namespace below the root, unless something is there
already: then the checksums are compared, and equal ones make the call a success without a write.
`cleanup` deletes a path, or a directory with everything below it.

A process that crashes cuts a save off. What is left is a part of the directories above the target,
or a target that holds the first bytes of the source: `interruptedSave` takes the same steps as
`save` up to a point.

## Main results

* `perform_kept`: what is stored stays until it is cleaned up, whatever is cut off.
* `save_ok_iff`, `save_stored`: when a save succeeds, and what its descriptor says.
* `stored_iff`: over every sequence of calls, stored content is immutable, descriptors tell its size
  and checksum, and what is left of a save that was cut off does not stand in the way of another
  one, exactly when no save is cut off while its target holds bytes with another checksum than the
  source.

The check for an existing target is what makes stored content immutable, and it is the same check
that takes the torn copy for another artifact.
-/

namespace FuzzingCiCd.Executor

open Transition Contracts

/-- SHA-256, in hexadecimal, and the identifier made from the octets of a text. -/
structure StorageHost where
  sha256 : List UInt8 → String
  nameUUIDFromBytes : List Char → UUID

/-- What to save under which path of the storage. If a checksum is expected, the contents must have
it. -/
structure StorageSaveRequest where
  destinationPath : List Char
  artifactType : Option String
  name : String
  contentType : String
  metadata : JsonMap
  expectedChecksumSha256 : Option String
  deriving DecidableEq

/-- The source of a save, with its content if it is a regular file. -/
structure SourceFile where
  path : String
  content : Option (List UInt8)
  deriving DecidableEq

/-- What a cleanup of a namespace has deleted, in files and in bytes. -/
structure StorageCleanupResult where
  namespacePath : List Char
  storageUri : List Char
  deleted : Bool
  deletedCount : ℕ
  bytesFreed : ℕ
  deriving DecidableEq

/-- The files of the machine, by their absolute paths. -/
abbrev StoredFiles := FileTree String (List UInt8)

namespace LocalFilesystemStorageBackend

/-- The same as that of the client. -/
def resolve (root : Directory) (namespacePath : List Char) : Except StorageException Path :=
  LocalStorageClient.resolve root namespacePath

/-- What a call is about. -/
structure Place where
  namespacePath : List Char
  storageUri : List Char
  targetPath : List String
  deriving DecidableEq

def place (root : Directory) (namespacePath : List Char) : Except StorageException Place := do
  let namespacePath ← StorageUris.normalizeNamespacePath (some namespacePath)
  let storageUri ← StorageUris.toStorageUri (some namespacePath)
  let targetPath ← resolve root namespacePath
  return ⟨namespacePath, storageUri, targetPath.names⟩

/-! ## Saving -/

section Save

variable (host : StorageHost) (root : Directory) (source : SourceFile)
  (request : StorageSaveRequest) (files : StoredFiles)

/-- The `IOException` of one of the steps. -/
def saveFailure : StorageException := .storageClient "Не удалось сохранить файл в local storage"

def verifyExpectedChecksum (actualChecksum : String) (expectedChecksum : Option String)
    (storageUri : List Char) : Except StorageException Unit :=
  match expectedChecksum with
  | none => .ok ()
  | some expectedChecksum =>
    if expectedChecksum = actualChecksum then .ok ()
    else .error (.checksumMismatch ("SHA-256 checksum артефакта не совпадает для " ++
      .ofList storageUri ++ ": expected=" ++ expectedChecksum ++ ", actual=" ++ actualChecksum))

/-- The part of a save before it writes: the source, the target and the directories above it. -/
def prepare : Except StorageException (List UInt8 × Place) :=
  match source.content with
  | none => .error (.storageClient ("Исходный файл для storage не найден: " ++ source.path))
  | some content => do
    let place ← place root request.destinationPath
    if files.blocked place.targetPath.dropLast then .error saveFailure else .ok (content, place)

/-- The part of a save between the directories and the copy: the content that is there already. -/
def inspect (content : List UInt8) (place : Place) :
    Except StorageException (Option (List UInt8)) := do
  verifyExpectedChecksum (host.sha256 content) request.expectedChecksumSha256 place.storageUri
  match files.find place.targetPath with
  | none => .ok none
  | some .directory => .error saveFailure
  | some (.file stored) =>
    if host.sha256 content = host.sha256 stored then .ok (some stored)
    else .error (.storageClient
      ("Артефакт уже существует с другим содержимым: " ++ .ofList place.storageUri))

def descriptor (place : Place) (size : ℕ) (checksum : String) : ArtifactDescriptor where
  artifactId := some (host.nameUUIDFromBytes place.storageUri)
  artifactType := request.artifactType
  name := some request.name
  uri := some (.ofList place.storageUri)
  contentType := some request.contentType
  sizeBytes := some (.ofNat size)
  checksumSha256 := some checksum
  metadata := request.metadata

def save : Except StorageException ArtifactDescriptor × StoredFiles :=
  match prepare root source request files with
  | .error exception => (.error exception, files)
  | .ok (content, place) =>
    let files := files.createDirectories place.targetPath.dropLast
    match inspect host request files content place with
    | .error exception => (.error exception, files)
    | .ok (some stored) =>
      (.ok (descriptor host request place stored.length (host.sha256 content)), files)
    | .ok none =>
      (.ok (descriptor host request place content.length (host.sha256 content)),
        files.create place.targetPath (.file content))

/-- Where a save is cut off: after some of the directories, or after some bytes of the copy. -/
inductive CutOff
  | directories (n : ℕ)
  | copying (n : ℕ)
  deriving DecidableEq

/-- What a save leaves that is cut off. One that fails before that point leaves what it leaves. -/
def interruptedSave (cutOff : CutOff) : StoredFiles :=
  match prepare root source request files with
  | .error _ => files
  | .ok (content, place) =>
    match cutOff with
    | .directories n => files.createDirectories (place.targetPath.dropLast.take n)
    | .copying n =>
      let files := files.createDirectories place.targetPath.dropLast
      match inspect host request files content place with
      | .ok none => files.create place.targetPath (.file (content.take n))
      | _ => files

end Save

/-! ## Cleanup -/

/-- `Files.size`, of a regular file. -/
def sizeIfRegularFile : FileTree.Node (List UInt8) → ℕ
  | .directory => 0
  | .file content => content.length

def cleanup (root : Directory) (namespacePath : List Char) (recursive : Bool)
    (files : StoredFiles) : Except StorageException StorageCleanupResult × StoredFiles :=
  match place root namespacePath with
  | .error exception => (.error exception, files)
  | .ok place =>
    match files.find place.targetPath with
    | none => (.ok ⟨place.namespacePath, place.storageUri, false, 0, 0⟩, files)
    | some node =>
      if recursive then
        let entries := files.below place.targetPath
        (.ok ⟨place.namespacePath, place.storageUri, 0 < entries.length, entries.length,
          (entries.map fun entry ↦ sizeIfRegularFile entry.2).sum⟩,
          files.deleteBelow place.targetPath)
      else
        match node with
        | .directory =>
          (.error (.illegalArgument ("Storage namespace является директорией, для удаления " ++
            "дерева нужен recursive=true: " ++ .ofList place.storageUri)), files)
        | .file content =>
          (.ok ⟨place.namespacePath, place.storageUri, true, 1, content.length⟩,
            files.delete place.targetPath)

end LocalFilesystemStorageBackend

/-! ## Calls -/

inductive StorageCall
  | save (source : SourceFile) (request : StorageSaveRequest)
  | interruptedSave (source : SourceFile) (request : StorageSaveRequest)
      (cutOff : LocalFilesystemStorageBackend.CutOff)
  | cleanup (namespacePath : List Char) (recursive : Bool)
  deriving DecidableEq

namespace StorageCall

/-- The namespace that a call is given. -/
def namespacePath : StorageCall → List Char
  | save _ request => request.destinationPath
  | interruptedSave _ request _ => request.destinationPath
  | cleanup namespacePath _ => namespacePath

open LocalFilesystemStorageBackend in
def perform (host : StorageHost) (root : Directory) (files : StoredFiles) :
    StorageCall → StoredFiles
  | save source request => (LocalFilesystemStorageBackend.save host root source request files).2
  | interruptedSave source request cutOff =>
    LocalFilesystemStorageBackend.interruptedSave host root source request files cutOff
  | cleanup namespacePath recursive =>
    (LocalFilesystemStorageBackend.cleanup root namespacePath recursive files).2

end StorageCall

namespace LocalFilesystemStorageBackend

/-! ## What a save needs and what it leaves

A save reads the source, normalizes the place, makes the directories, compares the checksum and
looks at what is stored there, in this order, and each step has an equation for its success.
Making the directories above the target does not touch the target itself, as this is no prefix of
them. -/

section Places

variable {root : Directory} {namespacePath normalized : List Char} {found : Place}

theorem place_of_ok (h : StorageUris.normalizeNamespacePath (some namespacePath) = .ok normalized) :
    place root namespacePath = .ok ⟨normalized,
      StorageUris.SCHEME ++ "://".toList ++ normalized,
      root.names ++ (StorageUris.segments normalized).map String.ofList⟩ := by
  obtain ⟨-, -, -, hcanonical⟩ := StorageUris.normalizeNamespacePath_ok h
  rw [place, h, ok_bind, StorageUris.toStorageUri,
    StorageUris.normalizeNamespacePath_canonical hcanonical, ok_bind, resolve,
    StorageUris.resolve_canonical hcanonical root]
  rfl

/-- The target is below the root, so it has a name and it is not the directory above it. -/
theorem exists_target (h : place root namespacePath = .ok found) :
    ∃ names name, found.targetPath = names ++ [name] := by
  rcases hnormal : StorageUris.normalizeNamespacePath (some namespacePath) with _ | normalized
  · rw [place, hnormal] at h
    cases h
  · rw [place_of_ok hnormal] at h
    obtain rfl := Except.ok.inj h
    have hne : root.names ++ (StorageUris.segments normalized).map String.ofList ≠ [] := by
      refine List.append_ne_nil_of_right_ne_nil _ fun hnil ↦ ?_
      exact StorageUris.segments_ne_nil normalized (List.map_eq_nil_iff.mp hnil)
    exact ⟨_, _, (List.dropLast_append_getLast hne).symm⟩

theorem not_target_isPrefix (h : place root namespacePath = .ok found) {path : List String}
    (hpath : path <+: found.targetPath.dropLast) : path ≠ found.targetPath := by
  obtain ⟨names, name, htarget⟩ := exists_target h
  rintro rfl
  rw [htarget, List.dropLast_concat] at hpath
  have hlength := hpath.length_le
  rw [List.length_append, List.length_singleton] at hlength
  omega

theorem place_eq_of_uri {other : List Char}
    (h : StorageUris.toStorageUri (some other) = StorageUris.toStorageUri (some namespacePath))
    (hplace : place root namespacePath = .ok found) : place root other = .ok found := by
  rw [StorageUris.toStorageUri, StorageUris.toStorageUri] at h
  rcases hnormal : StorageUris.normalizeNamespacePath (some namespacePath) with _ | normalized
  · rw [place, hnormal] at hplace
    cases hplace
  rcases hother : StorageUris.normalizeNamespacePath (some other) with _ | normalized'
  · rw [hnormal, hother] at h
    cases h
  · rw [hnormal, hother] at h
    have heq := List.append_cancel_left (Except.ok.inj h)
    rw [place_of_ok hnormal] at hplace
    rw [place_of_ok hother, heq, hplace]

end Places

section Save

variable {host : StorageHost} {root : Directory} {source : SourceFile}
  {request : StorageSaveRequest} {files after : StoredFiles} {content : List UInt8} {found : Place}

/-- The content can be stored at the place, or is. -/
structure Accepts (host : StorageHost) (files : StoredFiles) (content : List UInt8)
    (place : Place) : Prop where
  clear : files.blocked place.targetPath.dropLast = false
  same : ∀ node, files.find place.targetPath = some node →
    ∃ stored, node = .file stored ∧ host.sha256 content = host.sha256 stored

theorem prepare_eq_ok : prepare root source request files = .ok (content, found) ↔
    source.content = some content ∧ place root request.destinationPath = .ok found ∧
      files.blocked found.targetPath.dropLast = false := by
  rw [prepare]
  rcases source.content with _ | own
  · exact iff_of_false (fun h ↦ by cases h) fun h ↦ by cases h.1
  · dsimp only
    rw [bind_eq_ok]
    constructor
    · rintro ⟨place, hplace, h⟩
      split at h
      · cases h
      · rename_i hclear
        obtain ⟨rfl, rfl⟩ := Prod.mk.inj (Except.ok.inj h)
        exact ⟨rfl, hplace, Bool.eq_false_iff.mpr hclear⟩
    · rintro ⟨hcontent, hplace, hclear⟩
      obtain rfl := Option.some.inj hcontent
      refine ⟨found, hplace, ?_⟩
      rw [hclear]
      rfl

theorem verifyExpectedChecksum_eq_ok {actual : String} {expected : Option String}
    {uri : List Char} :
    verifyExpectedChecksum actual expected uri = .ok () ↔ ∀ checksum ∈ expected,
      checksum = actual := by
  rcases expected with _ | expected
  · exact iff_of_true rfl (by simp)
  · rw [verifyExpectedChecksum]
    split
    · rename_i h
      exact iff_of_true rfl (by simpa using h)
    · rename_i h
      exact iff_of_false (fun h ↦ by cases h) (by simpa using h)

theorem inspect_eq_ok {stored : Option (List UInt8)} :
    inspect host request files content found = .ok stored ↔
      (∀ checksum ∈ request.expectedChecksumSha256, checksum = host.sha256 content) ∧
        files.find found.targetPath = stored.map .file ∧
          ∀ bytes ∈ stored, host.sha256 content = host.sha256 bytes := by
  rw [inspect, bind_eq_ok, ← @verifyExpectedChecksum_eq_ok _ _ found.storageUri]
  constructor
  · rintro ⟨⟨⟩, hverify, h⟩
    refine ⟨hverify, ?_⟩
    split at h
    · rename_i hnone
      obtain rfl := Except.ok.inj h
      exact ⟨hnone, by simp⟩
    · cases h
    · rename_i bytes hfile
      split at h
      · rename_i hsame
        obtain rfl := Except.ok.inj h
        exact ⟨hfile, by simpa using hsame⟩
      · cases h
  · rintro ⟨hverify, hfind, hsame⟩
    refine ⟨(), hverify, ?_⟩
    rw [hfind]
    rcases stored with _ | bytes
    · rfl
    · exact if_pos (hsame bytes rfl)

theorem find_target_createDirectories (h : place root request.destinationPath = .ok found)
    {dirs : List String} (hdirs : dirs <+: found.targetPath.dropLast) :
    (files.createDirectories dirs).find found.targetPath = files.find found.targetPath := by
  rw [FileTree.find_createDirectories, if_neg fun htarget ↦ not_target_isPrefix h
    (htarget.trans hdirs) rfl, Option.or_none]

/-- **When a save succeeds**: the source is a file, its checksum is the expected one, and the place
accepts the content. -/
theorem save_ok_iff : (∃ made, (save host root source request files).1 = .ok made) ↔
    ∃ content found, source.content = some content ∧
      place root request.destinationPath = .ok found ∧
      (∀ checksum ∈ request.expectedChecksumSha256, checksum = host.sha256 content) ∧
      Accepts host files content found := by
  rw [save]
  rcases hprepare : prepare root source request files with exception | ⟨content, found⟩
  · refine iff_of_false (by rintro ⟨made, h⟩; cases h) ?_
    rintro ⟨content, found, hcontent, hplace, -, haccepts⟩
    rw [prepare_eq_ok.mpr ⟨hcontent, hplace, haccepts.clear⟩] at hprepare
    cases hprepare
  obtain ⟨hcontent, hplace, hclear⟩ := prepare_eq_ok.mp hprepare
  have htarget := @find_target_createDirectories root request files found hplace _
    (List.prefix_refl _)
  dsimp only
  rcases hinspect : inspect host request (files.createDirectories found.targetPath.dropLast)
      content found with exception | stored
  · refine iff_of_false (by rintro ⟨made, h⟩; cases h) ?_
    rintro ⟨content', found', hcontent', hplace', hexpected, haccepts⟩
    obtain rfl := Option.some.inj (hcontent.symm.trans hcontent')
    obtain rfl := Except.ok.inj (hplace.symm.trans hplace')
    have hok : ∃ stored, inspect host request
        (files.createDirectories found.targetPath.dropLast) content found = .ok stored := by
      rcases hfind : files.find found.targetPath with _ | node
      · exact ⟨none, inspect_eq_ok.mpr ⟨hexpected, htarget.trans hfind, by simp⟩⟩
      · obtain ⟨stored, rfl, hsame⟩ := haccepts.same node hfind
        exact ⟨some stored,
          inspect_eq_ok.mpr ⟨hexpected, htarget.trans hfind, by simpa using hsame⟩⟩
    obtain ⟨stored, hstored⟩ := hok
    rw [hstored] at hinspect
    cases hinspect
  · obtain ⟨hexpected, hfind, hsame⟩ := inspect_eq_ok.mp hinspect
    rw [htarget] at hfind
    refine iff_of_true (by rcases stored with _ | stored <;> exact ⟨_, rfl⟩)
      ⟨content, found, hcontent, hplace, hexpected, hclear, fun node hnode ↦ ?_⟩
    rw [hfind] at hnode
    obtain ⟨bytes, hbytes, rfl⟩ := Option.map_eq_some_iff.mp hnode
    exact ⟨bytes, rfl, hsame bytes hbytes⟩

/-- **What a successful save leaves** is a file at its place, and the descriptor tells the size and
the checksum of what that file holds. -/
theorem save_stored {made : ArtifactDescriptor}
    (h : (save host root source request files).1 = .ok made) :
    ∃ found stored, place root request.destinationPath = .ok found ∧
      (save host root source request files).2.find found.targetPath = some (.file stored) ∧
      made.sizeBytes = some (.ofNat stored.length) ∧
      made.checksumSha256 = some (host.sha256 stored) := by
  rw [save] at h ⊢
  rcases hprepare : prepare root source request files with exception | ⟨content, found⟩
  · rw [hprepare] at h
    cases h
  obtain ⟨hcontent, hplace, hclear⟩ := prepare_eq_ok.mp hprepare
  rw [hprepare] at h
  dsimp only at h ⊢
  rcases hinspect : inspect host request (files.createDirectories found.targetPath.dropLast)
      content found with exception | _ | stored
  · rw [hinspect] at h
    cases h
  · -- a new file with the whole content
    rw [hinspect] at h
    obtain ⟨-, hfind, -⟩ := inspect_eq_ok.mp hinspect
    obtain rfl := Except.ok.inj h
    refine ⟨found, content, hplace, ?_, rfl, rfl⟩
    rw [FileTree.find_create, hfind, if_pos rfl]
    rfl
  · -- the file that was there, which has the same checksum
    rw [hinspect] at h
    obtain ⟨-, hfind, hsame⟩ := inspect_eq_ok.mp hinspect
    obtain rfl := Except.ok.inj h
    exact ⟨found, stored, hplace, hfind, rfl, congrArg some (hsame stored rfl)⟩

end Save

/-! ## What calls do to the files -/

/-- Nothing that was there is changed, and what is new is the target or a directory above it. -/
structure Grown (files after : StoredFiles) (target : List String) : Prop where
  kept : ∀ path node, files.find path = some node → after.find path = some node
  new : ∀ path node, after.find path = some node → files.find path = some node ∨
    path <+: target ∧ (path ≠ target → node = .directory)

section Calls

variable {host : StorageHost} {root : Directory} {source : SourceFile}
  {request : StorageSaveRequest} {files after : StoredFiles} {content : List UInt8} {found : Place}
  {target : List String}

theorem Grown.refl (files : StoredFiles) (target : List String) : Grown files files target :=
  ⟨fun _ _ h ↦ h, fun _ _ h ↦ .inl h⟩

theorem Grown.trans {later : StoredFiles} (hfirst : Grown files after target)
    (hnext : Grown after later target) : Grown files later target := by
  refine ⟨fun path node h ↦ hnext.kept path node (hfirst.kept path node h),
    fun path node h ↦ ?_⟩
  rcases hnext.new path node h with hafter | hnew
  · exact hfirst.new path node hafter
  · exact .inr hnew

theorem grown_createDirectories {dirs : List String} (hdirs : dirs <+: target) :
    Grown files (files.createDirectories dirs) target := by
  refine ⟨fun path node h ↦ ?_, fun path node h ↦ ?_⟩
  · rw [FileTree.find_createDirectories, h, Option.some_or]
  · rw [FileTree.find_createDirectories] at h
    rcases hfind : files.find path with _ | old
    · rw [hfind, Option.none_or] at h
      split at h
      · rename_i hpath
        exact .inr ⟨hpath.trans hdirs, fun _ ↦ (Option.some.inj h).symm⟩
      · cases h
    · rw [hfind, Option.some_or] at h
      exact .inl h

theorem grown_create (content : List UInt8) :
    Grown files (files.create target (.file content)) target := by
  refine ⟨fun path node h ↦ FileTree.find_create_of_some h _ _, fun path node h ↦ ?_⟩
  rw [FileTree.find_create] at h
  by_cases hpath : path = target
  · rcases hfind : files.find path with _ | old
    · exact .inr ⟨hpath ▸ List.prefix_refl _, fun hne ↦ absurd hpath hne⟩
    · rw [hfind, Option.some_or] at h
      exact .inl h
  · rw [if_neg hpath, Option.or_none] at h
    exact .inl h

theorem dropLast_isPrefix (names : List String) : names.dropLast <+: names :=
  List.dropLast_prefix names

/-- A save that is cut off behind its last byte leaves what a save leaves. -/
theorem save_files {n : ℕ} (h : ∀ content ∈ source.content, content.length ≤ n) :
    (save host root source request files).2 =
      interruptedSave host root source request files (.copying n) := by
  rw [save, interruptedSave]
  rcases hprepare : prepare root source request files with refused | ⟨content, found⟩
  · rfl
  · have htake : content.take n = content :=
      List.take_of_length_le (h content (prepare_eq_ok.mp hprepare).1)
    dsimp only
    rcases inspect host request (files.createDirectories found.targetPath.dropLast) content
      found with exception | _ | stored
    · rfl
    · rw [htake]
    · rfl

theorem interruptedSave_grown (cutOff : CutOff) :
    (∃ exception, place root request.destinationPath = .error exception ∧
        interruptedSave host root source request files cutOff = files) ∨
      ∃ found, place root request.destinationPath = .ok found ∧
        Grown files (interruptedSave host root source request files cutOff) found.targetPath := by
  rw [interruptedSave]
  rcases hplace : place root request.destinationPath with exception | found
  · refine .inl ⟨exception, rfl, ?_⟩
    rcases hprepare : prepare root source request files with refused | ⟨content, found⟩
    · rfl
    · rw [(prepare_eq_ok.mp hprepare).2.1] at hplace
      cases hplace
  · refine .inr ⟨found, rfl, ?_⟩
    rcases hprepare : prepare root source request files with refused | ⟨content, found'⟩
    · exact .refl _ _
    · obtain rfl := Except.ok.inj ((prepare_eq_ok.mp hprepare).2.1.symm.trans hplace)
      have hdirs := @grown_createDirectories files _ _ (dropLast_isPrefix found'.targetPath)
      rcases cutOff with n | n
      · exact grown_createDirectories
          ((List.take_prefix _ _).trans (dropLast_isPrefix found'.targetPath))
      · dsimp only
        rcases inspect host request (files.createDirectories found'.targetPath.dropLast) content
          found' with exception | _ | stored
        · exact hdirs
        · exact hdirs.trans (grown_create (content.take n))
        · exact hdirs

theorem save_grown :
    (∃ exception, place root request.destinationPath = .error exception ∧
        (save host root source request files).2 = files) ∨
      ∃ found, place root request.destinationPath = .ok found ∧
        Grown files (save host root source request files).2 found.targetPath := by
  have hfiles := @save_files host root source request files (source.content.getD []).length
    fun content hcontent ↦ by rw [Option.mem_def.mp hcontent]; exact Nat.le_refl _
  rw [hfiles]
  exact interruptedSave_grown _

/-- A cleanup removes its target, or everything below it, and nothing else. -/
theorem cleanup_find (namespacePath : List Char) (recursive : Bool) (path : List String) :
    (cleanup root namespacePath recursive files).2.find path = files.find path ∨
      ∃ found, place root namespacePath = .ok found ∧
        (path = found.targetPath ∨ recursive = true ∧ found.targetPath <+: path) ∧
        (cleanup root namespacePath recursive files).2.find path = none := by
  rw [cleanup]
  rcases hplace : place root namespacePath with exception | found
  · exact .inl rfl
  dsimp only
  rcases hfind : files.find found.targetPath with _ | node
  · exact .inl rfl
  dsimp only
  split
  · rename_i hrecursive
    rw [FileTree.find_deleteBelow]
    by_cases hbelow : found.targetPath <+: path
    · exact .inr ⟨found, rfl, .inr ⟨hrecursive, hbelow⟩, if_pos hbelow⟩
    · exact .inl (if_neg hbelow)
  · rcases node with _ | content
    · exact .inl rfl
    · dsimp only
      rw [FileTree.find_delete]
      by_cases hpath : path = found.targetPath
      · exact .inr ⟨found, rfl, .inl hpath, if_pos hpath⟩
      · exact .inl (if_neg hpath)

/-! ### Sequences of calls

A file can vanish only by a cleanup of its path or of something above it, and a place stops
accepting a content only by a call that makes something at the place, above it or below it. A
save that is cut off is such a call if it leaves other bytes than those of its source. -/

/-- The call deletes the path. -/
def CleansUp (root : Directory) (path : List String) (call : StorageCall) : Prop :=
  ∃ namespacePath recursive found, call = .cleanup namespacePath recursive ∧
    place root namespacePath = .ok found ∧
    (path = found.targetPath ∨ recursive = true ∧ found.targetPath <+: path)

/-- The call is about neither the path, nor a directory above it, nor something below it. -/
def Elsewhere (root : Directory) (path : List String) (call : StorageCall) : Prop :=
  ∀ found, place root call.namespacePath = .ok found →
    ¬found.targetPath <+: path ∧ ¬path <+: found.targetPath

/-- What is there stays until it is cleaned up. -/
theorem perform_kept {path : List String} {node : FileTree.Node (List UInt8)} {call : StorageCall}
    (h : files.find path = some node) (hkept : ¬CleansUp root path call) :
    (call.perform host root files).find path = some node := by
  cases call with
  | save source request =>
    rcases @save_grown host root source request files with ⟨-, -, hsame⟩ | ⟨found, -, hgrown⟩
    · exact (congrArg (FileTree.find · path) hsame).trans h
    · exact hgrown.kept path node h
  | interruptedSave source request cutOff =>
    rcases @interruptedSave_grown host root source request files cutOff with
      ⟨-, -, hsame⟩ | ⟨found, -, hgrown⟩
    · exact (congrArg (FileTree.find · path) hsame).trans h
    · exact hgrown.kept path node h
  | cleanup namespacePath recursive =>
    rcases @cleanup_find root files namespacePath recursive path with
      hsame | ⟨found, hplace, hbelow, -⟩
    · exact hsame.trans h
    · exact absurd ⟨namespacePath, recursive, found, rfl, hplace, hbelow⟩ hkept

theorem Accepts.grown (h : Accepts host files content found) (hgrown : Grown files after target)
    (habove : ¬target <+: found.targetPath) (hbelow : ¬found.targetPath <+: target) :
    Accepts host after content found := by
  refine ⟨FileTree.blocked_eq_false.mpr fun lead hlead bytes hfile ↦ ?_, fun node hnode ↦ ?_⟩
  · rcases hgrown.new lead _ hfile with hold | ⟨-, hnew⟩
    · exact FileTree.blocked_eq_false.mp h.clear lead hlead bytes hold
    · by_cases hlead' : lead = target
      · exact habove (hlead' ▸ hlead.trans (dropLast_isPrefix _))
      · cases hnew hlead'
  · rcases hgrown.new _ node hnode with hold | ⟨hpath, -⟩
    · exact h.same node hold
    · exact absurd hpath hbelow

/-- A place goes on accepting the content when calls are made elsewhere. -/
theorem Accepts.perform {call : StorageCall} (h : Accepts host files content found)
    (helsewhere : Elsewhere root found.targetPath call) :
    Accepts host (call.perform host root files) content found := by
  cases call with
  | save source request =>
    rcases @save_grown host root source request files with ⟨-, -, hsame⟩ | ⟨other, hplace, hgrown⟩
    · rw [StorageCall.perform, hsame]
      exact h
    · obtain ⟨habove, hbelow⟩ := helsewhere other hplace
      exact h.grown hgrown habove hbelow
  | interruptedSave source request cutOff =>
    rcases @interruptedSave_grown host root source request files cutOff with
      ⟨-, -, hsame⟩ | ⟨other, hplace, hgrown⟩
    · rw [StorageCall.perform, hsame]
      exact h
    · obtain ⟨habove, hbelow⟩ := helsewhere other hplace
      exact h.grown hgrown habove hbelow
  | cleanup namespacePath recursive =>
    have hfind := @cleanup_find root files namespacePath recursive
    refine ⟨FileTree.blocked_eq_false.mpr fun lead hlead bytes hfile ↦ ?_, fun node hnode ↦ ?_⟩
    · rcases hfind lead with hsame | ⟨-, -, -, hnone⟩
      · exact FileTree.blocked_eq_false.mp h.clear lead hlead bytes (hsame.symm.trans hfile)
      · cases hnone.symm.trans hfile
    · rcases hfind found.targetPath with hsame | ⟨-, -, -, hnone⟩
      · exact h.same node (hsame.symm.trans hnode)
      · cases hnone.symm.trans hnode

/-- The save is cut off while its target holds bytes with another checksum than the source. -/
def Torn (host : StorageHost) (root : Directory) (files : StoredFiles) (call : StorageCall) :
    Prop :=
  ∃ source request n content found, call = .interruptedSave source request (.copying n) ∧
    source.content = some content ∧ place root request.destinationPath = .ok found ∧
    (∀ checksum ∈ request.expectedChecksumSha256, checksum = host.sha256 content) ∧
    files.blocked found.targetPath.dropLast = false ∧ files.find found.targetPath = none ∧
    host.sha256 (content.take n) ≠ host.sha256 content

/-- What is at the target after a save that is not torn: what was there, or a file with the checksum
of the content. -/
theorem find_target_interruptedSave {cutOff : CutOff} {node : FileTree.Node (List UInt8)}
    (hprepare : prepare root source request files = .ok (content, found))
    (htorn : ¬Torn host root files (.interruptedSave source request cutOff))
    (hnode : (interruptedSave host root source request files cutOff).find found.targetPath =
      some node) :
    files.find found.targetPath = some node ∨
      ∃ stored, node = .file stored ∧ host.sha256 content = host.sha256 stored := by
  obtain ⟨hsource, hplace, hclear⟩ := prepare_eq_ok.mp hprepare
  have hdirs := @find_target_createDirectories root request files found hplace
  rw [interruptedSave, hprepare] at hnode
  rcases cutOff with n | n
  · exact .inl ((hdirs (List.take_prefix _ _)).symm.trans hnode)
  dsimp only at hnode
  rcases hinspect : inspect host request (files.createDirectories found.targetPath.dropLast)
    content found with exception | _ | stored
  · rw [hinspect] at hnode
    exact .inl ((hdirs (List.prefix_refl _)).symm.trans hnode)
  · -- the copy was begun
    obtain ⟨hexpected, hnone, -⟩ := inspect_eq_ok.mp hinspect
    rw [hinspect, FileTree.find_create, hnone, if_pos rfl] at hnode
    refine .inr ⟨content.take n, (Option.some.inj hnode).symm, ?_⟩
    by_contra hne
    exact htorn ⟨source, request, n, content, found, rfl, hsource, hplace, hexpected, hclear,
      (hdirs (List.prefix_refl _)).symm.trans hnone, Ne.symm hne⟩
  · rw [hinspect] at hnode
    exact .inl ((hdirs (List.prefix_refl _)).symm.trans hnode)

/-- A save that is not torn leaves a place that accepts the content it accepted before. -/
theorem Accepts.interruptedSave {cutOff : CutOff} (h : Accepts host files content found)
    (hsource : source.content = some content)
    (hplace : place root request.destinationPath = .ok found)
    (htorn : ¬Torn host root files (.interruptedSave source request cutOff)) :
    Accepts host (interruptedSave host root source request files cutOff) content found := by
  have hprepare := prepare_eq_ok.mpr ⟨hsource, hplace, h.clear⟩
  refine ⟨FileTree.blocked_eq_false.mpr fun lead hlead bytes hfile ↦ ?_, fun node hnode ↦ ?_⟩
  · rcases @interruptedSave_grown host root source request files cutOff with
      ⟨exception, hrefused, -⟩ | ⟨other, hother, hgrown⟩
    · cases hplace.symm.trans hrefused
    obtain rfl := Except.ok.inj (hplace.symm.trans hother)
    rcases hgrown.new lead _ hfile with hold | ⟨-, hnew⟩
    · exact FileTree.blocked_eq_false.mp h.clear lead hlead bytes hold
    · cases hnew (not_target_isPrefix hplace hlead)
  · exact (find_target_interruptedSave hprepare htorn hnode).elim (h.same node) id

/-! ### The storage over a sequence of calls -/

/-- The files after some calls. -/
def run (host : StorageHost) (root : Directory) (files : StoredFiles) (calls : List StorageCall) :
    StoredFiles :=
  calls.foldl (StorageCall.perform host root) files

/-- Stored content is what the descriptor says and stays until it is cleaned up, and a save that was
cut off does not keep a later one of the same content to the same identifier from succeeding, when
the calls between them are about other places and it would have succeeded before. -/
structure Sound (host : StorageHost) (root : Directory) (files : StoredFiles)
    (calls : List StorageCall) : Prop where
  stored : ∀ before source request made during,
    before ++ .save source request :: during <+: calls →
    (save host root source request (run host root files before)).1 = .ok made →
    ∃ found content, place root request.destinationPath = .ok found ∧
      made.sizeBytes = some (.ofNat content.length) ∧
      made.checksumSha256 = some (host.sha256 content) ∧
      (run host root files (before ++ [.save source request])).find found.targetPath =
        some (.file content) ∧
      ((∀ call ∈ during, ¬CleansUp root found.targetPath call) →
        (run host root files (before ++ .save source request :: during)).find found.targetPath =
          some (.file content))
  retryable : ∀ before source request cutOff during retried again,
    before ++ [.interruptedSave source request cutOff] <+: calls →
    (∀ found, place root request.destinationPath = .ok found →
      ∀ call ∈ during, Elsewhere root found.targetPath call) →
    retried.content = source.content →
    StorageUris.toStorageUri (some again.destinationPath) =
      StorageUris.toStorageUri (some request.destinationPath) →
    (∃ made, (save host root retried again (run host root files before)).1 = .ok made) →
    ∃ made, (save host root retried again (run host root files
      (before ++ .interruptedSave source request cutOff :: during))).1 = .ok made

theorem run_append (before calls : List StorageCall) :
    run host root files (before ++ calls) = run host root (run host root files before) calls :=
  List.foldl_append

theorem run_kept {path : List String} {node : FileTree.Node (List UInt8)}
    {calls : List StorageCall} (h : files.find path = some node)
    (hkept : ∀ call ∈ calls, ¬CleansUp root path call) :
    (run host root files calls).find path = some node := by
  induction calls generalizing files with
  | nil => exact h
  | cons call calls ih =>
    exact ih (perform_kept h (hkept call List.mem_cons_self)) fun other hother ↦
      hkept other (List.mem_cons_of_mem _ hother)

theorem Accepts.run {calls : List StorageCall} (h : Accepts host files content found)
    (helsewhere : ∀ call ∈ calls, Elsewhere root found.targetPath call) :
    Accepts host (run host root files calls) content found := by
  induction calls generalizing files with
  | nil => exact h
  | cons call calls ih =>
    exact ih (h.perform (helsewhere call List.mem_cons_self)) fun other hother ↦
      helsewhere other (List.mem_cons_of_mem _ hother)

/-- **Stored content** is described and immutable, whatever is cut off. -/
theorem run_stored {made : ArtifactDescriptor} {before during : List StorageCall}
    (h : (save host root source request (run host root files before)).1 = .ok made) :
    ∃ found content, place root request.destinationPath = .ok found ∧
      made.sizeBytes = some (.ofNat content.length) ∧
      made.checksumSha256 = some (host.sha256 content) ∧
      (run host root files (before ++ [.save source request])).find found.targetPath =
        some (.file content) ∧
      ((∀ call ∈ during, ¬CleansUp root found.targetPath call) →
        (run host root files (before ++ .save source request :: during)).find found.targetPath =
          some (.file content)) := by
  obtain ⟨found, content, hplace, hfind, hsize, hchecksum⟩ := save_stored h
  refine ⟨found, content, hplace, hsize, hchecksum, ?_, fun hkept ↦ ?_⟩
  · rw [run_append]
    exact hfind
  · rw [run_append]
    change (run host root (save host root source request (run host root files before)).2
      during).find found.targetPath = _
    exact run_kept hfind hkept

/-- A torn copy has a checksum that the content it was made of has not. -/
theorem Torn.refuses {source : SourceFile} {request : StorageSaveRequest} {cutOff : CutOff}
    (h : Torn host root files (.interruptedSave source request cutOff)) :
    (∃ made, (save host root source request files).1 = .ok made) ∧
      ¬∃ made, (save host root source request
        (interruptedSave host root source request files cutOff)).1 = .ok made := by
  obtain ⟨source, request, n, content, found, hcall, hsource, hplace, hexpected, hclear, hnone,
    hne⟩ := h
  obtain ⟨rfl, rfl, rfl⟩ := StorageCall.interruptedSave.inj hcall
  refine ⟨save_ok_iff.mpr ⟨content, found, hsource, hplace, hexpected, hclear, fun node hnode ↦ ?_⟩,
    fun hagain ↦ ?_⟩
  · cases hnone.symm.trans hnode
  obtain ⟨content', found', hsource', hplace', -, haccepts⟩ := save_ok_iff.mp hagain
  obtain rfl := Option.some.inj (hsource.symm.trans hsource')
  obtain rfl := Except.ok.inj (hplace.symm.trans hplace')
  have hdirs := @find_target_createDirectories root _ files found hplace _ (List.prefix_refl _)
  have hinspect : inspect host request (files.createDirectories found.targetPath.dropLast)
      content found = .ok none := inspect_eq_ok.mpr ⟨hexpected, hdirs.trans hnone, by simp⟩
  have hfind : (interruptedSave host root source request files (.copying n)).find found.targetPath =
      some (.file (content.take n)) := by
    rw [interruptedSave, prepare_eq_ok.mpr ⟨hsource, hplace, hclear⟩]
    dsimp only
    rw [hinspect]
    dsimp only
    rw [FileTree.find_create, hdirs, hnone, if_pos rfl]
    rfl
  obtain ⟨stored, hstored, hsame⟩ := haccepts.same _ hfind
  rw [← (FileTree.Node.file.inj hstored)] at hsame
  exact hne hsame.symm

/-- **Saves are sound** over a sequence of calls exactly when none of them is torn: cut off, in its
state, while its target holds bytes with another checksum than the source. -/
theorem stored_iff (host : StorageHost) (root : Directory) (files : StoredFiles)
    (calls : List StorageCall) :
    Sound host root files calls ↔
      ∀ before call, before ++ [call] <+: calls →
        ¬Torn host root (run host root files before) call := by
  constructor
  · intro h before call hcalls htorn
    obtain ⟨source, request, n, content, found, rfl, -⟩ := id htorn
    obtain ⟨hbefore, hafter⟩ := htorn.refuses
    have hretry := h.retryable before source request (.copying n) [] source request hcalls
      (fun _ _ call hcall ↦ absurd hcall List.not_mem_nil) rfl rfl hbefore
    rw [run_append] at hretry
    exact hafter hretry
  · intro h
    refine ⟨fun before source request made during _ hmade ↦ run_stored hmade, ?_⟩
    intro before source request cutOff during retried again hcalls helsewhere hcontent huri hmade
    obtain ⟨content, found, hretried, hplace, hexpected, haccepts⟩ := save_ok_iff.mp hmade
    have hsource := hcontent.symm.trans hretried
    have hfound := place_eq_of_uri huri.symm hplace
    refine save_ok_iff.mpr ⟨content, found, hretried, hplace, hexpected, ?_⟩
    rw [run_append]
    exact (haccepts.interruptedSave hsource hfound (h before _ hcalls)).run
      (helsewhere found hfound)

end Calls

/-! ### A torn copy -/

/-- A storage whose checksum is the content itself. -/
def plainHost : StorageHost where
  sha256 octets := .ofList (octets.map fun octet ↦ Char.ofNat octet.toNat)
  nameUUIDFromBytes := List.length

def storageRoot : Directory := ⟨["storage"], by decide⟩

def reportSource : SourceFile := ⟨"/work/report.txt", some [104, 105]⟩

def reportRequest : StorageSaveRequest where
  destinationPath := "reports/report.txt".toList
  artifactType := none
  name := "report.txt"
  contentType := "text/plain"
  metadata := []
  expectedChecksumSha256 := none

/-- A save that is cut off after one of two bytes makes every later one fail. -/
theorem not_sound_torn :
    ¬Sound plainHost storageRoot []
      [.interruptedSave reportSource reportRequest (.copying 1)] := by
  have hplace : place storageRoot reportRequest.destinationPath =
      .ok ⟨"reports/report.txt".toList, "storage://reports/report.txt".toList,
        ["storage", "reports", "report.txt"]⟩ := by
    decide +kernel
  have htorn : Torn plainHost storageRoot []
      (.interruptedSave reportSource reportRequest (.copying 1)) :=
    ⟨reportSource, reportRequest, 1, [104, 105], _, rfl, rfl, hplace,
      fun checksum hchecksum ↦ (by cases hchecksum), by decide, by decide, by decide⟩
  intro h
  obtain ⟨hbefore, hafter⟩ := htorn.refuses
  have hretry := h.retryable [] reportSource reportRequest (.copying 1) [] reportSource
    reportRequest (List.prefix_refl _) (by simp) rfl rfl hbefore
  rw [List.nil_append, run, List.foldl_cons, List.foldl_nil, StorageCall.perform] at hretry
  exact hafter hretry

end LocalFilesystemStorageBackend

end FuzzingCiCd.Executor
