/-
  HashArchive.Proofs.Archive.Reachable

  The archives that any run of operations can leave, whether the operations succeed or
  fail.  All of them are well formed (`Reachable.wellFormed`), since a run is a sequence
  of changes.
-/
import Mathlib
import HashArchive.Proofs.Archive.Operations

namespace HashArchive.Archive

/-- Archives that are new, packed or read, and what operations make of them.  An operation
    that fails without an archive leaves the one it was given, and a copy is the same
    archive, so neither needs a case. -/
inductive Reachable : Archive → Prop
  | new (name : String) : Reachable (new name)
  | pack [DiskLimits] {disk : Folder} {path : List String} {archive : Archive}
      (run : pack disk path = .ok archive) : Reachable archive
  | read {stream : StreamId} {bytes : Bytes} {archive : Archive}
      (run : read stream bytes = .ok archive) : Reachable archive
  | setName {archive : Archive} (before : Reachable archive) (name : String) :
      Reachable (archive.setName name)
  | setPolicy {archive : Archive} (before : Reachable archive) (policy : Policy) :
      Reachable { archive with policy }
  | ensureDirectory {archive after : Archive} {start id : DirectoryId} {path : String}
      (before : Reachable archive) (run : archive.ensureDirectory start path = .ok (after, id)) :
      Reachable after
  | addFile {archive after : Archive} {start : DirectoryId} {path : String} {source : Source}
      {address : FileAddress} (before : Reachable archive)
      (run : archive.addFile start path source = .ok (after, address)) : Reachable after
  | copyFile {archive after : Archive} {source target : String} {address : FileAddress}
      (before : Reachable archive) (run : archive.copyFile source target = .ok (after, address)) :
      Reachable after
  | removeFile {archive : Archive} (before : Reachable archive) (start : DirectoryId)
      (path : String) : Reachable (archive.removeFile start path).1
  | removeDirectory {archive : Archive} (before : Reachable archive) (start : DirectoryId)
      (path : String) : Reachable (archive.removeDirectory start path).1
  | merge {archive source : Archive} (before : Reachable archive) (other : Reachable source)
      (streams : Streams) (keepDuplicates : Bool) :
      Reachable (archive.merge source streams keepDuplicates).1
  | setSource {archive : Archive} (before : Reachable archive) (address : FileAddress)
      (source : Source) : Reachable (archive.updateSource address fun _ => source)
  -- Reads of files, in a merge, a write or by themselves, change what lazy sources keep.
  | settle {archive : Archive} (before : Reachable archive) (streams : Streams)
      (files : List StoredFile) : Reachable (archive.settle streams files)

/-- Every run of operations keeps the invariant. -/
theorem Reachable.wellFormed {archive : Archive} (h : Reachable archive) :
    archive.WellFormed := by
  induction h with
  | new name => exact wellFormed_new name
  | pack run =>
    obtain ⟨name, hevolves⟩ := evolves_pack run
    exact hevolves.wellFormed (wellFormed_new name)
  | read run =>
    obtain ⟨name, hevolves⟩ := evolves_read run
    exact hevolves.wellFormed (wellFormed_new name)
  | setName _ name ih => exact wellFormed_setName ih name
  | setPolicy _ policy ih => exact (Change.settings _ policy).evolves.wellFormed ih
  | ensureDirectory _ run ih => exact (evolves_ensureDirectory ih run).wellFormed ih
  | addFile _ run ih => exact (evolves_addFile ih run).wellFormed ih
  | copyFile _ run ih => exact (evolves_copyFile ih run).wellFormed ih
  | removeFile _ start path ih => exact (evolves_removeFile _ start path).wellFormed ih
  | removeDirectory _ start path ih => exact (evolves_removeDirectory _ start path).wellFormed ih
  | merge _ _ streams keepDuplicates ih ihSource =>
    exact (evolves_merge ihSource _ streams keepDuplicates).wellFormed ih
  | setSource _ address source ih =>
    exact (Change.updateSource _ address fun _ => source).evolves.wellFormed ih
  | settle _ streams files ih => exact (evolves_settle _ streams files).wellFormed ih

end HashArchive.Archive
