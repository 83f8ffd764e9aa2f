/-
  HashArchive.Proofs.Arena.Reachable

  The arenas that any run of operations can leave, as long as there are numbers for the
  directories that they add.  Each of them represents an archive that the same operations leave
  (`exists_represents`).
-/
import Mathlib
import HashArchive.Proofs.Arena.Merging
import HashArchive.Proofs.Arena.Reading
import HashArchive.Proofs.Arena.Removing

namespace HashArchive.Arena

variable {ι : Type} [Handle ι] {next : ι → Option ι} {arena : Arena ι}

/-- Arenas that are new or read, and what operations make of them.  An operation that fails with
    an error may have changed the arena.  One that traps because a directory is gone has not, and
    one for which there are no more numbers is none of these. -/
inductive Reachable (next : ι → Option ι) : Arena ι → Prop
  | new (name : String) : Reachable next (new name)
  | read {stream : StreamId} {bytes : Bytes} {arena : Arena ι}
      (run : read next stream bytes = pure arena) : Reachable next arena
  | setName {arena after : Arena ι} {answer : Except Halt Unit} {name : String}
      (before : Reachable next arena) (ends : run (setName name) arena = some (answer, after)) :
      Reachable next after
  | setPolicy {arena : Arena ι} (before : Reachable next arena) (policy : Policy) :
      Reachable next { arena with policy }
  | setSource {arena : Arena ι} (before : Reachable next arena) (id : ι) (key : String)
      (source : Source) : Reachable next (arena.updateSource id key fun _ => source)
  -- Reads of files, in a merge, a write or by themselves, change what lazy sources keep.
  | settle {arena : Arena ι} (before : Reachable next arena) (id : ι) (key : String)
      (streams : Streams) : Reachable next (arena.updateSource id key (·.settled streams))
  | ensureDirectory {arena after : Arena ι} {answer : Except Halt ι} {start : ι} {path : String}
      (before : Reachable next arena)
      (ends : run (ensureDirectory next start path) arena = some (answer, after))
      (goes : answer ≠ .error .trap) : Reachable next after
  | addFile {arena after : Arena ι} {answer : Except Halt (File ι)} {start : ι} {path : String}
      {source : Source} (before : Reachable next arena)
      (ends : run (addFile next start path source) arena = some (answer, after))
      (goes : answer ≠ .error .trap) : Reachable next after
  | copyFile {arena after : Arena ι} {answer : Except Halt (File ι)} {source target : String}
      (before : Reachable next arena)
      (ends : run (copyFile next source target) arena = some (answer, after))
      (goes : answer ≠ .error .trap) : Reachable next after
  | removeFile {arena after : Arena ι} {answer : Except Halt Bool} {start : ι} {path : String}
      (before : Reachable next arena)
      (ends : run (removeFile start path) arena = some (answer, after)) : Reachable next after
  | removeDirectory {arena after : Arena ι} {answer : Except Halt Bool} {start : ι} {path : String}
      (before : Reachable next arena)
      (ends : run (removeDirectory start path) arena = some (answer, after)) : Reachable next after
  | merge {arena source after : Arena ι} {answer : Except Halt Unit} {streams : Streams}
      {keepDuplicates : Bool} (before : Reachable next arena) (other : Reachable next source)
      (ends : run (mergeFrom next source streams keepDuplicates) arena = some (answer, after))
      (goes : answer ≠ .error .trap) : Reachable next after

/-- Every arena that can be reached represents an archive that can be. -/
theorem exists_represents (hnext : Handle.Lawful next) (h : Reachable next arena) :
    ∃ archive, Archive.Reachable archive ∧ arena.Represents archive := by
  induction h with
  | new name => exact ⟨_, .new name, represents_new name⟩
  | read run =>
    obtain ⟨archive, hread, harena⟩ := represents_of_read hnext run
    exact ⟨archive, .read hread, harena⟩
  | @setName _ after _ name _ ends ih =>
    obtain ⟨archive, hreachable, hbefore⟩ := ih
    obtain ⟨final, hrun, hfinal⟩ := run_setName hbefore name
    obtain ⟨-, rfl⟩ := Prod.mk.inj (Option.some.inj (hrun.symm.trans ends))
    exact ⟨_, hreachable.setName name, hfinal⟩
  | setPolicy _ policy ih =>
    obtain ⟨archive, hreachable, hbefore⟩ := ih
    exact ⟨_, hreachable.setPolicy policy, hbefore.setPolicy policy⟩
  | setSource _ id key source ih =>
    obtain ⟨archive, hreachable, hbefore⟩ := ih
    rcases hbefore.exists_updateSource id key fun _ => source with hafter | ⟨location, -, hafter⟩
    · exact ⟨archive, hreachable, hafter⟩
    · exact ⟨_, hreachable.setSource ⟨location, key⟩ source, hafter⟩
  | settle _ id key streams ih =>
    obtain ⟨archive, hreachable, hbefore⟩ := ih
    rcases hbefore.exists_updateSource id key (·.settled streams) with
      hafter | ⟨location, -, hafter⟩
    · exact ⟨archive, hreachable, hafter⟩
    · -- Of the file that is read only its address counts.
      have hsettled := hreachable.settle streams
        [⟨⟨location, archive.root⟩, { name := key, key, source := .ofBytes [] }⟩]
      exact ⟨_, hsettled, hafter⟩
  | ensureDirectory _ ends goes ih =>
    obtain ⟨archive, hreachable, hbefore⟩ := ih
    rcases (ends_ensureDirectory hnext hbefore _ _).of_run ends goes with
      ⟨last, -, after, hrun, hafter⟩ | ⟨_, -, hfalse⟩
    · exact ⟨after, hreachable.ensureDirectory hrun, hafter⟩
    · exact hfalse.elim
  | addFile _ ends goes ih =>
    obtain ⟨archive, hreachable, hbefore⟩ := ih
    rcases (ends_addFile hnext hbefore _ _ _).of_run ends goes with
      ⟨file, -, after, address, hrun, hafter, -⟩ | ⟨error, -, -, rfl⟩
    · exact ⟨after, hreachable.addFile hrun, hafter⟩
    · -- What failed has changed nothing.
      exact ⟨archive, hreachable, hbefore⟩
  | copyFile _ ends goes ih =>
    obtain ⟨archive, hreachable, hbefore⟩ := ih
    rcases (ends_copyFile hnext hbefore _ _).of_run ends goes with
      ⟨file, -, after, address, hrun, hafter, -⟩ | ⟨error, -, -, rfl⟩
    · exact ⟨after, hreachable.copyFile hrun, hafter⟩
    · exact ⟨archive, hreachable, hbefore⟩
  | @removeFile _ after _ start path _ ends ih =>
    obtain ⟨archive, hreachable, hbefore⟩ := ih
    obtain ⟨final, hrun, hfinal⟩ := run_removeFile hbefore start path
    obtain ⟨-, rfl⟩ := Prod.mk.inj (Option.some.inj (hrun.symm.trans ends))
    exact ⟨_, hreachable.removeFile _ path, hfinal⟩
  | @removeDirectory _ after _ start path _ ends ih =>
    obtain ⟨archive, hreachable, hbefore⟩ := ih
    obtain ⟨final, hrun, hfinal⟩ := run_removeDirectory hbefore start path
    obtain ⟨-, rfl⟩ := Prod.mk.inj (Option.some.inj (hrun.symm.trans ends))
    exact ⟨_, hreachable.removeDirectory _ path, hfinal⟩
  | merge _ _ ends goes ih ihSource =>
    obtain ⟨archive, hreachable, hbefore⟩ := ih
    obtain ⟨source, hsource, hother⟩ := ihSource
    -- A merge that stopped has changed the arena just as it has the archive.
    rcases (ends_mergeFrom hnext hbefore hother _ _).of_run ends goes with
      ⟨_, -, -, hafter⟩ | ⟨error, -, -, hafter⟩
    · exact ⟨_, hreachable.merge hsource _ _, hafter⟩
    · exact ⟨_, hreachable.merge hsource _ _, hafter⟩

end HashArchive.Arena
