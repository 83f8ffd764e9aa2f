/-
  HashArchive.Proofs.Arena.Pruning

  What the removal of a directory takes away, after any run of operations: just the directory
  and all that its links lead down to, with the one link to it from the directory above
  (`removeDirectory_prunes`).
-/
import Mathlib
import HashArchive.Proofs.Arena.Linked

namespace HashArchive.Arena

variable {ι : Type} [Handle ι]

/-- A directory is removed if the path leads to one and it is not the root.  The removal always
    comes to an end; the directory goes with all directories below it and their files, no
    directory is left that the root does not lead to, and only the directory above shows that it
    is gone.  If none is removed, nothing changes. -/
theorem removeDirectory_prunes {next : ι → Option ι} (hnext : Handle.Lawful next) {arena : Arena ι}
    (h : Reachable next arena) (start : ι) (path : String) :
    ∃ removed after, run (removeDirectory start path) arena = some (.ok removed, after) ∧
      (removed = true ↔ ∃ id, arena.findDirectory? start path = some id ∧
        (arena.directories[id]?).isSome ∧ id ≠ Handle.root) ∧
      (∀ id, arena.findDirectory? start path = some id → id ≠ Handle.root →
        Pruned arena after id ∧ after.Linked) ∧
      (removed = false → after = arena) := by
  obtain ⟨archive, -, harena⟩ := exists_represents hnext h
  by_cases hother : ∃ id, arena.findDirectory? start path = some id ∧ id ≠ Handle.root
  · obtain ⟨id, hfound, hne⟩ := hother
    obtain ⟨after, hrun, hpruned⟩ := run_removeDirectory_of_ne harena hfound hne
    obtain ⟨place, -, hid⟩ := harena.idAt_of_findDirectory? hfound
    obtain ⟨node, hnode, -⟩ := harena.exists_node hid
    -- What is left represents a tree, so no directory of it is out of the root's reach.
    have hlinked : after.Linked := by
      obtain ⟨final, hrun', hfinal⟩ := run_removeDirectory harena start path
      obtain ⟨-, rfl⟩ := Prod.mk.inj (Option.some.inj (hrun'.symm.trans hrun))
      exact linked_of_represents hfinal
    refine ⟨true, after, hrun, ?_, ?_, nofun⟩
    · exact iff_of_true rfl ⟨id, hfound, Option.isSome_of_eq_some hnode, hne⟩
    · intro other hother _
      obtain rfl := Option.some.inj (hfound.symm.trans hother)
      exact ⟨hpruned, hlinked⟩
  · have hroot : ∀ id, arena.findDirectory? start path = some id → id = Handle.root :=
      fun id hfound => not_not.mp fun hne => hother ⟨id, hfound, hne⟩
    refine ⟨false, arena, run_removeDirectory_of_eq harena hroot, ?_, ?_, fun _ => rfl⟩
    · refine iff_of_false Bool.false_ne_true ?_
      rintro ⟨id, hfound, -, hne⟩
      exact hne (hroot id hfound)
    · exact fun id hfound hne => absurd (hroot id hfound) hne

/-- A new arena with a directory and two in it. -/
def widened : Arena UInt32 where
  directories := (∅ : Std.ExtTreeMap UInt32 (Node UInt32))
    |>.insert 0 (Node.link "a" 1 { name := "root", parent? := none })
    |>.insert 1 (Node.link "c" 3 (Node.link "b" 2 { name := "a", parent? := some 0 }))
    |>.insert 2 { name := "b", parent? := some 1 }
    |>.insert 3 { name := "c", parent? := some 1 }
  nextId := 4

/-- The directory above goes with the one that the path starts at and with the one beside it. -/
theorem removeDirectory_prunes_widened :
    Reachable Handle.checked widened ∧ widened.findDirectory? 3 "..\\b/.." = some 1 ∧
      ∃ after, run (removeDirectory 3 "..\\b/..") widened = some (.ok true, after) ∧
        Pruned widened after 1 ∧ after.directories[(2 : UInt32)]? = none ∧
        after.directories[(3 : UInt32)]? = none := by
  have hnested : run (ensureDirectory Handle.checked Handle.root "a/b") (new "root")
      = some (.ok 2, nested) := by decide +kernel
  have hwidened : run (ensureDirectory Handle.checked 2 "../c") nested = some (.ok 3, widened) := by
    decide +kernel
  have hreachable : Reachable Handle.checked widened :=
    .ensureDirectory (.ensureDirectory (.new "root") hnested nofun) hwidened nofun
  have hfound : widened.findDirectory? 3 "..\\b/.." = some 1 := by decide +kernel
  obtain ⟨removed, after, hrun, hremoved, hpruned, -⟩ :=
    removeDirectory_prunes Handle.lawful_checked hreachable 3 "..\\b/.."
  obtain rfl : removed = true := hremoved.mpr ⟨1, hfound, by decide +kernel, by decide⟩
  have hprunes := (hpruned 1 hfound (by decide)).1
  have hgone : ∀ (name : String) {id : UInt32},
      (widened.directories[(1 : UInt32)]?).bind (·.subdirectories[name]?) = some id →
      after.directories[id]? = none := by
    intro name id hlink
    obtain ⟨node, hnode, hchild⟩ := Option.bind_eq_some_iff.mp hlink
    rw [← Option.not_isSome_iff_eq_none, hprunes.ids]
    exact fun hthere => hthere.2 (.single ⟨node, name, hnode, hchild⟩)
  have hbeside : after.directories[(2 : UInt32)]? = none := hgone "b" (by decide +kernel)
  have hstart : after.directories[(3 : UInt32)]? = none := hgone "c" (by decide +kernel)
  exact ⟨hreachable, hfound, after, hrun, hprunes, hbeside, hstart⟩

end HashArchive.Arena
