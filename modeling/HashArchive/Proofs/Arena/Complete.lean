/-
  HashArchive.Proofs.Arena.Complete

  Every archive that a run of operations leaves is represented by an arena that a run of the same
  operations leaves, where the counter always has a next number (`exists_arena_of_reachable`).
  The other way round, each arena represents such an archive as long as its counter gives numbers
  (`exists_represents`), so the two lead to the same directories and files.
-/
import Mathlib
import HashArchive.Proofs.Arena.Failures

namespace HashArchive.Arena

open Archive

/-- A run of operations leaves an arena that represents the archive. -/
def Attained (archive : Archive) : Prop :=
  ∃ arena : Arena Nat, Reachable Handle.endless arena ∧ arena.Represents archive

section Attained

variable {archive after : Archive}

/-- With room for all its directories, an operation that succeeds is performed. -/
theorem Performs.exists_run {ι α β : Type} [Handle ι] {steps : Run ι α} {arena : Arena ι} {b : β}
    {same : Archive → α → β → Prop} {room : Prop}
    (h : Performs steps arena (.ok (after, b)) same room) (hroom : room) :
    ∃ a final, run steps arena = some (.ok a, final) ∧ final.Represents after ∧ same after a b :=
  Or.resolve_right h fun hshort => hshort.1 hroom

theorem Attained.addFile (h : Attained archive) {start : DirectoryId} {path : String}
    {source : Source} {address : FileAddress}
    (hadd : archive.addFile start path source = .ok (after, address)) : Attained after := by
  obtain ⟨arena, hreachable, harena⟩ := h
  have hperforms := performs_addFile harena Handle.lawful_endless start path source
  rw [show archive.addFile (Handle.toNat start) path source = _ from hadd] at hperforms
  obtain ⟨file, final, hrun, hfinal, -⟩ := hperforms.exists_run (hasRoom_endless arena path)
  exact ⟨final, hreachable.addFile hrun (by simp), hfinal⟩

theorem Attained.copyFile (h : Attained archive) {source target : String} {address : FileAddress}
    (hcopy : archive.copyFile source target = .ok (after, address)) : Attained after := by
  obtain ⟨arena, hreachable, harena⟩ := h
  have hperforms := performs_copyFile harena Handle.lawful_endless source target
  rw [hcopy] at hperforms
  obtain ⟨file, final, hrun, hfinal, -⟩ := hperforms.exists_run (hasRoom_endless arena target)
  exact ⟨final, hreachable.copyFile hrun (by simp), hfinal⟩

theorem Attained.ensureDirectory (h : Attained archive) {start id : DirectoryId} {path : String}
    (hmake : archive.ensureDirectory start path = .ok (after, id)) : Attained after := by
  obtain ⟨arena, hreachable, harena⟩ := h
  have hperforms := performs_ensureDirectory harena Handle.lawful_endless start path
  rw [show archive.ensureDirectory (Handle.toNat start) path = _ from hmake] at hperforms
  obtain ⟨last, final, hrun, hfinal, -⟩ := hperforms.exists_run (hasRoom_endless arena path)
  exact ⟨final, hreachable.ensureDirectory hrun (by simp), hfinal⟩

/-- The source of a file is changed by a change that arenas have, too. -/
theorem Attained.updateSource {f : Source → Source}
    (hchange : ∀ {arena : Arena Nat}, Reachable Handle.endless arena → ∀ (id : Nat) (key : String),
      Reachable Handle.endless (arena.updateSource id key f))
    (h : Attained archive) (address : FileAddress) : Attained (archive.updateSource address f) := by
  obtain ⟨arena, hreachable, harena⟩ := h
  cases hid : archive.idAt address.location with
  | none =>
    -- There is no directory, so nothing is changed.
    have hmissing : ¬ archive.Live address.location := by
      rw [live_iff_idAt, hid]
      exact Bool.false_ne_true
    have hsame : archive.updateSource address f = archive := by
      rw [Archive.updateSource,
        Tree.update_of_descend?_eq_none (Option.not_isSome_iff_eq_none.mp hmissing)]
    rw [hsame]
    exact ⟨arena, hreachable, harena⟩
  | some number =>
    exact ⟨_, hchange hreachable number address.key, harena.updateSource hid address.key f⟩

theorem Attained.settle (h : Attained archive) (streams : Streams) (files : List StoredFile) :
    Attained (archive.settle streams files) := by
  induction files generalizing archive with
  | nil => exact h
  | cons file files ih =>
    refine ih (h.updateSource (fun hreachable id key => ?_) file.address)
    exact hreachable.settle id key streams

theorem Attained.packAll [DiskLimits] {path : List String} {items : List (Trail × ItemKind)}
    (h : Attained archive) (hpack : archive.packAll path items = .ok after) : Attained after := by
  rw [Archive.packAll] at hpack
  apply Outcome.foldlM_induct hpack h
  rintro ⟨trail, kind⟩ _ before next hnext hbefore
  have hstep := packItem_eq_ok_iff.mp hnext
  cases kind with
  | file data =>
    obtain ⟨-, address, hadd⟩ := hstep
    exact hbefore.addFile hadd
  | folder => exact hstep.2 ▸ hbefore
  | link target =>
    obtain rfl : before = next := hstep
    exact hbefore

theorem attained_new (name : String) : Attained (Archive.new name) :=
  ⟨new name, .new name, represents_new name⟩

end Attained

/-- Every archive that can be reached is represented by an arena that can be. -/
theorem exists_arena_of_reachable {archive : Archive} (h : Archive.Reachable archive) :
    ∃ arena : Arena Nat, Reachable Handle.endless arena ∧ arena.Represents archive := by
  change Attained archive
  induction h with
  | new name => exact attained_new name
  | pack hrun =>
    obtain ⟨name, items, hpack⟩ := exists_packAll_of_pack hrun
    exact (attained_new name).packAll hpack
  | read hread =>
    obtain ⟨arena, hrun, harena⟩ := exists_read_of_read Handle.lawful_endless hread
      (Handle.not_runsOut_endless _)
    exact ⟨arena, .read hrun, harena⟩
  | setName _ name ih =>
    obtain ⟨arena, hreachable, harena⟩ := ih
    obtain ⟨after, hrun, hafter⟩ := run_setName harena name
    exact ⟨after, hreachable.setName hrun, hafter⟩
  | setPolicy _ policy ih =>
    obtain ⟨arena, hreachable, harena⟩ := ih
    exact ⟨_, hreachable.setPolicy policy, harena.setPolicy policy⟩
  | ensureDirectory _ hmake ih => exact ih.ensureDirectory hmake
  | addFile _ hadd ih => exact ih.addFile hadd
  | copyFile _ hcopy ih => exact ih.copyFile hcopy
  | removeFile _ start path ih =>
    obtain ⟨arena, hreachable, harena⟩ := ih
    obtain ⟨after, hrun, hafter⟩ := run_removeFile harena start path
    exact ⟨after, hreachable.removeFile hrun, hafter⟩
  | removeDirectory _ start path ih =>
    obtain ⟨arena, hreachable, harena⟩ := ih
    obtain ⟨after, hrun, hafter⟩ := run_removeDirectory harena start path
    exact ⟨after, hreachable.removeDirectory hrun, hafter⟩
  | merge _ _ streams keepDuplicates ih ihSource =>
    obtain ⟨arena, hreachable, harena⟩ := ih
    obtain ⟨source, hsource, hother⟩ := ihSource
    cases ends_mergeFrom Handle.lawful_endless harena hother streams keepDuplicates with
    | answer _ after hrun hafter => exact ⟨after, hreachable.merge hsource hrun (by simp), hafter.2⟩
    | fault _ after hrun hafter => exact ⟨after, hreachable.merge hsource hrun (by simp), hafter.2⟩
    | trap _ _ hout => exact absurd hout (Handle.not_runsOut_endless _)
  | setSource _ address source ih =>
    exact ih.updateSource (fun hreachable id key => hreachable.setSource id key source) address
  | settle _ streams files ih => exact ih.settle streams files

end HashArchive.Arena
