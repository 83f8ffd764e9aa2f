/-
  HashArchive.Proofs.Archive.Indexes

  The two indexes of an archive.  They can be built whenever all files have offsets
  (`index_eq_ok_iff`), and then records follow one another in preorder and each distance in
  a directory entry leads from its record to the one it is meant for (`index_laidOut`).
-/
import Mathlib
import HashArchive.Archive.Write
import HashArchive.Proofs.Archive.Links
import HashArchive.Proofs.Index.Build

namespace HashArchive.Archive

variable {archive : Archive} {encoding : Encoding} {offsets : List (UInt64 × Nat)} {index : Index}

/-- The index by recursion on the tree of directories. -/
def nestedIndex (archive : Archive) (encoding : Encoding) (offsets : List (UInt64 × Nat)) : Index :=
  (archive.plan encoding offsets).index archive.root

theorem hasOffsets_iff :
    (∀ place ∈ archive.places, (archive.plan encoding offsets).HasOffsets place) ↔
      ∀ file ∈ archive.files, (offset? offsets (archive.fileKey file)).isSome := by
  constructor
  · intro h file hmem
    obtain ⟨hplace, hentry⟩ := mem_files_iff.mp hmem
    exact h file.place hplace file.entry hentry
  · intro h place hmem entry hentry
    exact h ⟨place, entry⟩ (mem_files_iff.mpr ⟨hmem, hentry⟩)

/-- An index is built if and only if every file has an offset, and then it is the one by
    recursion. -/
theorem index_eq_ok_iff (h : archive.WellFormed) :
    archive.index encoding offsets = .ok index ↔
      (∀ file ∈ archive.files, (offset? offsets (archive.fileKey file)).isSome) ∧
        archive.nestedIndex encoding offsets = index := by
  constructor
  · intro hindex
    have hoffsets := Index.Plan.hasOffsets_of_build hindex
    have hbuild := (archive.plan encoding offsets).build_eq h.nodup hoffsets
    exact ⟨hasOffsets_iff.mp hoffsets, Except.ok.inj (hbuild.symm.trans hindex)⟩
  · rintro ⟨hoffsets, rfl⟩
    exact (archive.plan encoding offsets).build_eq h.nodup (hasOffsets_iff.mpr hoffsets)

/-- How an index lies in its bytes: records follow one another in preorder, each is found where
    it stands and linked to those below it, and together they take what the directories of the
    archive ask for. -/
structure LaidOut (archive : Archive) (index : Index) : Prop where
  preorder : index.nodes.map Index.Node.spot = IndexRecord.placed 0 index.labels
  found : ∀ node ∈ index.nodes, node.record.encode <+: index.encode.drop node.position
  linked : ∀ node ∈ index.nodes, Index.LinkedIn index node
  length : index.encode.length = (archive.places.map Place.recordLength).sum

theorem laidOut_nestedIndex (archive : Archive) (encoding : Encoding)
    (offsets : List (UInt64 × Nat)) : archive.LaidOut (archive.nestedIndex encoding offsets) where
  preorder := Index.map_spot_nodes _
  found := by
    intro node hmem
    have hplaced : node.spot ∈
        IndexRecord.placed 0 (archive.nestedIndex encoding offsets).labels := by
      rw [← Index.map_spot_nodes]
      exact List.mem_map_of_mem hmem
    exact (IndexRecord.encode_prefix_of_mem_placed hplaced).2
  linked := fun node hmem =>
    Index.linkedIn_of_fitsRoot ((archive.plan encoding offsets).fitsRoot_index archive.root) hmem
  length := (archive.plan encoding offsets).length_encode_index archive.root

/-- Both indexes of an archive can be built when its files have offsets, and whatever those
    offsets are, the indexes are laid out so. -/
theorem index_laidOut (h : Reachable archive) (encoding : Encoding)
    (offsets : List (UInt64 × Nat)) :
    ((∃ index, archive.index encoding offsets = .ok index) ↔
        ∀ file ∈ archive.files, (offset? offsets (archive.fileKey file)).isSome) ∧
      ∀ index, archive.index encoding offsets = .ok index → archive.LaidOut index := by
  refine ⟨⟨?_, ?_⟩, ?_⟩
  · rintro ⟨index, hindex⟩
    exact ((index_eq_ok_iff h.wellFormed).mp hindex).1
  · intro hoffsets
    exact ⟨_, (index_eq_ok_iff h.wellFormed).mpr ⟨hoffsets, rfl⟩⟩
  · intro index hindex
    obtain ⟨-, rfl⟩ := (index_eq_ok_iff h.wellFormed).mp hindex
    exact laidOut_nestedIndex archive encoding offsets

/-- Two directories beside each other, with files in one of them, in a directory in the other one,
    and beside both. -/
def spread : Archive where
  root := ⟨{ id := rootId, name := "root", files := [⟨"x", "x", .ofBytes []⟩] },
    .cons { id := 2, name := "B" }
      (.cons { id := 3, name := "a", files := [⟨"y", "y", .ofBytes [1]⟩] } .nil .nil)
      (.cons { id := 1, name := "c", files := [⟨"z", "z", .ofBytes [2]⟩] } .nil .nil)⟩
  nextId := 4

theorem reachable_spread : Reachable spread := by
  have hrun : ((new "root").addFile rootId "c/z" (.ofBytes [2]) >>= fun first =>
      first.1.addFile rootId "B/a/y" (.ofBytes [1]) >>= fun second =>
        second.1.addFile rootId "x" (.ofBytes [])) = .ok (spread, ⟨[], "x"⟩) := by rfl
  obtain ⟨⟨first, _⟩, hfirst, hrun⟩ := Outcome.bind_eq_ok_iff.mp hrun
  obtain ⟨⟨second, _⟩, hsecond, hthird⟩ := Outcome.bind_eq_ok_iff.mp hrun
  exact .addFile (.addFile (.addFile (.new "root") hfirst) hsecond) hthird

/-- Siblings are laid out in the order of their keys, which is not that of their names here, and
    each with all below it. -/
theorem index_laidOut_spread :
    ∃ index, spread.index .utf16 (spread.files.map fun file => (spread.fileKey file, 7)) = .ok index ∧
      spread.LaidOut index ∧ index.totals = (4, 3) ∧
      index.nodes.map (fun node => (node.position, node.record.directories.map (·.offset)))
        = [(0, [80, 136]), (80, []), (136, [56]), (192, [])] := by
  obtain ⟨hbuilt, hlaidOut⟩ := index_laidOut reachable_spread .utf16
    (spread.files.map fun file => (spread.fileKey file, 7))
  obtain ⟨index, hindex⟩ := hbuilt.mpr (by decide +kernel)
  have hnested := ((index_eq_ok_iff reachable_spread.wellFormed).mp hindex).2
  refine ⟨index, hindex, hlaidOut index hindex, ?_, ?_⟩
  · rw [← hnested]
    decide +kernel
  · rw [← hnested]
    decide +kernel

end HashArchive.Archive
