/-
  HashArchive.Proofs.Archive.Rewrite

  Writing an archive that has been read back.  The copy has the outline of the archive that
  was written, and its lazy sources give the records as they stand in the bytes, so under the
  same settings it is written to the same bytes (`write_read`).
-/
import Mathlib
import HashArchive.Proofs.Archive.Outline
import HashArchive.Proofs.Archive.RoundTrip

namespace HashArchive

/-! ## Outlines of mirrors -/

/-- The copies differ from the files only in their contents. -/
def Copying.KeepsOutlines (copying : Copying) : Prop :=
  ∀ location entry, (copying location entry).outline = entry.outline

theorem Copying.KeepsOutlines.map_outline {copying : Copying} (h : copying.KeepsOutlines)
    (location : Location) (entries : List Entry) :
    (entries.map (copying location)).map Entry.outline = entries.map Entry.outline := by
  rw [List.map_map]
  exact List.map_congr_left fun entry _ => h location entry

/-- Forests that hold the same directories in the same order have one outline. -/
theorem Forest.Mirrors.map_outline {copying : Copying} {above : Location}
    {forest mirror : Forest Directory} (h : Mirrors copying above forest mirror)
    (hkeeps : copying.KeepsOutlines) (hordered : forest.Ordered) (hordered' : mirror.Ordered) :
    mirror.map Directory.outline = forest.map Directory.outline := by
  induction forest generalizing above mirror with
  | nil =>
    cases mirror with
    | nil => rfl
    | cons other below' rest' => exact absurd (h.mem_names_iff.mp List.mem_cons_self) (by simp)
  | cons directory below rest ihBelow ihRest =>
    cases mirror with
    | nil => exact absurd (h.mem_names_iff.mpr List.mem_cons_self) (by simp)
    | cons other below' rest' =>
      obtain ⟨h₁, h₂, h₃⟩ := hordered
      obtain ⟨h₁', h₂', h₃'⟩ := hordered'
      have hname := h.name_eq h₃ h₃'
      have hlabel : other.outline = directory.outline := by
        rw [Directory.outline, h.files_eq hname, hkeeps.map_outline, hname]
        rfl
      rw [map, map, hlabel, ihBelow (h.inside hname) h₁ h₁',
        ihRest (h.later hname h₃ h₃') h₂ h₂']

namespace Archive

/-- A mirror with the archive's name has its outline. -/
theorem Mirrors.outline_root {copying : Copying} {archive mirror : Archive}
    (h : archive.Mirrors copying mirror) (hkeeps : copying.KeepsOutlines)
    (hname : mirror.name = archive.name) (hformed : archive.WellFormed)
    (hformed' : mirror.WellFormed) : mirror.root.outline = archive.root.outline := by
  have hbelow : mirror.root.below.map Directory.outline
      = archive.root.below.map Directory.outline :=
    h.below.map_outline hkeeps hformed.ordered hformed'.ordered
  have hlabel : mirror.root.label.outline = archive.root.label.outline := by
    rw [Directory.outline, h.files_root, hkeeps.map_outline]
    exact congrArg (fun name => (⟨0, name, _⟩ : Directory)) hname
  rw [Tree.outline, hbelow, hlabel, Tree.outline]

/-! ## The main statement -/

section

variable {archive copy : Archive} {streams opened : Streams} {deflate : Bytes → Bytes}
  {bytes : Bytes} {kept : List Kept} {stream : StreamId}

theorem keepsOutlines_readBack (origin : Origin) (plan : Index.Plan) :
    Copying.KeepsOutlines (readBack origin plan) := fun _ _ => rfl

/-- Under the same settings the files of the copy have the records that were written. -/
theorem map_fileRecord_of_mirrors (h : archive.WellFormed) (hcopy : copy.WellFormed)
    (hportable : archive.Portable) (hlossless : Deflate.Lossless deflate)
    (hwritten : archive.Written streams deflate bytes kept) (hfits : bytes.length < 2 ^ 63)
    (hmirrors : archive.Mirrors (readBack (archive.originOf stream) (archive.planOf kept)) copy)
    (hpolicy : copy.policy = archive.policy) (hopened : (opened stream).bytes = bytes) :
    (copy.files.map fun file => copy.fileRecord opened file deflate)
      = archive.files.map fun file => archive.fileRecord streams file deflate := by
  have hpairs := hmirrors.forall₂_files h hcopy fun _ _ _ => rfl
  refine map_eq_of_forall₂ ?_ ((List.forall₂_and_left _ _).mpr ⟨fun file hmem => hmem, hpairs⟩)
  rintro file copied ⟨hmem, -, hentry⟩
  obtain ⟨header, data, hform, hreads⟩ :=
    exists_stored_of_copied h hportable hlossless hwritten hfits hmem hentry
  -- The header that was written says what the settings say, so under the same settings the
  -- stored bytes are passed on as they are.
  obtain ⟨hheader, hstored⟩ := hreads opened hopened
  obtain ⟨-, hcompressed, hsize⟩ := content_of_storedForm hlossless hform
  have hname : copied.entry.name = file.entry.name := by rw [hentry]; rfl
  rw [fileRecord, fileRecord, hform, hname, hpolicy,
    storedForm_of_stored hheader hstored hcompressed hsize]

end

/-- A portable archive that has been written and read back is written to the same bytes again,
    once it has the same settings and as long as the stream holds those bytes. -/
theorem write_read {archive : Archive} {streams : Streams} {deflate : Bytes → Bytes}
    {bytes : Bytes} (h : Reachable archive) (hportable : archive.Portable)
    (hlossless : Deflate.Lossless deflate) (hwrite : archive.write streams deflate = .ok bytes)
    (hfits : bytes.length < 2 ^ 63) (stream : StreamId) :
    ∃ copy, read stream bytes = .ok copy ∧
      ∀ opened : Streams, (opened stream).bytes = bytes →
        ({ copy with policy := archive.policy } : Archive).write opened deflate = .ok bytes := by
  obtain ⟨kept, payload, hkeep, hpayload, rfl⟩ := (write_eq_ok_iff h.wellFormed).mp hwrite
  have hformed := h.wellFormed
  have hwritten := written_of_keep hformed payload hkeep
  obtain ⟨copy, hrun, hname, hmirrors⟩ :=
    exists_mirror_of_written hformed hportable hlossless hpayload hwritten hfits stream
  refine ⟨copy, hrun, fun opened hopened => ?_⟩
  set again : Archive := { copy with policy := archive.policy } with hagain
  have hagainFormed : again.WellFormed := (Reachable.setPolicy (.read hrun) _).wellFormed
  have hagainMirrors :
      archive.Mirrors (readBack (archive.originOf stream) (archive.planOf kept)) again := hmirrors
  have houtline : again.root.outline = archive.root.outline :=
    hagainMirrors.outline_root (keepsOutlines_readBack _ _) hname hformed hagainFormed
  have hrecords := map_fileRecord_of_mirrors hformed hagainFormed hportable hlossless hwritten
    hfits hagainMirrors rfl hopened
  rw [write_eq_of_outline_eq hformed hagainFormed houtline hrecords, hwrite]

/-- Writing, reading and writing again gives the same bytes for an archive with a file that is
    packed and one that is not. -/
theorem write_read_branched :
    ∃ bytes copy, branched.write noStreams = .ok bytes ∧ read 0 bytes = .ok copy ∧
      ({ copy with policy := branched.policy } : Archive).write (fun _ => { bytes })
        = .ok bytes := by
  obtain ⟨bytes, hwrite, hfits⟩ := exists_write_branched
  obtain ⟨copy, hread, hagain⟩ := write_read reachable_branched portable_branched
    Deflate.lossless_store hwrite hfits 0
  exact ⟨bytes, copy, hwrite, hread, hagain _ rfl⟩

end Archive

end HashArchive
