/-
  HashArchive.Proofs.Archive.Extraction

  Where unpacking writes.  The names in an archive are plain, wherever they come from, so the
  path of a file falls apart into one plain name for each directory and one for the file, and
  every step of unpacking is at a path below the target (`unpack_confined`).
-/
import Mathlib
import HashArchive.Proofs.Archive.Places
import HashArchive.Proofs.Archive.Reachable
import HashArchive.Proofs.Disk.Lexical

namespace HashArchive

/-- The path of a file below the root falls apart into as many plain names as there are
    directories on the way, and its own name. -/
structure StoredFile.Confined (file : StoredFile) : Prop where
  plain : ∀ part ∈ Folder.parts file.relativePath, Path.Plain part
  parts : Folder.parts file.relativePath = file.place.location ++ [file.entry.name]
  length : (Folder.parts file.relativePath).length = file.place.depth + 1

namespace Archive

variable {archive : Archive}

theorem confined_of_mem_files (h : archive.WellFormed) {file : StoredFile}
    (hmem : file ∈ archive.files) : file.Confined := by
  have hplain : ∀ part ∈ file.place.location ++ [file.entry.name], Path.Plain part := by
    intro part hpart
    rcases List.mem_append.mp hpart with hpart | hpart
    · exact plain_of_mem_location h (mem_files_iff.mp hmem).1 hpart
    · rw [List.mem_singleton.mp hpart]
      exact plain_name_of_mem_files h hmem
  have hparts : Folder.parts file.relativePath = file.place.location ++ [file.entry.name] :=
    Folder.parts_intercalate (fun part hpart => (hplain part hpart).slash_notMem) (by simp)
  refine ⟨fun part hpart => hplain part (hparts ▸ hpart), hparts, ?_⟩
  rw [hparts, List.length_append]
  rfl

/-! ## The steps of unpacking -/

section Limits

variable [DiskLimits] {target : List String}

/-- Unpacking a file adds the folders on its path and writes the file. -/
theorem writesBelow_unpackFile {file : StoredFile} (h : file.Confined) (disk : Folder)
    (content : Bytes) :
    Relation.ReflTransGen (Folder.WritesBelow target) disk
      (unpackFile disk target file content).1 := by
  have hpath : ∀ part ∈ file.place.location ++ [file.entry.name], Path.Plain part :=
    h.parts ▸ h.plain
  have habove : ∀ part ∈ file.place.location, Path.Plain part := fun part hpart =>
    hpath part (List.mem_append_left _ hpart)
  set folder := Folder.under target file.place.location with hfolder
  have hensure : Folder.WritesBelow target disk (disk.ensureFolder folder).1 :=
    .ensure (Folder.leadsBelow_of_plain habove target)
  rw [unpackFile, ← hfolder]
  -- When the folders cannot be made, that is where it ends; what is there of them stays.
  rcases hmade : disk.ensureFolder folder with ⟨made, fault | _⟩
  · rw [hmade] at hensure
    exact .single hensure
  · rw [hmade] at hensure
    exact .tail (.single hensure) (.write (Folder.leadsBelow_of_plain hpath target) (by simp))

theorem writesBelow_unpackFiles {streams : Folder → Streams} {files : List StoredFile}
    (h : ∀ file ∈ files, file.Confined) (archive : Archive) (disk : Folder) :
    Relation.ReflTransGen (Folder.WritesBelow target) disk
      (unpackFiles streams target files archive disk).disk := by
  induction files generalizing archive disk with
  | nil => exact .refl
  | cons file files ih =>
    rw [unpackFiles]
    cases file.entry.source.content (streams disk) with
    | error error => exact .refl
    | ok content =>
      have hstep : Relation.ReflTransGen (Folder.WritesBelow target) disk
          (unpackFile disk target file content).1 :=
        writesBelow_unpackFile (h file List.mem_cons_self) disk content
      dsimp only
      rcases hwritten : unpackFile disk target file content with ⟨written, fault | _⟩
      · rw [hwritten] at hstep
        exact hstep
      · rw [hwritten] at hstep
        exact hstep.trans (ih (fun other hmem => h other (List.mem_cons_of_mem _ hmem)) _ _)

theorem writesBelow_unpack (h : archive.WellFormed) (streams : Folder → Streams)
    (disk : Folder) (target : List String) :
    Relation.ReflTransGen (Folder.WritesBelow target) disk
      (archive.unpack streams disk target).disk := by
  have hself : Folder.LeadsBelow target target [] := fun _ => (List.append_nil _).symm
  have hensure : Folder.WritesBelow target disk (disk.ensureFolder target).1 := .ensure hself
  rw [unpack]
  rcases hmade : disk.ensureFolder target with ⟨made, fault | _⟩
  · rw [hmade] at hensure
    exact .single hensure
  · rw [hmade] at hensure
    exact .head hensure
      (writesBelow_unpackFiles (fun _ hmem => confined_of_mem_files h hmem) archive made)

/-! ## The main statement -/

/-- Whatever an archive was made of, its names are plain, the path of each file is one plain
    name for each directory on the way and one for the file, and unpacking the archive writes
    at paths below the target only. -/
theorem unpack_confined (h : Reachable archive) :
    (∀ place ∈ archive.places, place.id ≠ rootId → Path.Plain place.name) ∧
      (∀ file ∈ archive.files, Path.Plain file.entry.name ∧ file.Confined ∧
        ∀ target, Folder.LeadsBelow target
          (Folder.under target (Folder.parts file.relativePath))
          (Folder.parts file.relativePath)) ∧
      ∀ streams disk target, Relation.ReflTransGen (Folder.WritesBelow target) disk
        (archive.unpack streams disk target).disk := by
  have hformed := h.wellFormed
  refine ⟨fun place hmem hid => plain_name_of_mem_places hformed hmem hid, ?_, ?_⟩
  · intro file hmem
    have hconfined := confined_of_mem_files hformed hmem
    exact ⟨plain_name_of_mem_files hformed hmem, hconfined,
      Folder.leadsBelow_of_plain hconfined.plain⟩
  · exact fun streams disk target => writesBelow_unpack hformed streams disk target

end Limits

attribute [local instance] DiskLimits.usual

/-- An archive to which a file has been added by a path that tries to leave it. -/
def enticed : Archive where
  root := ⟨{ id := rootId, name := "../.." },
    .cons { id := 1, name := "etc", files := [⟨"x", "x", .ofBytes [0x6F]⟩] } .nil .nil⟩
  nextId := 2

theorem reachable_enticed : Reachable enticed := by
  have hrun : (new "../..").addFile rootId "/../..\\etc\\.//x" (.ofBytes [0x6F])
      = .ok (enticed, ⟨["etc"], "x"⟩) := by rfl
  exact .addFile (.new "../..") hrun

theorem unpack_confined_enticed :
    (∀ file ∈ enticed.files, Folder.parts file.relativePath = ["etc", "x"] ∧
      Folder.lexical [] (Folder.under ["tmp", "out"] (Folder.parts file.relativePath))
        = ["tmp", "out", "etc", "x"]) ∧
      Relation.ReflTransGen (Folder.WritesBelow ["tmp", "out"]) .empty
        (enticed.unpack (fun _ => fun _ => { bytes := [] }) .empty ["tmp", "out"]).disk := by
  obtain ⟨-, hfiles, hunpack⟩ := unpack_confined reachable_enticed
  have hnames : ∀ file ∈ enticed.files, file.place.location ++ [file.entry.name] = ["etc", "x"] :=
    by decide
  refine ⟨fun file hmem => ?_, hunpack _ _ _⟩
  obtain ⟨-, hconfined, hbelow⟩ := hfiles file hmem
  have hparts := hconfined.parts.trans (hnames file hmem)
  rw [hparts] at hbelow ⊢
  exact ⟨rfl, hbelow ["tmp", "out"] []⟩

end Archive

end HashArchive
