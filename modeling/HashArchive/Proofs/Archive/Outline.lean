/-
  HashArchive.Proofs.Archive.Outline

  What the bytes of an archive are made of: the records of its files, and its directories and
  files without their numbers and contents (`Tree.outline`).  Archives that agree in both are
  written alike (`write_eq_of_outline_eq`).
-/
import Mathlib
import HashArchive.Proofs.Archive.Written

namespace HashArchive

/-! ## Outlines -/

/-- The file without its content. -/
def Entry.outline (entry : Entry) : Entry := { entry with source := .ofBytes [] }

/-- The directory without its number, with its files without their contents. -/
def Directory.outline (directory : Directory) : Directory where
  id := 0
  name := directory.name
  files := directory.files.map Entry.outline

/-- The tree with only the outlines of its directories. -/
def Tree.outline (tree : Tree Directory) : Tree Directory :=
  ⟨tree.label.outline, tree.below.map Directory.outline⟩

/-- The place with only the outlines of its directories. -/
def Place.outline (place : Place) : Place := ⟨place.location, place.tree.outline⟩

/-- The file without its content, at the outline of its place. -/
def StoredFile.outline (file : StoredFile) : StoredFile :=
  ⟨file.place.outline, file.entry.outline⟩

/-- The archive with only the outlines of its directories, and without settings. -/
def Archive.outline (archive : Archive) : Archive := { root := archive.root.outline }

/-- Files are listed by what their outlines hold. -/
theorem Directory.listing_outline (directory : Directory) :
    directory.outline.listing = directory.listing.map Entry.outline :=
  Sorted.sort_map Entry.outline Entry.before directory.files

theorem Forest.places_map_outline (forest : Forest Directory) (above : Location) :
    (forest.map Directory.outline).places above = (forest.places above).map Place.outline := by
  induction forest generalizing above with
  | nil => rfl
  | cons directory below rest ihBelow ihRest =>
    rw [map, places, places, List.map_cons, List.map_append, ← ihBelow, ← ihRest]
    rfl

/-! ## Indexes -/

namespace Index.Plan

variable (plan : Plan)

theorem entriesAt_outline (location : Location) (directory : Directory) :
    plan.entriesAt location directory.outline = plan.entriesAt location directory := by
  rw [entriesAt, Directory.listing_outline, List.map_map]
  rfl

theorem record_outline (location : Location) (ancestors : List UInt64) (directory : Directory)
    (below : Forest IndexRecord) :
    plan.record location ancestors directory.outline below
      = plan.record location ancestors directory below := by
  have hlength : directory.outline.files.length = directory.files.length := List.length_map ..
  rw [record, entriesAt_outline, hlength]
  rfl

theorem forest_map_outline (above : Location) (ancestors : List UInt64)
    (forest : Forest Directory) :
    plan.forest above ancestors (forest.map Directory.outline)
      = plan.forest above ancestors forest := by
  induction forest generalizing above ancestors with
  | nil => rfl
  | cons directory below rest ihBelow ihRest =>
    rw [Forest.map, Plan.forest, Plan.forest, ihRest, ihBelow, record_outline]
    rfl

/-- An index is built from the outlines of the directories. -/
theorem index_outline (root : Tree Directory) : plan.index root.outline = plan.index root := by
  rw [index, subtree, Tree.outline]
  dsimp only
  rw [forest_map_outline, record_outline]
  rfl

end Index.Plan

/-! ## Archives -/

namespace Archive

theorem places_outline (archive : Archive) :
    archive.outline.places = archive.places.map Place.outline := by
  rw [places, places, List.map_cons, ← Forest.places_map_outline]
  rfl

theorem files_outline (archive : Archive) :
    archive.outline.files = archive.files.map StoredFile.outline := by
  rw [files, files, places_outline, List.flatMap_map, List.map_flatMap]
  congr 1
  funext place
  rw [List.map_map]
  show place.tree.label.outline.listing.map _ = _
  rw [Directory.listing_outline, List.map_map]
  rfl

theorem names_outline (archive : Archive) : archive.outline.names = archive.names := by
  rw [names, names, files_outline, places_outline, List.map_map, ← List.map_tail, List.map_map]
  rfl

theorem map_fileKey_outline (archive : Archive) :
    archive.outline.files.map archive.outline.fileKey = archive.files.map archive.fileKey := by
  rw [files_outline, List.map_map]
  rfl

section Writing

variable {archive other : Archive} {streams opened : Streams} {deflate : Bytes → Bytes}

/-- The data region and the offsets of the files of a list are made from the first file on. -/
theorem map_keep_cons (start : Nat) (file : StoredFile) (files : List StoredFile) :
    ((archive.keep streams deflate start (file :: files)).map fun kept =>
        (dataOf kept, archive.offsetsOf kept))
      = (archive.fileRecord streams file deflate).bind fun record =>
          ((archive.keep streams deflate (start + record.length) files).map fun kept =>
            (dataOf kept, archive.offsetsOf kept)).map fun rest =>
              (record ++ rest.1, (archive.fileKey file, start) :: rest.2) := by
  rw [keep]
  cases archive.fileRecord streams file deflate with
  | error error => rfl
  | ok record =>
    rw [Outcome.ok_bind, Except.bind]
    cases archive.keep streams deflate (start + record.length) files with
    | error error => rfl
    | ok kept => rfl

/-- The data region and the offsets depend on the records of the files and on the keys of their
    places. -/
theorem keep_congr {files others : List StoredFile}
    (hrecords : (others.map fun file => other.fileRecord opened file deflate)
      = files.map fun file => archive.fileRecord streams file deflate)
    (hkeys : others.map other.fileKey = files.map archive.fileKey) (start : Nat) :
    ((other.keep opened deflate start others).map fun kept => (dataOf kept, other.offsetsOf kept))
      = (archive.keep streams deflate start files).map fun kept =>
          (dataOf kept, archive.offsetsOf kept) := by
  induction files generalizing others start with
  | nil =>
    rw [List.map_nil, List.map_eq_nil_iff] at hrecords
    simp [hrecords, keep, Except.map, dataOf, offsetsOf]
  | cons file files ih =>
    rw [List.map_cons, List.map_eq_cons_iff] at hrecords
    obtain ⟨copied, others, rfl, hrecord, hrecords⟩ := hrecords
    rw [List.map_cons, List.map_cons] at hkeys
    obtain ⟨hkey, hkeys⟩ := List.cons.inj hkeys
    rw [map_keep_cons, map_keep_cons, hrecord, hkey]
    -- The records behind begin at the same place, since this one is the same.
    have hrest := fun record : Bytes => ih hrecords hkeys (start + record.length)
    simp only [hrest]

/-- Archives with one outline are written alike when their files have the same records. -/
theorem write_eq_of_outline_eq (h : archive.WellFormed) (h' : other.WellFormed)
    (houtline : other.root.outline = archive.root.outline)
    (hrecords : (other.files.map fun file => other.fileRecord opened file deflate)
      = archive.files.map fun file => archive.fileRecord streams file deflate) :
    other.write opened deflate = archive.write streams deflate := by
  have hsame : other.outline = archive.outline := by rw [outline, houtline, outline]
  have hnames : other.names = archive.names := by
    rw [← names_outline, hsame, names_outline]
  have hkeys : other.files.map other.fileKey = archive.files.map archive.fileKey := by
    rw [← map_fileKey_outline, hsame, map_fileKey_outline]
  have hname : other.name = archive.name := congrArg (·.label.name) houtline
  have hindex : ∀ encoding offsets,
      other.nestedIndex encoding offsets = archive.nestedIndex encoding offsets := by
    intro encoding offsets
    rw [nestedIndex, nestedIndex, ← Index.Plan.index_outline, houtline, Index.Plan.index_outline,
      plan, plan, hname]
  have hpayload : other.namePayload deflate = archive.namePayload deflate := by
    rw [namePayload, namePayload, hnames]
  rw [write_eq h, write_eq h', hpayload]
  refine Outcome.bind_eq_of_map_eq (keep_congr hrecords hkeys 0) fun copied kept hkeep => ?_
  obtain ⟨hdata, hoffsets⟩ := Prod.mk.inj hkeep
  have hlayout : other.layout copied = archive.layout kept := by
    funext payload
    rw [layout, layout, hdata, hoffsets, hindex, hindex]
  rw [hlayout]

end Writing

end Archive

end HashArchive
