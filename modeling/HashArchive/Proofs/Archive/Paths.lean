/-
  HashArchive.Proofs.Archive.Paths

  The paths of directories and files as texts, read back.  The names are found on the way up
  from a directory and joined with slashes; they are plain, so the text falls apart into the
  same names, which lead down to the directory again (`walk?_names_of_live`).
-/
import Mathlib
import HashArchive.Proofs.Archive.Lookup

namespace HashArchive.Archive

variable {archive : Archive} {place : Place} {location : Location}

/-- The names of a location lead to it from the root. -/
theorem walk?_names_of_live (hlive : archive.Live location) :
    archive.walk? [] (location.map .name) = some location := by
  -- A directory is entered last, after those above it, so the last name is taken off.
  induction location using List.reverseRecOn with
  | nil => rfl
  | append_singleton above name ih =>
    have habove := live_dropLast hlive
    rw [List.dropLast_concat] at habove
    have hstep : archive.step? above (.name name) = some (above ++ [name]) :=
      (step?_eq_some_iff habove).mpr ⟨rfl, hlive⟩
    rw [List.map_append, walk?_append, ih habove, Option.bind_some, List.map_singleton, walk?,
      List.foldlM_cons, hstep]
    rfl

/-- A path whose steps are the names of a directory leads to it from the root. -/
theorem findDirectory?_of_segments (h : archive.WellFormed) (hmem : place ∈ archive.places)
    {path : String} (hpath : Path.segments path = place.location.map .name) :
    archive.findDirectory? rootId path = some place := by
  rw [findDirectory?_of_place? (place?_rootId h), hpath,
    walk?_names_of_live (live_of_mem_places h hmem), Option.bind_some, (mem_places_iff h).mp hmem]
  rfl

/-- The path of a directory is the root's own name, whatever that is, and then the names that lead
    down. -/
theorem exists_directoryPath_eq (archive : Archive)
    (hplain : ∀ name ∈ location, Path.Plain name) :
    ∃ rest, archive.directoryPath location = archive.name ++ rest ∧
      Path.segments rest = location.map .name := by
  by_cases hroot : location = []
  · refine ⟨"", ?_, ?_⟩
    · rw [directoryPath, hroot, String.intercalate_singleton, String.append_empty]
    · rw [hroot]
      rfl
  · refine ⟨"" ++ String.singleton '/' ++ "/".intercalate location, ?_, ?_⟩
    · rw [directoryPath, String.intercalate_cons_of_ne_nil hroot, String.append_assoc]
      rfl
    · rw [Path.segments_append rfl, Path.segments_intercalate hplain]
      rfl

/-- The path of a file leads to its directory and its name. -/
theorem leads_relativePath (h : archive.WellFormed) {file : StoredFile}
    (hmem : file ∈ archive.files) :
    archive.Leads rootId file.relativePath file.place file.entry.name := by
  obtain ⟨hplace, -⟩ := mem_files_iff.mp hmem
  have hplain : ∀ name ∈ file.place.location ++ [file.entry.name], Path.Plain name := by
    intro name hname
    rcases List.mem_append.mp hname with hname | hname
    · exact plain_of_mem_location h hplace hname
    · rw [List.mem_singleton.mp hname]
      exact plain_name_of_mem_files h hmem
  exact ⟨_, _, place?_rootId h, Path.file?_intercalate hplain,
    walk?_names_of_live (live_of_mem_places h hplace), hplace⟩

/-! ## The main statement -/

/-- The loop up from a directory finds the names of its path, and behind the root's name the path
    leads to the directory again, in as many steps as it is deep; so no two directories have one
    path.  The path of a file leads to a file of its name in its directory, which is the same file
    if it is keyed by its name. -/
theorem paths_lead_back (h : Reachable archive) :
    (∀ id place, archive.place? id = some place →
      archive.Climbs id place.location ∧
      ∃ rest, archive.directoryPath place.location = archive.name ++ rest ∧
        Path.segments rest = place.location.map .name ∧
        (Path.segments rest).length = place.depth ∧
        archive.findDirectory? rootId rest = some place ∧
        archive.findDirectory? rootId ("/".intercalate place.location) = some place) ∧
    (∀ place ∈ archive.places, ∀ other ∈ archive.places,
      archive.directoryPath place.location = archive.directoryPath other.location →
        place = other) ∧
    ∀ file ∈ archive.files, ∃ found, archive.findFile? rootId file.relativePath = some found ∧
      found.place = file.place ∧ found.entry.name = file.entry.name ∧
      (file.entry.key = file.entry.name → found = file) := by
  have hformed := h.wellFormed
  have hplain : ∀ {place}, place ∈ archive.places → ∀ name ∈ place.location, Path.Plain name :=
    fun hmem _ => plain_of_mem_location hformed hmem
  refine ⟨fun id place hplace => ?_, fun place hmem other hother hsame => ?_, fun file hmem => ?_⟩
  · obtain ⟨hmem, rfl⟩ := (place?_eq_some_iff hformed).mp hplace
    obtain ⟨rest, hpath, hsegments⟩ := exists_directoryPath_eq archive (hplain hmem)
    refine ⟨climbs_of_mem_places hformed hmem, rest, hpath, hsegments, ?_,
      findDirectory?_of_segments hformed hmem hsegments,
      findDirectory?_of_segments hformed hmem (Path.segments_intercalate (hplain hmem))⟩
    rw [hsegments, List.length_map]
    rfl
  · obtain ⟨rest, hpath, hsegments⟩ := exists_directoryPath_eq archive (hplain hmem)
    obtain ⟨rest', hpath', hsegments'⟩ := exists_directoryPath_eq archive (hplain hother)
    rw [hpath, hpath', String.append_right_inj] at hsame
    have hfound := findDirectory?_of_segments hformed hmem hsegments
    rw [hsame, findDirectory?_of_segments hformed hother hsegments'] at hfound
    exact (Option.some.inj hfound).symm
  · have hleads := leads_relativePath hformed hmem
    obtain ⟨hplace, hentry⟩ := mem_files_iff.mp hmem
    obtain ⟨found, hfound⟩ := Option.isSome_iff_exists.mp
      ((isSome_findFile?_iff hformed hleads).mpr ⟨file.entry, hentry, rfl⟩)
    obtain ⟨hsame, hchosen⟩ := chosen_of_findFile? hformed hleads hfound
    refine ⟨found, hfound, hsame, hchosen.name_eq, fun hkey => ?_⟩
    obtain ⟨place, entry⟩ := found
    obtain rfl : place = file.place := hsame
    obtain rfl : entry = file.entry := hchosen.keyed file.entry hentry hkey
    rfl

/-- A file that is keyed by its whole location, below a root whose name looks like a path. -/
def shadowed : Archive where
  root := ⟨{ id := rootId, name := "a/..\\b" },
    .cons { id := 1, name := "sub", files := [⟨"x", "a/..\\b/sub/x", .ofBytes [1]⟩] } .nil .nil⟩
  nextId := 2
  policy := { keepDuplicates := true }

/-- The same with a second file of that name, which was added after the settings had changed. -/
def shadowing : Archive where
  root := ⟨{ id := rootId, name := "a/..\\b" },
    .cons { id := 1, name := "sub",
            files := [⟨"x", "a/..\\b/sub/x", .ofBytes [1]⟩, ⟨"x", "x", .ofBytes [2]⟩] } .nil .nil⟩
  nextId := 2

/-- What is in the root's name is not read back, and the path of two files leads to the one that
    has its name for a key. -/
theorem paths_lead_back_shadowing :
    Reachable shadowing ∧
    (∃ place rest, shadowing.place? 1 = some place ∧
      shadowing.directoryPath place.location = "a/..\\b" ++ rest ∧
      (Path.segments rest).length = 1 ∧ shadowing.findDirectory? rootId rest = some place) ∧
    ∃ file ∈ shadowing.files, file.entry.key = "a/..\\b/sub/x" ∧
      ∃ found, shadowing.findFile? rootId file.relativePath = some found ∧
        found.place = file.place ∧ found.entry.name = "x" ∧ found ≠ file := by
  have hfirst : ({ new "a/..\\b" with policy := { keepDuplicates := true } } : Archive).addFile
      rootId "sub/x" (.ofBytes [1]) = .ok (shadowed, ⟨["sub"], "a/..\\b/sub/x"⟩) := by
    decide +kernel
  have hsecond : ({ shadowed with policy := {} } : Archive).addFile rootId "sub/x" (.ofBytes [2])
      = .ok (shadowing, ⟨["sub"], "x"⟩) := by decide +kernel
  have hreachable : Reachable shadowing :=
    .addFile (.setPolicy (.addFile (.setPolicy (.new "a/..\\b") _) hfirst) {}) hsecond
  obtain ⟨hdirectories, -, hfiles⟩ := paths_lead_back hreachable
  have hplace : (shadowing.place? 1).any (fun place => place.depth = 1) = true := by decide +kernel
  obtain ⟨place, hplace, hdepth⟩ := (Option.any_eq_true _ _).mp hplace
  obtain ⟨-, rest, hpath, -, hlength, hrest, -⟩ := hdirectories 1 place hplace
  have hkeys : shadowing.files.any (fun file => file.entry.key = "a/..\\b/sub/x" ∧
      file.entry.name = "x" ∧ shadowing.findFile? rootId file.relativePath ≠ some file) = true := by
    decide +kernel
  obtain ⟨file, hmem, hkey⟩ := List.any_eq_true.mp hkeys
  obtain ⟨hkey, hname, hother⟩ := of_decide_eq_true hkey
  obtain ⟨found, hfound, hsame, hfoundName, -⟩ := hfiles file hmem
  refine ⟨hreachable, ⟨place, rest, hplace, hpath, ?_, hrest⟩, file, hmem, hkey, found, hfound,
    hsame, hfoundName.trans hname, ?_⟩
  · rw [hlength, of_decide_eq_true hdepth]
  · rintro rfl
    exact hother hfound

end HashArchive.Archive
