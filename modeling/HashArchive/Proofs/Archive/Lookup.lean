/-
  HashArchive.Proofs.Archive.Lookup

  Files by their paths.  A file path leads to a directory and ends in a name there (`Leads`);
  finding, removing and adding a file are described by what is in that directory before and
  after, and all other directories stay as they are (`files_agree`).
-/
import Mathlib
import HashArchive.Proofs.Archive.Finding
import HashArchive.Proofs.Directory.Named

namespace HashArchive.Archive

/-! ## Where file paths lead -/

/-- The steps of a file path lead to a directory, and the last one is a name. -/
def Leads (archive : Archive) (start : DirectoryId) (path : String) (place : Place)
    (name : String) : Prop :=
  ∃ first segments, archive.place? start = some first ∧
    Path.file? path = some (segments, name) ∧
    archive.walk? first.location segments = some place.location ∧ place ∈ archive.places

section Leads

variable {archive : Archive} {start : DirectoryId} {path name : String} {place : Place}
  {file : StoredFile}

theorem Leads.plain (h : archive.Leads start path place name) : Path.Plain name := by
  obtain ⟨first, segments, -, hfile, -, -⟩ := h
  exact Path.plain_of_file? hfile

theorem Leads.mem_places (h : archive.Leads start path place name) : place ∈ archive.places := by
  obtain ⟨first, segments, -, -, -, hmem⟩ := h
  exact hmem

theorem Leads.sound (h : archive.Leads start path place name) (hformed : archive.WellFormed) :
    place.tree.label.Sound := hformed.sound _ (label_mem_of_mem_places h.mem_places)

/-- A file path leads to one place only. -/
theorem Leads.unique (h : archive.Leads start path place name) (hformed : archive.WellFormed)
    {other : Place} {last : String} (hother : archive.Leads start path other last) :
    place = other ∧ name = last := by
  obtain ⟨first, segments, hfirst, hfile, hwalk, hmem⟩ := h
  obtain ⟨first', segments', hfirst', hfile', hwalk', hmem'⟩ := hother
  obtain rfl := Option.some.inj (hfirst.symm.trans hfirst')
  obtain ⟨rfl, rfl⟩ := Prod.mk.inj (Option.some.inj (hfile.symm.trans hfile'))
  have hlocation := Option.some.inj (hwalk.symm.trans hwalk')
  obtain ⟨location, tree⟩ := place
  obtain ⟨other, tree'⟩ := other
  obtain rfl : location = other := hlocation
  rw [mem_places_iff hformed] at hmem hmem'
  obtain rfl := Option.some.inj (hmem.symm.trans hmem')
  exact ⟨rfl, rfl⟩

/-- A plain name behind a directory's path leads to that directory. -/
theorem leads_append_iff {separator : Char} (hseparator : Path.isSeparator separator = true)
    (h : archive.WellFormed) (hname : Path.Plain name) :
    archive.Leads start (path ++ String.singleton separator ++ name) place name ↔
      archive.findDirectory? start path = some place := by
  have hfile : Path.file? (path ++ String.singleton separator ++ name)
      = some (Path.segments path, name) := by
    rw [Path.file?, Path.segments_append hseparator, Path.segments_of_plain hname,
      List.getLast?_concat, List.dropLast_concat]
  constructor
  · rintro ⟨first, segments, hfirst, hfile', hwalk, hmem⟩
    obtain ⟨rfl, -⟩ := Prod.mk.inj (Option.some.inj (hfile.symm.trans hfile'))
    rw [findDirectory?_of_place? hfirst, hwalk, Option.bind_some, (mem_places_iff h).mp hmem]
    rfl
  · intro hfound
    cases hfirst : archive.place? start with
    | none =>
      rw [(inert_of_place?_eq_none hfirst).findDirectory] at hfound
      cases hfound
    | some first =>
      have hmem := ((place?_eq_some_iff h).mp (place?_of_findDirectory? h hfound)).1
      rw [findDirectory?_of_place? hfirst, Option.bind_eq_some_iff] at hfound
      obtain ⟨last, hwalk, hfound⟩ := hfound
      obtain ⟨tree, -, rfl⟩ := Option.map_eq_some_iff.mp hfound
      exact ⟨first, Path.segments path, hfirst, hfile, hwalk, hmem⟩

theorem locate?_eq_some_iff (h : archive.WellFormed) {address : FileAddress} :
    archive.locate? start path = some address ↔
      ∃ place name entry, archive.Leads start path place name ∧
        place.tree.label.fileNamed? name = some entry ∧
        address = ⟨place.location, entry.key⟩ := by
  simp only [locate?, Option.bind_eq_bind, Option.bind_eq_some_iff, Option.pure_def,
    Option.some.injEq, Prod.exists]
  constructor
  · rintro ⟨segments, name, hfile, first, hfirst, location, hwalk, tree, htree, entry, hentry, rfl⟩
    exact ⟨⟨location, tree⟩, name, entry,
      ⟨first, segments, hfirst, hfile, hwalk, (mem_places_iff h).mpr htree⟩, hentry, rfl⟩
  · rintro ⟨place, name, entry, ⟨first, segments, hfirst, hfile, hwalk, hmem⟩, hentry, rfl⟩
    exact ⟨segments, name, hfile, first, hfirst, place.location, hwalk, place.tree,
      (mem_places_iff h).mp hmem, entry, hentry, rfl⟩

/-- A file is found in the directory that its path leads to. -/
theorem findFile?_eq_some_iff (h : archive.WellFormed) :
    archive.findFile? start path = some file ↔
      ∃ name, archive.Leads start path file.place name ∧
        file.place.tree.label.fileNamed? name = some file.entry := by
  have hstored : ∀ {place name entry}, archive.Leads start path place name →
      place.tree.label.fileNamed? name = some entry →
      archive.file? ⟨place.location, entry.key⟩ = some ⟨place, entry⟩ := by
    intro place name entry hleads hentry
    have hchosen := (Directory.fileNamed?_eq_some_iff (hleads.sound h) hleads.plain).mp hentry
    exact (file?_eq_some_iff h hleads.mem_places).mpr ⟨hchosen.mem, rfl⟩
  rw [findFile?, Option.bind_eq_bind, Option.bind_eq_some_iff]
  constructor
  · rintro ⟨address, hlocate, hfile⟩
    obtain ⟨place, name, entry, hleads, hentry, rfl⟩ := (locate?_eq_some_iff h).mp hlocate
    rw [hstored hleads hentry, Option.some.injEq] at hfile
    obtain rfl := hfile
    exact ⟨name, hleads, hentry⟩
  · rintro ⟨name, hleads, hentry⟩
    exact ⟨_, (locate?_eq_some_iff h).mpr ⟨_, name, _, hleads, hentry, rfl⟩,
      hstored hleads hentry⟩

/-- The place that is looked for is the address of the file that is found. -/
theorem locate?_eq_map (h : archive.WellFormed) (start : DirectoryId) (path : String) :
    archive.locate? start path = (archive.findFile? start path).map StoredFile.address := by
  ext address
  rw [locate?_eq_some_iff h, Option.map_eq_some_iff]
  constructor
  · rintro ⟨place, name, entry, hleads, hentry, rfl⟩
    exact ⟨⟨place, entry⟩, (findFile?_eq_some_iff h).mpr ⟨name, hleads, hentry⟩, rfl⟩
  · rintro ⟨file, hfile, rfl⟩
    obtain ⟨name, hleads, hentry⟩ := (findFile?_eq_some_iff h).mp hfile
    exact ⟨file.place, name, file.entry, hleads, hentry, rfl⟩

theorem isSome_findFile?_iff (h : archive.WellFormed)
    (hleads : archive.Leads start path place name) :
    (archive.findFile? start path).isSome ↔
      ∃ entry ∈ place.tree.label.files, entry.name = name := by
  rw [← Directory.isSome_fileNamed?_iff (hleads.sound h) hleads.plain]
  constructor
  · intro hsome
    obtain ⟨file, hfile⟩ := Option.isSome_iff_exists.mp hsome
    obtain ⟨last, hleads', hentry⟩ := (findFile?_eq_some_iff h).mp hfile
    obtain ⟨rfl, rfl⟩ := hleads.unique h hleads'
    exact Option.isSome_of_eq_some hentry
  · intro hsome
    obtain ⟨entry, hentry⟩ := Option.isSome_iff_exists.mp hsome
    have hfile : archive.findFile? start path = some ⟨place, entry⟩ :=
      (findFile?_eq_some_iff h).mpr ⟨name, hleads, hentry⟩
    exact Option.isSome_of_eq_some hfile

theorem chosen_of_findFile? (h : archive.WellFormed) (hleads : archive.Leads start path place name)
    (hfile : archive.findFile? start path = some file) :
    file.place = place ∧ Entry.Chosen place.tree.label.files name file.entry := by
  obtain ⟨last, hleads', hentry⟩ := (findFile?_eq_some_iff h).mp hfile
  obtain ⟨rfl, rfl⟩ := hleads'.unique h hleads
  exact ⟨rfl, (Directory.fileNamed?_eq_some_iff (hleads'.sound h) hleads'.plain).mp hentry⟩

theorem exists_leads_of_findFile? (h : archive.WellFormed)
    (hfile : archive.findFile? start path = some file) :
    ∃ name, archive.Leads start path file.place name := by
  obtain ⟨name, hleads, -⟩ := (findFile?_eq_some_iff h).mp hfile
  exact ⟨name, hleads⟩

end Leads

/-! ## Removing files -/

/-- A file of the archive is gone, and everything else is as it was. -/
structure Lacks (archive after : Archive) (file : StoredFile) : Prop where
  mem : file ∈ archive.files
  view?_eq : ∀ id, after.view? id = (archive.view? id).map fun view =>
    if id = file.place.id then { view with files := view.files.filter (· ≠ file.entry) } else view
  nextId_eq : after.nextId = archive.nextId
  policy_eq : after.policy = archive.policy

section Removing

variable {archive : Archive} {start : DirectoryId} {path : String} {file : StoredFile}

theorem mem_files_of_findFile? (h : archive.WellFormed)
    (hfile : archive.findFile? start path = some file) : file ∈ archive.files := by
  obtain ⟨name, hleads⟩ := exists_leads_of_findFile? h hfile
  exact mem_files_iff.mpr ⟨hleads.mem_places, (chosen_of_findFile? h hleads hfile).2.mem⟩

/-- A file is removed by its key, which no other file of the directory has. -/
theorem lacks_changeFiles (h : archive.WellFormed) (hmem : file ∈ archive.files)
    (hformed : (archive.changeFiles file.place.location
      (·.filter (·.key != file.entry.key))).WellFormed) :
    Lacks archive
      (archive.changeFiles file.place.location (·.filter (·.key != file.entry.key))) file := by
  obtain ⟨hplace, hentry⟩ := mem_files_iff.mp hmem
  have htop := idAt_of_mem_places h hplace
  have hsound := h.sound _ (label_mem_of_mem_places hplace)
  have hfilter : (archive.held file.place.location).filter (·.key != file.entry.key)
      = (archive.held file.place.location).filter (· ≠ file.entry) := by
    rw [held_of_mem_places h hplace]
    refine List.filter_congr fun other hother => ?_
    have hsame : other.key = file.entry.key ↔ other = file.entry :=
      ⟨fun hkey => hsound.ascending.eq_of_key_eq hother hentry hkey, congrArg Entry.key⟩
    rw [bne, beq_eq_decide, decide_not, decide_eq_decide.mpr hsame]
  refine ⟨hmem, fun id => ?_, rfl, rfl⟩
  rw [view?_changeFiles h hformed htop]
  refine Option.map_congr fun view hview => ?_
  by_cases hid : id = file.place.id
  · rw [hid, view?_of_idAt h htop] at hview
    obtain rfl := Option.some.inj hview
    rw [if_pos hid, if_pos hid]
    exact congrArg (fun files => { archive.viewAt file.place.location with files }) hfilter
  · rw [if_neg hid, if_neg hid]

theorem removeFile_eq (h : archive.WellFormed) (start : DirectoryId) (path : String) :
    archive.removeFile start path = match archive.findFile? start path with
      | none => (archive, false)
      | some file =>
        (archive.changeFiles file.place.location (·.filter (·.key != file.entry.key)), true) := by
  rw [removeFile, locate?_eq_map h]
  cases archive.findFile? start path with
  | none => rfl
  | some file => rfl

/-- The file that is found is the one that is removed. -/
theorem lacks_removeFile (h : archive.WellFormed)
    (hfile : archive.findFile? start path = some file) :
    Lacks archive (archive.removeFile start path).1 file := by
  have hformed := (evolves_removeFile archive start path).wellFormed h
  rw [removeFile_eq h, hfile] at hformed ⊢
  exact lacks_changeFiles h (mem_files_of_findFile? h hfile) hformed

end Removing

/-! ## Adding files -/

/-- The files of the directory with a number, none where there is no such directory. -/
def heldBy (archive : Archive) (id : DirectoryId) : List Entry :=
  ((archive.view? id).map (·.files)).getD []

/-- A file has come to those of the directory that its path leads to, in place of the one that
    had its key, and all other files are as they were. -/
structure Receives (archive after : Archive) (start : DirectoryId) (path : String)
    (file : StoredFile) : Prop where
  leads : after.Leads start path file.place file.entry.name
  key_eq : file.entry.key =
    if archive.policy.keepDuplicates then
      after.directoryPath file.place.location ++ "/" ++ file.entry.name
    else file.entry.name
  stored : after.file? file.address = some file
  mem_heldBy_iff : ∀ id other, other ∈ after.heldBy id ↔
    id = file.place.id ∧ other = file.entry ∨
      other ∈ archive.heldBy id ∧ ¬ (id = file.place.id ∧ other.key = file.entry.key)
  found : archive.policy.keepDuplicates = false → after.findFile? start path = some file

section Adding

variable {archive after : Archive} {location : Location} {start id : DirectoryId}
  {path name : String} {source : Source} {address : FileAddress}

theorem heldBy_of_idAt (h : archive.WellFormed) (hid : archive.idAt location = some id) :
    archive.heldBy id = archive.held location := by
  rw [heldBy, view?_of_idAt h hid]
  rfl

/-- A number that is new held no files before. -/
theorem heldBy_of_extends (h : archive.WellFormed) (hafter : after.WellFormed)
    (hextends : Extends archive after) (hid : after.idAt location = some id) :
    archive.heldBy id = archive.held location := by
  by_cases hlive : archive.Live location
  · exact heldBy_of_idAt h ((hextends.ids location hlive).symm.trans hid)
  · have hnone : archive.view? id = none := by
      rw [view?_eq_none_iff h]
      intro other hother
      have hlive' := live_of_idAt hother
      have hother' := (hextends.ids other hlive').trans hother
      exact hlive (eq_of_idAt_eq hafter hother' hid ▸ hlive')
    rw [heldBy, hnone, held, filesAt_of_not_live hlive]
    rfl

theorem heldBy_eq_nil (h : archive.WellFormed)
    (hnone : ∀ location, archive.idAt location ≠ some id) : archive.heldBy id = [] := by
  rw [heldBy, (view?_eq_none_iff h).mpr hnone]
  rfl

/-- One directory holds one file more, and its number says which one it is. -/
theorem mem_heldBy_iff_of_extends (h : archive.WellFormed) (hafter : after.WellFormed)
    (hextends : Extends archive after) (hid : after.idAt location = some id) {entry : Entry}
    (hheld : ∀ other, after.held other
      = if other = location then entry.put (archive.held location) else archive.held other)
    (number : DirectoryId) (other : Entry) :
    other ∈ after.heldBy number ↔ number = id ∧ other = entry ∨
      other ∈ archive.heldBy number ∧ ¬ (number = id ∧ other.key = entry.key) := by
  by_cases hthere : ∃ there, after.idAt there = some number
  · obtain ⟨there, hnumber⟩ := hthere
    rw [heldBy_of_idAt hafter hnumber, heldBy_of_extends h hafter hextends hnumber, hheld]
    have hsame : there = location ↔ number = id := by
      constructor
      · rintro rfl
        exact Option.some.inj (hnumber.symm.trans hid)
      · rintro rfl
        exact eq_of_idAt_eq hafter hnumber hid
    by_cases heq : there = location
    · rw [if_pos heq, heq, Entry.mem_put (ascending_held h location)]
      simp [hsame.mp heq]
    · have hne : number ≠ id := fun heq' => heq (hsame.mpr heq')
      rw [if_neg heq]
      simp [hne]
  · -- A number that is of no directory now was of none before.
    rw [not_exists] at hthere
    have hnone : ∀ there, archive.idAt there ≠ some number := fun there hnumber =>
      hthere there ((hextends.ids there (live_of_idAt hnumber)).trans hnumber)
    have hne : number ≠ id := fun heq => hthere location (heq ▸ hid)
    simp [heldBy_eq_nil hafter hthere, heldBy_eq_nil h hnone, hne]

/-- A path that ends in a name takes a file from every directory. -/
theorem isOk_addFile_iff : (archive.addFile start path source).isOk ↔
    (archive.place? start).isSome ∧ (Path.file? path).isSome := by
  rw [addFile]
  cases Path.file? path with
  | none => exact iff_of_false Bool.false_ne_true fun hboth => Bool.false_ne_true hboth.2
  | some file =>
    cases archive.place? start with
    | none => exact iff_of_false Bool.false_ne_true fun hboth => Bool.false_ne_true hboth.1
    | some first => exact iff_of_true rfl ⟨rfl, rfl⟩

theorem addFile_eq_ok_iff :
    archive.addFile start path source = .ok (after, address) ↔
      ∃ first segments name, archive.place? start = some first ∧
        Path.file? path = some (segments, name) ∧
        archive.putFileAt first.location segments name source = (after, address) := by
  rw [addFile]
  cases hfile : Path.file? path with
  | none => simp
  | some file =>
    obtain ⟨segments, name⟩ := file
    cases hfirst : archive.place? start with
    | none => simp
    | some first => simp

theorem putFileAt_snd (hlive : archive.Live location) {segments : List Segment}
    (hplain : ∀ name, .name name ∈ segments → Path.Plain name) (name : String) (source : Source) :
    (archive.putFileAt location segments name source).2
      = ⟨segments.foldl Segment.next location,
          archive.keyIn (segments.foldl Segment.next location) name⟩ := by
  have hrun : (archive.putFileAt location segments name source).2
      = ⟨(archive.enterAll location segments).2, (archive.enterAll location segments).1.keyIn
          (archive.enterAll location segments).2 name⟩ := rfl
  rw [hrun, (grows_enterAll segments hlive hplain).1.keyIn_eq, enterAll_snd]

theorem receives_of_addFile (h : archive.WellFormed)
    (hrun : archive.addFile start path source = .ok (after, address)) :
    ∃ file, Receives archive after start path file ∧ file.entry.source = source ∧
      address = file.address := by
  have hafter : after.WellFormed := (evolves_addFile h hrun).wellFormed h
  obtain ⟨first, segments, name, hfirst, hfile, hput⟩ := addFile_eq_ok_iff.mp hrun
  have hplain : ∀ other, .name other ∈ segments → Path.Plain other :=
    fun _ => Path.plain_above_of_file? hfile
  have hstart := idAt_of_place? h hfirst
  have hlive := live_of_idAt hstart
  set last := segments.foldl Segment.next first.location with hlast
  set entry := archive.added last name source with hentry
  have hextends := extends_putFileAt hlive hplain name source
  have hthere := live_putFileAt hlive hplain name source
  have hheld := held_putFileAt hlive hplain name source
  have haddress := putFileAt_snd hlive hplain name source
  rw [hput] at hextends hthere hheld haddress
  -- The walk ends in a directory, which the path leads to from then on.
  obtain ⟨id, hid⟩ := exists_idAt_of_live
    ((hthere last).mpr (Or.inl (foldl_mem_passed first.location segments)))
  obtain ⟨tree, hplace⟩ := exists_place?_of_idAt hafter hid
  obtain ⟨hmem, hplaceId⟩ := (place?_eq_some_iff hafter).mp hplace
  obtain ⟨tree', hfirst'⟩ := exists_place?_of_idAt hafter
    ((hextends.ids first.location hlive).trans hstart)
  have hleads : after.Leads start path ⟨last, tree⟩ name :=
    ⟨_, segments, hfirst', hfile, (walk?_eq_some_iff (hextends.live hlive)).mpr
      ⟨rfl, fun other hpassed => (hthere other).mpr (Or.inl hpassed)⟩, hmem⟩
  have hfiles : entry ∈ tree.label.files := by
    have htree := held_of_mem_places hafter hmem
    dsimp only at htree
    rw [← htree, hheld, if_pos rfl, Entry.mem_put (ascending_held h last)]
    exact Or.inl rfl
  refine ⟨⟨⟨last, tree⟩, entry⟩, ⟨hleads, ?_, ?_, ?_, fun hkeep => ?_⟩, rfl, haddress⟩
  · have hpath : after.directoryPath last = archive.directoryPath last := by
      rw [directoryPath, directoryPath, hextends.name_eq]
    rw [hpath]
    rfl
  · exact (file?_eq_some_iff hafter hmem).mpr ⟨hfiles, rfl⟩
  · exact mem_heldBy_iff_of_extends h hafter hextends (hplaceId ▸ hid) hheld
  · -- No other file there has the key, and the key is the name.
    have hkey : entry.key = name := by
      rw [hentry, added, keyIn, hkeep]
      rfl
    have hsound := hleads.sound hafter
    refine (findFile?_eq_some_iff hafter).mpr ⟨name, hleads,
      (Directory.fileNamed?_eq_some_iff hsound hleads.plain).mpr ⟨hfiles, rfl, ?_, ?_⟩⟩
    · exact fun other hother hother' =>
        hsound.ascending.eq_of_key_eq hfiles hother (hkey.trans hother'.symm)
    · exact fun hnone => absurd hkey (hnone entry hfiles)

end Adding

/-! ## The main statement -/

/-- What files of an archive are found, removed and added by paths. -/
structure FilesAgree (archive : Archive) : Prop where
  /-- A key is the name of its file or ends in it behind a slash, and it has no slash in the
      first case only. -/
  keyed : ∀ file ∈ archive.files,
    (file.entry.key = file.entry.name ∨ ∃ above, file.entry.key = above ++ "/" ++ file.entry.name) ∧
      ('/' ∉ file.entry.key.toList ↔ file.entry.key = file.entry.name)
  /-- A path leads to a file just if there is one of the name in the directory, and it is the
      one with the name for its key, or else the one of the name with the least key. -/
  found : ∀ {start path place name}, archive.Leads start path place name →
    ((archive.findFile? start path).isSome ↔ ∃ entry ∈ place.tree.label.files, entry.name = name) ∧
      ∀ file, archive.findFile? start path = some file →
        file.place = place ∧ Entry.Chosen place.tree.label.files name file.entry
  missed : ∀ {start path}, (∀ place name, ¬ archive.Leads start path place name) →
    archive.findFile? start path = none
  /-- The file that is found is the one that is removed, and nothing else is. -/
  removed : ∀ start path,
    (archive.removeFile start path).2 = (archive.findFile? start path).isSome ∧
      (archive.findFile? start path = none → (archive.removeFile start path).1 = archive) ∧
      ∀ file, archive.findFile? start path = some file →
        Lacks archive (archive.removeFile start path).1 file
  /-- A path that ends in a name takes a file from every directory. -/
  accepted : ∀ start path source, (archive.addFile start path source).isOk ↔
    (archive.place? start).isSome ∧ (Path.file? path).isSome
  added : ∀ {start path source after address},
    archive.addFile start path source = .ok (after, address) →
      ∃ file, Receives archive after start path file ∧ file.entry.source = source ∧
        address = file.address

/-- Whatever keys the files of an archive have, finding, removing and adding a file agree on
    which one a path leads to. -/
theorem files_agree {archive : Archive} (h : Reachable archive) : archive.FilesAgree where
  keyed := by
    intro file hmem
    obtain ⟨hplace, hentry⟩ := mem_files_iff.mp hmem
    have hsound := (h.wellFormed.sound _ (label_mem_of_mem_places hplace)).entries _ hentry
    exact ⟨hsound.keyed, hsound.slash_notMem_key_iff⟩
  found := by
    intro start path place name hleads
    exact ⟨isSome_findFile?_iff h.wellFormed hleads,
      fun file => chosen_of_findFile? h.wellFormed hleads⟩
  missed := by
    intro start path hastray
    rw [← Option.not_isSome_iff_eq_none, Option.isSome_iff_exists]
    rintro ⟨file, hfile⟩
    obtain ⟨name, hleads⟩ := exists_leads_of_findFile? h.wellFormed hfile
    exact hastray _ name hleads
  removed := by
    intro start path
    refine ⟨?_, ?_, fun file => lacks_removeFile h.wellFormed⟩
    · rw [removeFile_eq h.wellFormed]
      cases archive.findFile? start path with
      | none => rfl
      | some file => rfl
    · intro hnone
      rw [removeFile_eq h.wellFormed, hnone]
  accepted := fun _ _ _ => isOk_addFile_iff
  added := receives_of_addFile h.wellFormed

/-- A file that was added to the root with duplicates kept. -/
def unpaired : Archive where
  root := ⟨{ id := rootId, name := "r", files := [⟨"x", "r/x", .ofBytes [1]⟩] }, .nil⟩
  policy := { keepDuplicates := true }

/-- The same with a second file, which was added after the settings had changed. -/
def paired : Archive where
  root := ⟨{ id := rootId, name := "r",
             files := [⟨"x", "r/x", .ofBytes [1]⟩, ⟨"x", "x", .ofBytes [2]⟩] }, .nil⟩

/-- The file that has the name for its key is found first, and the other one when it is gone. -/
theorem files_agree_paired :
    Reachable paired ∧ paired.FilesAgree ∧ paired.Leads rootId "./x" ⟨[], paired.root⟩ "x" ∧
      ∃ file, paired.findFile? rootId "./x" = some file ∧ file.entry.key = "x" ∧
        Entry.Chosen paired.root.label.files "x" file.entry ∧
        Lacks paired (paired.removeFile rootId "./x").1 file ∧
        ((paired.removeFile rootId "./x").1.findFile? rootId "x").map (·.entry.key)
          = some "r/x" := by
  have hfirst : ({ new "r" with policy := { keepDuplicates := true } } : Archive).addFile rootId "x"
      (.ofBytes [1]) = .ok (unpaired, ⟨[], "r/x"⟩) := by rfl
  have hsecond : ({ unpaired with policy := {} } : Archive).addFile rootId "x" (.ofBytes [2])
      = .ok (paired, ⟨[], "x"⟩) := by decide +kernel
  have hreachable : Reachable paired :=
    .addFile (.setPolicy (.addFile (.setPolicy (.new "r") _) hfirst) {}) hsecond
  have hagree := files_agree hreachable
  have hplain : Path.Plain "x" := ⟨by decide, by decide, by decide, by simp [Path.isSeparator]⟩
  have hdirectory : paired.findDirectory? rootId "." = some ⟨[], paired.root⟩ := by decide +kernel
  have hslash : Path.isSeparator '/' = true := rfl
  have hleads := (leads_append_iff hslash hreachable.wellFormed hplain).mpr hdirectory
  have hpath : "." ++ String.singleton '/' ++ "x" = "./x" := by rfl
  rw [hpath] at hleads
  have hkey : (paired.findFile? rootId "./x").map (·.entry.key) = some "x" := by decide +kernel
  obtain ⟨file, hfile, hkey⟩ := Option.map_eq_some_iff.mp hkey
  exact ⟨hreachable, hagree, hleads, file, hfile, hkey, ((hagree.found hleads).2 file hfile).2,
    (hagree.removed rootId "./x").2.2 file hfile, by decide +kernel⟩

end HashArchive.Archive
