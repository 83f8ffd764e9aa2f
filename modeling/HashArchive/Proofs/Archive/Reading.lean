/-
  HashArchive.Proofs.Archive.Reading

  What the reader makes of any index whose names it finds.  Names may be shared by siblings, as
  when their keys collide: then each entry leads to the first record with its key, so some
  records are gone to more than once and others never.  The reader succeeds all the same, and
  adds the directories and files that it goes to and no others (`readsAll_of_readable`).
-/
import Mathlib
import HashArchive.Proofs.Archive.Populate
import HashArchive.Proofs.NameTable

namespace HashArchive.Archive

/-! ## Where the reader goes -/

/-- The reader goes from an index to one of those below it, by the names of the entries on the
    way.  Each entry leads to the first record with its key. -/
inductive Visits (names : NameTable) : Index → Location → Index → Prop
  | here (index : Index) : Visits names index [] index
  | down {index child found : Index} {more : Location} {entry : IndexEntry}
      (mem : entry ∈ index.label.directories) (leads : index.child? entry.key = some child)
      (visits : Visits names child more found) :
      Visits names index (names.nameOf entry.key :: more) found

/-- The reader finds all names that it asks for, and where all entries lead. -/
inductive Readable (origin : Origin) : Index → Prop
  | mk {index : Index}
      (files : ∀ entry ∈ index.label.files,
        origin.names.Spells entry.key ∧ (positionOf? entry.offset).isSome)
      (directories : ∀ entry ∈ index.label.directories,
        origin.names.Spells entry.key ∧ (index.child? entry.key).isSome)
      (below : ∀ child ∈ index.below.trees, Readable origin child) : Readable origin index

/-- The locations of the directories that are made for an index at a location. -/
def visited (names : NameTable) (index : Index) (location : Location) : Set Location :=
  {other | ∃ more found, Visits names index more found ∧ other = location ++ more}

/-- The addresses of the files that are made for an index at a location. -/
def visitedFiles (names : NameTable) (index : Index) (location : Location) : Set FileAddress :=
  {address | ∃ more found, Visits names index more found ∧ address.location = location ++ more ∧
    ∃ entry ∈ found.label.files, address.key = names.nameOf entry.key}

/-! ## What an archive gains -/

/-- There is a file at the address. -/
def Occupied (archive : Archive) (address : FileAddress) : Prop :=
  ∃ files, archive.filesAt address.location = some files ∧ address.key ∈ files.map (·.key)

/-- An archive gets directories and files, and keeps those it has. -/
structure Gains (archive after : Archive) (locations : Set Location)
    (addresses : Set FileAddress) : Prop where
  live : ∀ location, after.Live location ↔ archive.Live location ∨ location ∈ locations
  occupied : ∀ address, after.Occupied address ↔ archive.Occupied address ∨ address ∈ addresses
  policy_eq : after.policy = archive.policy

theorem Gains.refl (archive : Archive) : Gains archive archive ∅ ∅ :=
  ⟨by simp, by simp, rfl⟩

theorem Gains.trans {a b c : Archive} {locations locations' : Set Location}
    {addresses addresses' : Set FileAddress} (hab : Gains a b locations addresses)
    (hbc : Gains b c locations' addresses') :
    Gains a c (locations ∪ locations') (addresses ∪ addresses') where
  live := fun location => by rw [hbc.live, hab.live, or_assoc, Set.mem_union]
  occupied := fun address => by rw [hbc.occupied, hab.occupied, or_assoc, Set.mem_union]
  policy_eq := hbc.policy_eq.trans hab.policy_eq

/-- A directory that is there already may be counted among the new ones. -/
theorem Gains.insert_live {a b : Archive} {locations : Set Location} {addresses : Set FileAddress}
    (h : Gains a b locations addresses) {location : Location} (hlive : a.Live location) :
    Gains a b (insert location locations) addresses where
  live := by
    intro other
    rw [h.live, Set.mem_insert_iff]
    constructor
    · exact Or.imp_right Or.inr
    · rintro (hother | rfl | hother)
      · exact Or.inl hother
      · exact Or.inl hlive
      · exact Or.inr hother
  occupied := h.occupied
  policy_eq := h.policy_eq

theorem mem_map_key_put {entry : Entry} {entries : List Entry} {key : String} :
    key ∈ (entry.put entries).map (·.key) ↔ key = entry.key ∨ key ∈ entries.map (·.key) := by
  induction entries with
  | nil => simp [Entry.put]
  | cons first rest ih =>
    rw [Entry.put]
    split
    · rw [List.map_cons, List.mem_cons, ih, List.map_cons, List.mem_cons, or_left_comm]
    · split
      · next hkey => simp [hkey]
      · simp

section Gaining

variable {archive : Archive} {location : Location}

theorem gains_putFile (hlive : archive.Live location) (entry : Entry) :
    Gains archive (archive.putFile location entry) ∅ {⟨location, entry.key⟩} where
  live := fun other => by rw [live_putFile, Set.mem_empty_iff_false, or_false]
  occupied := by
    rintro ⟨other, key⟩
    obtain ⟨files, hfiles⟩ := Option.isSome_iff_exists.mp (live_iff_filesAt.mp hlive)
    rw [Occupied, filesAt_putFile, Occupied, Set.mem_singleton_iff, FileAddress.mk.injEq]
    dsimp only
    split
    · next heq =>
      rw [heq, hfiles]
      simp only [Option.map_some, Option.some.injEq, exists_eq_left', mem_map_key_put, true_and]
      exact or_comm
    · next hne => simp [hne]
  policy_eq := rfl

theorem gains_addDirectory {name : String} (hlive : archive.Live location)
    (hmissing : ¬ archive.Live (location ++ [name])) :
    Gains archive (archive.addDirectory location name) {location ++ [name]} ∅ where
  live := fun other => by rw [live_addDirectory hlive hmissing, or_comm]; rfl
  occupied := by
    rintro ⟨other, key⟩
    have hnone := filesAt_of_not_live hmissing
    rw [Occupied, filesAt_addDirectory hlive hmissing, Occupied]
    dsimp only
    split
    · next heq => simp [heq, hnone]
    · simp
  policy_eq := rfl

theorem gains_enter {name : String} (hlive : archive.Live location) :
    Gains archive (archive.enter location (.name name)).1 {location ++ [name]} ∅ := by
  by_cases hthere : archive.Live (location ++ [name])
  · -- An earlier entry of the same name has made the directory.
    rw [enter_name_of_live hthere]
    have hgains := (Gains.refl archive).insert_live hthere
    rw [insert_empty_eq] at hgains
    exact hgains
  · rw [enter_name_of_not_live hthere]
    exact gains_addDirectory hlive hthere

end Gaining

/-! ## Files -/

section Files

variable {origin : Origin} {archive : Archive} {location : Location}

/-- The file that the reader makes of an entry. -/
def Origin.entryOf (origin : Origin) (entry : IndexEntry) : Entry where
  name := origin.names.nameOf entry.key
  key := origin.names.nameOf entry.key
  source := .deferred
    { stream := origin.stream, offset := UInt64.ofNat ((positionOf? entry.offset).getD 0) }

theorem addFile_of_spells {entry : IndexEntry} (hspells : origin.names.Spells entry.key)
    (hoffset : (positionOf? entry.offset).isSome)
    (hpolicy : archive.policy.keepDuplicates = false) :
    origin.addFile location archive entry
      = .ok (archive.putFile location (origin.entryOf entry)) := by
  obtain ⟨position, hposition⟩ := Option.isSome_iff_exists.mp hoffset
  rw [Origin.addFile, hspells.resolve, Outcome.ok_bind, hposition]
  dsimp only
  rw [Path.file?_of_plain hspells.plain]
  dsimp only
  simp only [putFileAt, enterAll, List.foldl_nil, hpolicy, Bool.false_eq_true, if_false]
  rw [Origin.entryOf, hposition]
  rfl

/-- The reader adds a file for each entry, all of them to one directory. -/
theorem exists_gains_addFiles {entries : List IndexEntry}
    (h : ∀ entry ∈ entries, origin.names.Spells entry.key ∧ (positionOf? entry.offset).isSome)
    (hpolicy : archive.policy.keepDuplicates = false) (hlive : archive.Live location) :
    ∃ after, origin.addFiles location archive entries = .ok after ∧
      Gains archive after ∅
        {address | address.location = location ∧
          ∃ entry ∈ entries, address.key = origin.names.nameOf entry.key} := by
  rw [Origin.addFiles]
  -- Each entry starts from what the ones before it left, so the archive varies.
  induction entries generalizing archive with
  | nil => exact ⟨archive, rfl, by simpa using Gains.refl archive⟩
  | cons entry entries ih =>
    obtain ⟨hspells, hoffset⟩ := h entry List.mem_cons_self
    have hput := gains_putFile hlive (origin.entryOf entry)
    set put := archive.putFile location (origin.entryOf entry)
    have hpolicy' : put.policy.keepDuplicates = false := hpolicy
    obtain ⟨after, hrun, hgains⟩ := ih (fun other hmem => h other (List.mem_cons_of_mem _ hmem))
      hpolicy' ((hput.live location).mpr (Or.inl hlive))
    refine ⟨after, ?_, ?_⟩
    · rw [List.foldlM_cons, addFile_of_spells hspells hoffset hpolicy, Outcome.ok_bind]
      exact hrun
    · have hboth := hput.trans hgains
      rw [Set.union_empty] at hboth
      convert hboth using 1
      ext ⟨other, key⟩
      simp [Origin.entryOf, and_or_left]

end Files

/-! ## Directories -/

/-- The reader adds what it goes to from an index on, wherever the directory of the index is. -/
def ReadsAll (origin : Origin) (index : Index) : Prop :=
  ∀ (location : Location) (archive : Archive), archive.Live location →
    archive.policy.keepDuplicates = false →
    ∃ filled after, origin.addFiles location archive index.label.files = .ok filled ∧
      origin.addDirectories index location filled index.label.directories = .ok after ∧
      Gains archive after (visited origin.names index location)
        (visitedFiles origin.names index location)

section Directories

variable {origin : Origin} {index : Index} {archive : Archive} {location : Location}

/-- The locations of the directories that the reader makes of what an entry leads to. -/
def visitedBy (names : NameTable) (index : Index) (location : Location)
    (entries : List IndexEntry) : Set Location :=
  {other | ∃ entry ∈ entries, ∃ child, index.child? entry.key = some child ∧
    other ∈ visited names child (location ++ [names.nameOf entry.key])}

/-- The addresses of the files that the reader makes of what an entry leads to. -/
def visitedFilesBy (names : NameTable) (index : Index) (location : Location)
    (entries : List IndexEntry) : Set FileAddress :=
  {address | ∃ entry ∈ entries, ∃ child, index.child? entry.key = some child ∧
    address ∈ visitedFiles names child (location ++ [names.nameOf entry.key])}

theorem exists_gains_addDirectories {entries : List IndexEntry}
    (h : ∀ entry ∈ entries, origin.names.Spells entry.key ∧
      ∃ child, index.child? entry.key = some child ∧ ReadsAll origin child)
    (hpolicy : archive.policy.keepDuplicates = false) (hlive : archive.Live location) :
    ∃ after, origin.addDirectories index location archive entries = .ok after ∧
      Gains archive after (visitedBy origin.names index location entries)
        (visitedFilesBy origin.names index location entries) := by
  induction entries generalizing archive with
  | nil =>
    refine ⟨archive, by rw [Origin.addDirectories], ?_⟩
    simpa [visitedBy, visitedFilesBy] using Gains.refl archive
  | cons entry entries ih =>
    obtain ⟨hspells, child, hchild, hreads⟩ := h entry List.mem_cons_self
    set name := origin.names.nameOf entry.key with hname
    set entered := (archive.enter location (.name name)).1
    have henter : Gains archive entered {location ++ [name]} ∅ := gains_enter hlive
    have hwalk :
        archive.enterAll location (Path.segments name) = (entered, location ++ [name]) := by
      rw [Path.segments_of_plain hspells.plain]
      exact Prod.ext rfl (enter_name_snd archive location name)
    obtain ⟨filled, deeper, hfiles, hdeeper, hgains⟩ := hreads (location ++ [name]) entered
      ((henter.live _).mpr (Or.inr rfl)) (henter.policy_eq ▸ hpolicy)
    have hthere := henter.trans hgains
    obtain ⟨after, hrun, hrest⟩ := ih (fun other hmem => h other (List.mem_cons_of_mem _ hmem))
      (hthere.policy_eq ▸ hpolicy) ((hthere.live location).mpr (Or.inl hlive))
    refine ⟨after, addDirectories_cons_eq_ok_iff.mpr
      ⟨name, child, filled, deeper, hspells.resolve, hchild, ?_, ?_, hrun⟩, ?_⟩
    · rw [hwalk]
      exact hfiles
    · rw [hwalk]
      exact hdeeper
    · have hall := hthere.trans hrest
      -- The directory that was entered is among those that its own index leads to.
      have hself : location ++ [name] ∈ visited origin.names child (location ++ [name]) :=
        ⟨[], child, .here child, (List.append_nil _).symm⟩
      rw [Set.singleton_union, Set.insert_eq_of_mem hself, Set.empty_union] at hall
      convert hall using 1
      · ext other
        simp [visitedBy, hchild, hname]
      · ext address
        simp [visitedFilesBy, hchild, hname]

theorem visited_eq (names : NameTable) (index : Index) (location : Location) :
    visited names index location
      = insert location (visitedBy names index location index.label.directories) := by
  ext other
  rw [Set.mem_insert_iff]
  constructor
  · rintro ⟨_, found, hvisits, rfl⟩
    cases hvisits with
    | here => exact Or.inl (List.append_nil location)
    | down hmem hleads hvisits =>
      exact Or.inr ⟨_, hmem, _, hleads, _, _, hvisits, (List.append_cons _ _ _)⟩
  · rintro (rfl | ⟨entry, hmem, child, hleads, more, found, hvisits, rfl⟩)
    · exact ⟨[], index, .here index, (List.append_nil _).symm⟩
    · exact ⟨_, found, .down hmem hleads hvisits, (List.append_cons _ _ _).symm⟩

theorem visitedFiles_eq (names : NameTable) (index : Index) (location : Location) :
    visitedFiles names index location
      = {address | address.location = location ∧
          ∃ entry ∈ index.label.files, address.key = names.nameOf entry.key}
        ∪ visitedFilesBy names index location index.label.directories := by
  ext address
  rw [Set.mem_union]
  constructor
  · rintro ⟨_, found, hvisits, hlocation, hfile⟩
    cases hvisits with
    | here => exact Or.inl ⟨hlocation.trans (List.append_nil _), hfile⟩
    | down hmem hleads hvisits =>
      exact Or.inr ⟨_, hmem, _, hleads, _, _, hvisits,
        hlocation.trans (List.append_cons _ _ _), hfile⟩
  · rintro (⟨hlocation, hfile⟩ |
      ⟨entry, hmem, child, hleads, more, found, hvisits, hlocation, hfile⟩)
    · exact ⟨[], index, .here index, hlocation.trans (List.append_nil _).symm, hfile⟩
    · exact ⟨_, found, .down hmem hleads hvisits,
        hlocation.trans (List.append_cons _ _ _).symm, hfile⟩

/-- The reader adds to an archive exactly what it goes to. -/
theorem readsAll_of_readable (h : Readable origin index) : ReadsAll origin index := by
  induction h with
  | @mk index files directories below ih =>
    intro location archive hlive hpolicy
    obtain ⟨filled, hfiles, hfilled⟩ := exists_gains_addFiles files hpolicy hlive
    have hentries : ∀ entry ∈ index.label.directories, origin.names.Spells entry.key ∧
        ∃ child, index.child? entry.key = some child ∧ ReadsAll origin child := by
      intro entry hmem
      obtain ⟨hspells, hsome⟩ := directories entry hmem
      obtain ⟨child, hchild⟩ := Option.isSome_iff_exists.mp hsome
      exact ⟨hspells, child, hchild, ih child (List.mem_of_find?_eq_some hchild)⟩
    have hpolicy' : filled.policy.keepDuplicates = false := hfilled.policy_eq ▸ hpolicy
    obtain ⟨after, hrun, hgains⟩ := exists_gains_addDirectories hentries hpolicy'
      ((hfilled.live location).mpr (Or.inl hlive))
    refine ⟨filled, after, hfiles, hrun, ?_⟩
    -- The files come first, then the directories below; the directory itself was there.
    have hall := (hfilled.trans hgains).insert_live hlive
    rw [Set.empty_union] at hall
    rw [visited_eq, visitedFiles_eq]
    exact hall

end Directories

end HashArchive.Archive
