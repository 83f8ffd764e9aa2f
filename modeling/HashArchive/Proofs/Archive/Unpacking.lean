/-
  HashArchive.Proofs.Archive.Unpacking

  What unpacking leaves below a folder that was empty.  Files are written one after another to
  the paths of their names, so a later one of the same directory and name is written over an
  earlier one, and nothing else is (`Unpacked`).  When all are written, the path of each file
  holds the content of the one that prevails among those of its name (`Prevails.delivered`).
-/
import Mathlib
import HashArchive.Proofs.Archive.Extraction
import HashArchive.Proofs.Archive.Duplicates
import HashArchive.Proofs.Disk.Writing

namespace HashArchive

/-- The names that lead to a file below the root. -/
def StoredFile.trail (file : StoredFile) : Trail := file.place.location ++ [file.entry.name]

namespace Folder

theorem under_eq (target names : List String) : under target names = under target [] ++ names := by
  simp [under]

theorem steps_under (target : List String) : steps (under target []) = steps target := by
  rw [under, List.append_nil]
  split
  · next hlast =>
    obtain ⟨front, rfl⟩ := List.getLast?_eq_some_iff.mp hlast
    rw [List.dropLast_concat, steps_append]
    exact (List.append_nil _).symm
  · rfl

theorem under_nil_sublist (path : List String) : (under path []).Sublist path := by
  rw [under, List.append_nil]
  split
  · exact List.dropLast_sublist path
  · exact List.Sublist.refl path

theorem isName_of_plain {name : String} (h : Path.Plain name) : isName name = true := by
  obtain ⟨hempty, hdot, hdots, -⟩ := h
  exact isName_iff.mpr ⟨by simp [stays, hempty, hdot], hdots⟩

theorem nul_notMem_of_validName [DiskLimits] {name : String} (h : validName name = true) :
    '\x00' ∉ name.toList := by
  rw [validName, Bool.and_eq_true, List.all_eq_true] at h
  intro hmem
  simpa using h.2 _ hmem

end Folder

namespace Archive

open Folder

/-! ## The files of an archive -/

section Files

variable {archive : Archive} {file : StoredFile} {files : List StoredFile}

theorem parts_relativePath (h : archive.WellFormed) (hmem : file ∈ archive.files) :
    parts file.relativePath = file.trail :=
  (confined_of_mem_files h hmem).parts

theorem isName_of_mem_trail (h : archive.WellFormed) (hmem : file ∈ archive.files) {part : String}
    (hpart : part ∈ file.trail) : isName part = true := by
  rw [← parts_relativePath h hmem] at hpart
  exact isName_of_plain ((confined_of_mem_files h hmem).plain part hpart)

theorem trail_eq_iff {other : StoredFile} :
    other.trail = file.trail ↔
      other.place.location = file.place.location ∧ other.entry.name = file.entry.name := by
  rw [StoredFile.trail, StoredFile.trail, List.append_singleton_inj]

/-- No file that is listed later has the path of one that prevails. -/
theorem Prevails.split (h : archive.WellFormed) (hprevails : Prevails archive.files file) :
    ∃ front back, archive.files = front ++ file :: back ∧
      ∀ later ∈ back, later.trail ≠ file.trail := by
  obtain ⟨hmem, hgreatest⟩ := hprevails
  obtain ⟨front, back, hsplit⟩ := List.append_of_mem hmem
  refine ⟨front, back, hsplit, fun later hlater heq => ?_⟩
  obtain ⟨hlocation, hname⟩ := trail_eq_iff.mp heq
  have horder := pairwise_files h
  rw [hsplit, List.pairwise_append, List.pairwise_cons] at horder
  have hkey := Entry.key_lt_of_before (horder.2.1.1 later hlater hlocation.symm) hname.symm
  have hthere : later ∈ archive.files := by
    rw [hsplit]
    exact List.mem_append_right _ (List.mem_cons_of_mem _ hlater)
  exact absurd (hgreatest later hthere hlocation hname) (not_le_of_gt hkey)

/-- Of the files that have the path of a file, one prevails. -/
theorem exists_prevails (hmem : file ∈ files) : ∃ last, Prevails files last ∧
    last.trail = file.trail := by
  have hne : (files.filter (·.trail = file.trail)).toFinset.Nonempty :=
    ⟨file, by simp [hmem]⟩
  obtain ⟨last, hlast, hgreatest⟩ := Finset.exists_max_image _ (·.entry.key) hne
  simp only [List.mem_toFinset, List.mem_filter, decide_eq_true_eq, and_imp] at hlast hgreatest
  refine ⟨last, ⟨hlast.1, fun other hother hlocation hname => ?_⟩, hlast.2⟩
  exact hgreatest other hother ((trail_eq_iff.mpr ⟨hlocation, hname⟩).trans hlast.2)

end Files

/-! ## One file -/

section Placed

variable {inside : Folder} {file : StoredFile}

theorem not_prefix_of_trail (file : StoredFile) : ¬ file.trail <+: file.place.location := by
  intro hfront
  simpa [StoredFile.trail] using hfront.length_le

/-- A file has been written, with the folders on its way, where there was no folder. -/
structure Placed (inside : Folder) (file : StoredFile) (content : Bytes) (made : Folder) :
    Prop where
  kinds : ∀ other, made.kindAt? other
    = if other = file.trail then some (.file content)
      else if other <+: file.place.location then some .folder else inside.kindAt? other
  clear : Clear inside file.place.location
  noFolder : inside.kindAt? file.trail ≠ some .folder

/-- The folders on the way of a file, and then the file, are where the names say. -/
theorem placed_of_added {between made : Folder} {content : Bytes}
    (hway : Widened inside file.place.location between)
    (hnoFolder : between.kindAt? file.trail ≠ some .folder)
    (hadded : Added between file.trail (.file content) made) : Placed inside file content made where
  kinds other := by rw [hadded, hway.kinds, Item.kind]
  clear := hway.clear
  noFolder := by rwa [hway.kinds, if_neg (not_prefix_of_trail file)] at hnoFolder

theorem Placed.kindAt?_trail {content : Bytes} {made : Folder} (h : Placed inside file content made) :
    made.kindAt? file.trail = some (.file content) := by
  rw [h.kinds, if_pos rfl]

theorem Placed.folder_iff {content : Bytes} {made : Folder} (h : Placed inside file content made)
    (other : Trail) : made.kindAt? other = some .folder ↔
      inside.kindAt? other = some .folder ∨ other <+: file.place.location := by
  rw [h.kinds]
  split_ifs with heq hfront
  · subst heq
    simp [h.noFolder, not_prefix_of_trail file]
  · simp [hfront]
  · simp [hfront]

theorem Placed.file_iff {content : Bytes} {made : Folder} (h : Placed inside file content made)
    {other : Trail} (hother : file.trail ≠ other) (data : Bytes) :
    made.kindAt? other = some (.file data) ↔ inside.kindAt? other = some (.file data) := by
  rw [h.kinds, if_neg hother.symm]
  split_ifs with hfront
  · rcases h.clear other hfront with hkind | hkind <;> simp [hkind]
  · rfl

theorem clear_empty (way : Trail) : Clear .empty way := by
  intro front _
  cases front with
  | nil => exact Or.inr rfl
  | cons name names => exact Or.inl rfl

end Placed

section Limits

variable [DiskLimits] {disk inside after : Folder} {target : List String} {trail : Trail}
  {file : StoredFile} {files : List StoredFile} {streams : Folder → Streams}

/-- A file can be written: its path can be followed, its names can be held, and nothing is in its
    way. -/
structure Placeable (inside : Folder) (base : List String) (file : StoredFile) : Prop where
  clean : ∀ part ∈ base, '\x00' ∉ part.toList
  followable : Followable (base ++ file.trail)
  valid : ∀ name ∈ file.trail, validName name = true
  clear : Clear inside file.place.location
  noFolder : inside.kindAt? file.trail ≠ some .folder

theorem Placeable.passable {base : List String} (h : Placeable inside base file) :
    Passable inside file.place.location :=
  ⟨fun name hmem => h.valid name (List.mem_append_left _ hmem), h.clear⟩

/-- Unpacking a file places it. -/
theorem unpackFile_below (h : LeadsToEmpty disk target trail)
    (hfilled : Folder.Filled disk trail inside after)
    (hfree : NoLinks inside) (hnames : ∀ part ∈ file.trail, isName part = true)
    (content : Bytes) :
    Step disk trail (unpackFile after target file content)
      (fun made => Followable (under target [] ++ file.trail) ∧ Placed inside file content made)
      (Placeable inside (under target []) file) := by
  have hbase := steps_under target
  set base := under target []
  have habove : ∀ part ∈ file.place.location, isName part = true := fun part hmem =>
    hnames part (List.mem_append_left _ hmem)
  have hsublist : (base ++ file.place.location).Sublist (base ++ file.trail) :=
    (List.sublist_append_left _ _).append_left base
  have hensure := ensureFolder_below h hbase hfilled hfree habove
  rw [unpackFile, under_eq target file.place.location, under_eq target (_ ++ [_])]
  obtain ⟨⟨between, hfilled', hfree', hmade⟩, hsucceeds⟩ := hensure
  rcases hresult : after.ensureFolder (base ++ file.place.location) with ⟨result, fault | _⟩
  · rw [hresult] at hfilled' hsucceeds
    refine ⟨⟨between, hfilled', hfree', fun hok => by cases hok⟩, fun hpossible => ?_⟩
    have hok := hsucceeds ⟨hpossible.followable.of_sublist hsublist, ?_, hpossible.passable⟩
    · cases hok
    · intro part hmem
      rcases List.mem_append.mp hmem with hmem | hmem
      · exact hpossible.clean part hmem
      · exact nul_notMem_of_validName (hpossible.passable.valid part hmem)
  · rw [hresult] at hfilled' hmade
    obtain ⟨-, hway⟩ := hmade rfl
    refine (writeFile_step_below h hbase hfilled' hfree' hnames content).imp ?_ ?_
    · rintro made ⟨hfollow, -, hnoFolder, hadded⟩
      exact ⟨hfollow, placed_of_added hway hnoFolder hadded⟩
    · intro hpossible
      refine ⟨hpossible.followable, ?_, ?_, hpossible.valid _ (by simp [StoredFile.trail])⟩
      · rw [hway.kinds, if_pos (List.prefix_refl _)]
      · show between.kindAt? file.trail ≠ some .folder
        rw [hway.kinds, if_neg (not_prefix_of_trail file)]
        exact hpossible.noFolder

/-! ## One file after another -/

/-- All files have been written to a folder, each over those before it at the same path. -/
structure Unpacked (streams : Streams) (base : List String) (inside : Folder)
    (files : List StoredFile) (made : Folder) : Prop where
  followable : ∀ file ∈ files, Followable (base ++ file.trail)
  folders : ∀ other, made.kindAt? other = some .folder ↔
    inside.kindAt? other = some .folder ∨ ∃ file ∈ files, other <+: file.place.location
  elsewhere : ∀ other, (∀ file ∈ files, file.trail ≠ other) → ∀ data,
    made.kindAt? other = some (.file data) ↔ inside.kindAt? other = some (.file data)
  last : ∀ front file back, files = front ++ file :: back →
    (∀ later ∈ back, later.trail ≠ file.trail) → ∃ content,
      file.entry.source.content streams = .ok content ∧
        made.kindAt? file.trail = some (.file content)
  readable : ∀ file ∈ files, ∃ content, file.entry.source.content streams = .ok content

/-- All files can be written one after another: each can be written by itself, and none is where
    another one needs a folder. -/
structure Unpackable (streams : Streams) (base : List String) (inside : Folder)
    (files : List StoredFile) : Prop where
  placeable : ∀ file ∈ files, Placeable inside base file
  readable : ∀ file ∈ files, ∃ content, file.entry.source.content streams = .ok content
  apart : ∀ file ∈ files, ∀ other ∈ files, ¬ file.trail <+: other.place.location

theorem Unpacked.congr {streams : Streams} {base : List String} {made other : Folder}
    (h : Unpacked streams base inside files made) (hsame : inside.kindAt? = other.kindAt?) :
    Unpacked streams base other files made where
  followable := h.followable
  folders := hsame ▸ h.folders
  elsewhere := hsame ▸ h.elsewhere
  last := h.last
  readable := h.readable

theorem Unpackable.congr {streams : Streams} {base : List String} {other : Folder}
    (h : Unpackable streams base inside files) (hsame : inside.kindAt? = other.kindAt?) :
    Unpackable streams base other files where
  placeable file hmem := by
    obtain ⟨hclean, hfollow, hvalid, hclear, hnoFolder⟩ := h.placeable file hmem
    exact ⟨hclean, hfollow, hvalid, fun front hfront => hsame ▸ hclear front hfront,
      hsame ▸ hnoFolder⟩
  readable := h.readable
  apart := h.apart

/-- Where nothing is, files of valid names are in nobody's way but each other's. -/
theorem unpackable_empty {streams : Streams} {base : List String}
    (hclean : ∀ part ∈ base, '\x00' ∉ part.toList)
    (hfollow : ∀ file ∈ files, Followable (base ++ file.trail))
    (hvalid : ∀ file ∈ files, ∀ name ∈ file.trail, validName name = true)
    (hread : ∀ file ∈ files, ∃ content, file.entry.source.content streams = .ok content)
    (hapart : ∀ file ∈ files, ∀ other ∈ files, ¬ file.trail <+: other.place.location) :
    Unpackable streams base .empty files where
  placeable file hmem := by
    refine ⟨hclean, hfollow file hmem, hvalid file hmem, clear_empty _, ?_⟩
    rw [kindAt?, at?_empty (by simp [StoredFile.trail])]
    simp
  readable := hread
  apart := hapart

theorem unpacked_nil (streams : Streams) (base : List String) (inside : Folder) :
    Unpacked streams base inside [] inside where
  followable := by simp
  folders := by simp
  elsewhere := by simp
  last := by simp
  readable := by simp

theorem Unpacked.cons {streams : Streams} {base : List String} {content : Bytes}
    {between made : Folder} (hfollow : Followable (base ++ file.trail))
    (hcontent : file.entry.source.content streams = .ok content)
    (hplaced : Placed inside file content between)
    (h : Unpacked streams base between files made) :
    Unpacked streams base inside (file :: files) made where
  followable := List.forall_mem_cons.mpr ⟨hfollow, h.followable⟩
  folders other := by
    rw [h.folders, hplaced.folder_iff, or_assoc, List.exists_mem_cons_iff]
  elsewhere other hother data := by
    obtain ⟨hfile, hfiles⟩ := List.forall_mem_cons.mp hother
    rw [h.elsewhere other hfiles, hplaced.file_iff hfile]
  last front first back hsplit hlast := by
    cases front with
    | nil =>
      obtain ⟨rfl, rfl⟩ := List.cons.inj hsplit
      exact ⟨content, hcontent, (h.elsewhere _ hlast content).mpr hplaced.kindAt?_trail⟩
    | cons _ front => exact h.last front first back (List.cons.inj hsplit).2 hlast
  readable := List.forall_mem_cons.mpr ⟨⟨content, hcontent⟩, h.readable⟩

/-- After one file has been written, the others still can be. -/
theorem Unpackable.tail {streams : Streams} {base : List String} {content : Bytes}
    {between : Folder} (h : Unpackable streams base inside (file :: files))
    (hplaced : Placed inside file content between) :
    Unpackable streams base between files where
  readable := (List.forall_mem_cons.mp h.readable).2
  apart _ hother _ hthird :=
    h.apart _ (List.mem_cons_of_mem _ hother) _ (List.mem_cons_of_mem _ hthird)
  placeable other hmem := by
    have hother := h.placeable other (List.mem_cons_of_mem _ hmem)
    refine ⟨hother.clean, hother.followable, hother.valid, fun front hfront => ?_, ?_⟩
    · have hne : front ≠ file.trail := fun heq =>
        h.apart file List.mem_cons_self other (List.mem_cons_of_mem _ hmem) (heq ▸ hfront)
      rw [hplaced.kinds, if_neg hne]
      split
      · exact Or.inr rfl
      · exact hother.clear front hfront
    · rw [Ne, hplaced.folder_iff]
      rintro (hfolder | hfront)
      · exact hother.noFolder hfolder
      · exact h.apart other (List.mem_cons_of_mem _ hmem) file List.mem_cons_self hfront

/-- The files read the same whatever is written below the trail: no open stream is there. -/
def ReadsApart (streams : Folder → Streams) (disk : Folder) (trail : Trail)
    (files : List StoredFile) : Prop :=
  ∀ inside after, Folder.Filled disk trail inside after → ∀ file ∈ files,
    file.entry.source.content (streams after) = file.entry.source.content (streams disk)

section Steps

variable (h : LeadsToEmpty disk target trail)

include h

theorem unpackFiles_below (hreads : ReadsApart streams disk trail files)
    (hfilled : Folder.Filled disk trail inside after) (hfree : NoLinks inside)
    (hnames : ∀ file ∈ files, ∀ part ∈ file.trail, isName part = true)
    (archive : Archive) :
    (∃ made, Folder.Filled disk trail made (unpackFiles streams target files archive after).disk ∧
      NoLinks made ∧ ((unpackFiles streams target files archive after).failure = none →
        Unpacked (streams disk) (under target []) inside files made)) ∧
      (Unpackable (streams disk) (under target []) inside files →
        (unpackFiles streams target files archive after).failure = none) := by
  induction files generalizing inside after archive with
  | nil => exact ⟨⟨inside, hfilled, hfree, fun _ => unpacked_nil _ _ _⟩, fun _ => rfl⟩
  | cons file files ih =>
    obtain ⟨hfile, hfiles⟩ := List.forall_mem_cons.mp hnames
    have hrest : ReadsApart streams disk trail files := fun inside after hfilled other hmem =>
      hreads inside after hfilled other (List.mem_cons_of_mem _ hmem)
    rw [unpackFiles, hreads inside after hfilled file List.mem_cons_self]
    cases hcontent : file.entry.source.content (streams disk) with
    | error error =>
      refine ⟨⟨inside, hfilled, hfree, fun hok => by cases hok⟩, fun hpossible => ?_⟩
      obtain ⟨content, hread⟩ := hpossible.readable file List.mem_cons_self
      cases hcontent.symm.trans hread
    | ok content =>
      obtain ⟨⟨between, hfilled', hfree', hplaced⟩, hsucceeds⟩ :=
        unpackFile_below h hfilled hfree hfile content
      dsimp only
      rcases hresult : unpackFile after target file content with ⟨result, fault | _⟩
      · rw [hresult] at hfilled' hsucceeds
        exact ⟨⟨between, hfilled', hfree', fun hok => by cases hok⟩, fun hpossible =>
          by cases hsucceeds (hpossible.placeable file List.mem_cons_self)⟩
      · rw [hresult] at hfilled' hplaced
        obtain ⟨hfollow, hplaced⟩ := hplaced rfl
        obtain ⟨⟨made, hfilled'', hfree'', hmade⟩, hsucceeds'⟩ := ih hrest hfilled' hfree' hfiles _
        exact ⟨⟨made, hfilled'', hfree'', fun hok => (hmade hok).cons hfollow hcontent hplaced⟩,
          fun hpossible => hsucceeds' (hpossible.tail hplaced)⟩

/-- Unpacking leaves the files below the target, each over those before it at the same path, and
    it succeeds where all of them can be written. -/
theorem unpack_below {archive : Archive} (hreads : ReadsApart streams disk trail archive.files)
    (hnames : ∀ file ∈ archive.files, ∀ part ∈ file.trail, isName part = true) :
    (∃ made, Folder.Filled disk trail made (archive.unpack streams disk target).disk ∧
      NoLinks made ∧ ((archive.unpack streams disk target).failure = none →
        Unpacked (streams disk) (under target []) .empty archive.files made)) ∧
      ((∀ part ∈ target, '\x00' ∉ part.toList) →
        Unpackable (streams disk) (under target []) .empty archive.files →
        (archive.unpack streams disk target).failure = none) := by
  have hensure := ensureFolder_below h rfl (.refl h.empty) noLinks_empty
    (by simp : ∀ name ∈ ([] : List String), isName name = true)
  rw [List.append_nil] at hensure
  obtain ⟨⟨inside, hfilled, hfree, hmade⟩, hsucceeds⟩ := hensure
  rw [unpack]
  rcases hresult : disk.ensureFolder target with ⟨result, fault | _⟩
  · rw [hresult] at hfilled hsucceeds
    refine ⟨⟨inside, hfilled, hfree, fun hok => by cases hok⟩, fun hclean _ => ?_⟩
    have hempty : Passable .empty [] := ⟨by simp, fun front hfront => ?_⟩
    · cases hsucceeds ⟨h.followable, hclean, hempty⟩
    · rw [List.prefix_nil.mp hfront]
      exact Or.inr rfl
  · rw [hresult] at hfilled hmade
    -- There was nothing to add, so the folder holds as little as before.
    have hsame : inside.kindAt? = Folder.empty.kindAt? := by
      funext other
      rw [(hmade rfl).2.kinds]
      split
      · next hfront => rw [List.prefix_nil.mp hfront, kindAt?_nil]
      · rfl
    obtain ⟨⟨made, hfilled', hfree', hmade'⟩, hsucceeds'⟩ :=
      unpackFiles_below h hreads hfilled hfree hnames archive
    exact ⟨⟨made, hfilled', hfree', fun hok => (hmade' hok).congr hsame⟩,
      fun _ hpossible => hsucceeds' (hpossible.congr hsame.symm)⟩

end Steps

/-! ## What is delivered -/

section Delivery

variable {archive : Archive}

/-- The disk has the content of the file at its path below a folder. -/
def Delivered (streams : Streams) (disk : Folder) (target : List String) (file : StoredFile) :
    Prop :=
  ∃ content, file.entry.source.content streams = .ok content ∧
    disk.dataAt (under target (parts file.relativePath)) = .ok content

section Done

variable (h : Reachable archive) (hempty : disk.folder? target = some .empty)
  (hreads : ∀ trail, disk.place? target = some trail →
    ReadsApart streams disk trail archive.files)
  (hdone : (archive.unpack streams disk target).failure = none)

include h hempty hreads hdone

/-- Of the files of one name in one directory the one with the greatest key is delivered. -/
theorem Prevails.delivered (hprevails : Prevails archive.files file) :
    Delivered (streams disk) (archive.unpack streams disk target).disk target file := by
  have hformed := h.wellFormed
  obtain ⟨trail, hleads⟩ := folder?_eq_empty_iff.mp hempty
  have hnames : ∀ file ∈ archive.files, ∀ part ∈ file.trail, isName part = true :=
    fun file hmem part hpart => isName_of_mem_trail hformed hmem hpart
  obtain ⟨⟨made, hfilled, hfree, hmade⟩, -⟩ :=
    unpack_below hleads (hreads trail hleads.place?_eq) hnames
  obtain ⟨hfollow, -, -, hlast, -⟩ := hmade hdone
  have hmem := hprevails.1
  obtain ⟨front, back, hsplit, hlater⟩ := hprevails.split hformed
  obtain ⟨content, hcontent, hkind⟩ := hlast front file back hsplit hlater
  refine ⟨content, hcontent, ?_⟩
  have hat := follow?_below hleads hfilled hfree (steps_under target) (hnames file hmem)
    (hfollow file hmem)
  rw [parts_relativePath hformed hmem, under_eq, dataAt, hat, kindAt?_eq_file_iff.mp hkind]

/-- An archive that was unpacked into an empty folder without an error: of the files of one name
    in one directory the one with the greatest key is delivered.  So all files are delivered if and
    only if files of one name in one directory have one content. -/
theorem delivered_of_unpack :
    (∀ file, Prevails archive.files file →
      Delivered (streams disk) (archive.unpack streams disk target).disk target file) ∧
    ((∀ file ∈ archive.files,
        Delivered (streams disk) (archive.unpack streams disk target).disk target file) ↔
      ∀ file ∈ archive.files, ∀ other ∈ archive.files,
        other.place.location = file.place.location → other.entry.name = file.entry.name →
          other.entry.source.content (streams disk) = file.entry.source.content (streams disk)) := by
  have hformed := h.wellFormed
  have hpath : ∀ {file other : StoredFile}, file ∈ archive.files → other ∈ archive.files →
      other.trail = file.trail → parts other.relativePath = parts file.relativePath := by
    intro file other hmem hother htrail
    rw [parts_relativePath hformed hother, htrail, parts_relativePath hformed hmem]
  refine ⟨fun file hprevails => hprevails.delivered h hempty hreads hdone,
    fun hall file hmem other hother hlocation hname => ?_, fun hagree file hmem => ?_⟩
  · obtain ⟨content, hcontent, hthere⟩ := hall file hmem
    obtain ⟨content', hcontent', hthere'⟩ := hall other hother
    rw [hpath hmem hother (trail_eq_iff.mpr ⟨hlocation, hname⟩), hthere] at hthere'
    rw [hcontent, hcontent', Except.ok.inj hthere']
  · obtain ⟨last, hprevails, htrail⟩ := exists_prevails hmem
    obtain ⟨hlocation, hname⟩ := trail_eq_iff.mp htrail
    obtain ⟨content, hcontent, hthere⟩ := hprevails.delivered h hempty hreads hdone
    rw [hpath hmem hprevails.1 htrail] at hthere
    exact ⟨content, (hagree file hmem last hprevails.1 hlocation hname).symm.trans hcontent, hthere⟩

end Done

end Delivery

end Limits

/-! ## Two files of one name -/

attribute [local instance] DiskLimits.usual

/-- A disk with an empty folder. -/
def roomy : Folder := .folder "o" .empty .empty

theorem folder?_roomy : roomy.folder? ["o"] = some .empty :=
  folder?_singleton (by decide) (by decide) rfl

theorem trail_of_mem_doubled : ∀ file ∈ doubled.files,
    file.trail = ["x"] ∧ file.place.location = [] := by decide

/-- Both files of the one name are unpacked without an error. -/
theorem failure_unpack_doubled :
    (doubled.unpack (fun _ => shortStreams) roomy ["o"]).failure = none := by
  have hnames : ∀ file ∈ doubled.files, ∀ part ∈ file.trail, isName part = true :=
    fun file hmem part hpart => isName_of_mem_trail reachable_doubled.wellFormed hmem hpart
  have hread : ∀ file ∈ doubled.files, (file.entry.source.content shortStreams).isOk := by
    decide +kernel
  obtain ⟨_, hleads⟩ := folder?_eq_empty_iff.mp folder?_roomy
  refine (unpack_below hleads (fun _ _ _ _ _ => rfl) hnames).2 (by decide)
    (unpackable_empty (by decide) (fun file hmem => ?_) (fun file hmem => ?_)
      (fun file hmem => Outcome.exists_of_isOk (hread file hmem)) fun file hmem other hother => ?_)
  · rw [(trail_of_mem_doubled file hmem).1]
    decide
  · rw [(trail_of_mem_doubled file hmem).1]
    decide
  · rw [(trail_of_mem_doubled file hmem).1, (trail_of_mem_doubled other hother).2]
    decide

theorem delivered_of_unpack_doubled :
    roomy.folder? ["o"] = some .empty ∧
      (doubled.unpack (fun _ => shortStreams) roomy ["o"]).failure = none ∧
      ∃ file ∈ doubled.files, file.entry.key = "x" ∧ Delivered shortStreams
        (doubled.unpack (fun _ => shortStreams) roomy ["o"]).disk ["o"] file := by
  obtain ⟨hprevailing, -⟩ := delivered_of_unpack reachable_doubled folder?_roomy
    (fun _ _ _ _ _ _ _ => rfl) failure_unpack_doubled
  have hgreatest : Prevails doubled.files ⟨⟨[], doubled.root⟩, ⟨"x", "x", .ofBytes [0x6F]⟩⟩ := by
    rw [Prevails]
    decide
  exact ⟨folder?_roomy, failure_unpack_doubled, _, hgreatest.1, rfl, hprevailing _ hgreatest⟩

/-- The later file is delivered, so the earlier one is not. -/
theorem undelivered_doubled :
    Reachable doubled ∧ roomy.folder? ["o"] = some .empty ∧
      (doubled.unpack (fun _ => shortStreams) roomy ["o"]).failure = none ∧
      ∃ file ∈ doubled.files, ¬ Delivered shortStreams
        (doubled.unpack (fun _ => shortStreams) roomy ["o"]).disk ["o"] file := by
  have hgreatest : Prevails doubled.files ⟨⟨[], doubled.root⟩, ⟨"x", "x", .ofBytes [0x6F]⟩⟩ := by
    rw [Prevails]
    decide
  obtain ⟨content, hcontent, hthere⟩ := hgreatest.delivered reachable_doubled folder?_roomy
    (fun _ _ _ _ _ _ _ => rfl) failure_unpack_doubled
  refine ⟨reachable_doubled, folder?_roomy, failure_unpack_doubled,
    ⟨⟨[], doubled.root⟩, ⟨"x", "s/x", .ofBytes [0x74]⟩⟩, by decide, ?_⟩
  rintro ⟨other, hother, hthere'⟩
  have hsame : Except.ok other = Except.ok content := hthere'.symm.trans hthere
  obtain rfl := Except.ok.inj hsame
  have hclash : (Except.ok [0x74] : Except ArchiveError Bytes) = .ok [0x6F] :=
    hother.trans hcontent.symm
  simp at hclash

end Archive

end HashArchive
