/-
  HashArchive.Proofs.Archive.Packing

  Packing a folder and unpacking it again.  A walk comes upon every regular file once, and the
  paths of files fall apart into the trails they were joined of, so the archive has one file for
  each (`Packs.holdsFilesOf`).  Unpacked into an empty folder, no file is in the way of another,
  and the folders that are added are the ones above files (`Packs.onlyFilesOf`).  Both can fail
  only for what is too long: a path, or the content of a file.
-/
import Mathlib
import HashArchive.Proofs.Archive.History
import HashArchive.Proofs.Archive.Unpacking
import HashArchive.Proofs.Disk.Named

namespace HashArchive

/-- Files and folders are opened when they are packed, links are not. -/
def ItemKind.Opened (kind : ItemKind) : Prop := ∀ target, kind ≠ .link target

@[simp] theorem ItemKind.opened_file (data : Bytes) : (file data).Opened :=
  fun _ heq => by cases heq

@[simp] theorem ItemKind.opened_folder : folder.Opened := fun _ heq => by cases heq

@[simp] theorem ItemKind.not_opened_link (target : String) : ¬ (link target).Opened :=
  fun h => h target rfl

namespace Archive

open Folder

section Limits

variable [DiskLimits] {archive after : Archive} {disk inside : Folder} {path : List String}

/-! ## What packing adds -/

/-- The file that is added for an item that a walk has come upon. -/
def addition? : Trail × ItemKind → Option Addition
  | (trail, .file data) => some ⟨"/".intercalate trail, .ofBytes data⟩
  | _ => none

/-- An item is packed if the path that it needs is short enough, and a file is added for it. -/
theorem packItem_eq_ok_iff_addEach {item : Trail × ItemKind} :
    packItem path archive item = .ok after ↔
      (item.2.Opened → Followable (under path item.1)) ∧
        archive.addEach (addition? item).toList = .ok after := by
  obtain ⟨trail, kind⟩ := item
  have hnone : archive.addEach [] = .ok after ↔ archive = after :=
    ⟨Except.ok.inj, congrArg Except.ok⟩
  rw [packItem_eq_ok_iff]
  cases kind with
  | file data => simp [addition?, addEach_singleton_eq_ok_iff]
  | folder => simp [addition?, hnone]
  | link target => simp [addition?, hnone]

/-- Packing adds the files, if all paths that it needs are short enough. -/
theorem packAll_eq_ok_iff {items : List (Trail × ItemKind)} :
    archive.packAll path items = .ok after ↔
      (∀ item ∈ items, item.2.Opened → Followable (under path item.1)) ∧
        archive.addEach (items.filterMap addition?) = .ok after := by
  induction items generalizing archive with
  | nil => simp [packAll, addEach]
  | cons item items ih =>
    have hcons : archive.packAll path (item :: items) = .ok after ↔
        ∃ next, packItem path archive item = .ok next ∧ next.packAll path items = .ok after := by
      rw [packAll, List.foldlM_cons, Outcome.bind_eq_ok_iff]
      rfl
    have hfilter : (item :: items).filterMap addition?
        = (addition? item).toList ++ items.filterMap addition? := by
      rw [List.filterMap_cons]
      cases addition? item <;> rfl
    rw [hcons, hfilter, List.forall_mem_cons, addEach_append_eq_ok_iff]
    simp only [ih, packItem_eq_ok_iff_addEach]
    constructor
    · rintro ⟨next, ⟨hfollow, hfirst⟩, hpaths, hrest⟩
      exact ⟨⟨hfollow, hpaths⟩, next, hfirst, hrest⟩
    · rintro ⟨⟨hfollow, hpaths⟩, next, hfirst, hrest⟩
      exact ⟨next, ⟨hfollow, hfirst⟩, hpaths, hrest⟩

/-! ## Where the files go -/

omit [DiskLimits] in
/-- A file goes to the directory that its trail leads to. -/
theorem target?_intercalate {above : Trail} {name : String}
    (h : ∀ part ∈ above ++ [name], Path.Plain part) (source : Source) :
    (⟨"/".intercalate (above ++ [name]), source⟩ : Addition).target? = some (above, name) := by
  rw [Addition.target?, Path.file?_intercalate h, Option.map_some]
  dsimp only
  rw [foldl_next_names, List.nil_append]

/-- A folder that a path leads to is the one that is packed. -/
theorem pack_eq (h : disk.folder? path = some inside) :
    ∃ name, pack disk path = (new name).packAll path (inside.walked []) := by
  obtain ⟨trail, hplace, hitem⟩ := folder?_eq_some_iff.mp h
  have hfind : disk.find? path = some trail := by
    rw [find?, hplace, Option.bind_eq_bind, Option.bind_some, hitem]
    rfl
  refine ⟨trail.getLast?.getD "", ?_⟩
  rw [pack, hfind]
  simp only [hitem]

section Named

variable (h : inside.WellNamed)

include h

/-- The paths that packing needs are those of all files and folders. -/
theorem forall_walked_iff (hfolder : disk.folder? path = some inside) :
    (∀ item ∈ inside.walked [], item.2.Opened → Followable (under path item.1)) ↔
      ∀ trail kind, inside.kindAt? trail = some kind → kind.Opened →
        Followable (under path trail) := by
  refine ⟨fun hpaths trail kind hkind hopened => ?_, fun hpaths item hmem => ?_⟩
  · by_cases hne : trail = []
    · obtain ⟨_, hplace, -⟩ := folder?_eq_some_iff.mp hfolder
      rw [hne]
      exact (Folder.place?_eq_some_iff.mp hplace).1.of_sublist (under_nil_sublist path)
    · exact hpaths (trail, kind) ((mem_walked_nil_iff h).mpr ⟨hne, hkind⟩) hopened
  · exact hpaths item.1 item.2 ((mem_walked_nil_iff h).mp hmem).2

/-- A trail to a file falls apart into the folder for it and its name, and it is added there. -/
theorem exists_target? {trail : Trail} {data : Bytes} (hfile : inside.at? trail = some (.file data)) :
    ∃ above name, trail = above ++ [name] ∧ ∀ source,
      (⟨"/".intercalate trail, source⟩ : Addition).target? = some (above, name) := by
  obtain ⟨above, name, rfl⟩ := (List.eq_nil_or_concat' trail).resolve_left (ne_nil_of_at?_file hfile)
  exact ⟨above, name, rfl, target?_intercalate fun part hmem => (h.proper hfile part hmem).plain⟩

/-- What is added comes from a file. -/
theorem exists_file_of_addition? {trail : Trail} {kind : ItemKind} {addition : Addition}
    (hmem : (trail, kind) ∈ inside.walked []) (hadds : addition? (trail, kind) = some addition) :
    ∃ data, inside.at? trail = some (.file data) ∧
      addition = ⟨"/".intercalate trail, .ofBytes data⟩ := by
  obtain ⟨-, hkind⟩ := (mem_walked_nil_iff h).mp hmem
  cases kind with
  | file data => exact ⟨data, kindAt?_eq_file_iff.mp hkind, (Option.some.inj hadds).symm⟩
  | folder => cases hadds
  | link target => cases hadds

theorem mem_additions_iff {addition : Addition} :
    addition ∈ (inside.walked []).filterMap addition? ↔
      ∃ trail data, inside.at? trail = some (.file data) ∧
        addition = ⟨"/".intercalate trail, .ofBytes data⟩ := by
  rw [List.mem_filterMap]
  constructor
  · rintro ⟨⟨trail, kind⟩, hmem, hadds⟩
    exact ⟨trail, exists_file_of_addition? h hmem hadds⟩
  · rintro ⟨trail, data, hfile, rfl⟩
    exact ⟨(trail, .file data), mem_walked_of_file h hfile, rfl⟩

/-- No two files go to one place. -/
theorem nodup_targets :
    (((inside.walked []).filterMap addition?).map Addition.target?).Nodup := by
  rw [List.nodup_iff_pairwise_ne, List.pairwise_map, List.pairwise_filterMap]
  refine (List.pairwise_map.mp (nodup_walked h [])).imp_of_mem ?_
  rintro ⟨trail, kind⟩ ⟨trail', kind'⟩ hmem hmem' hne addition hadds addition' hadds' hsame
  obtain ⟨data, hfile, rfl⟩ := exists_file_of_addition? h hmem hadds
  obtain ⟨data', hfile', rfl⟩ := exists_file_of_addition? h hmem' hadds'
  obtain ⟨above, name, rfl, htarget⟩ := exists_target? h hfile
  obtain ⟨above', name', rfl, htarget'⟩ := exists_target? h hfile'
  rw [htarget, htarget'] at hsame
  obtain ⟨rfl, rfl⟩ := Prod.mk.inj (Option.some.inj hsame)
  exact hne rfl

end Named

/-! ## What is packed -/

/-- The archive has the files of a folder and no others, each in the directory that its trail
    leads to, and keyed by its name. -/
structure Packs (inside : Folder) (archive : Archive) : Prop where
  wellFormed : archive.WellFormed
  held : ∀ location entry, entry ∈ archive.held location ↔
    ∃ data, inside.at? (location ++ [entry.name]) = some (.file data) ∧
      entry = ⟨entry.name, entry.name, .ofBytes data⟩

theorem packs_of_collects {name : String} (h : inside.WellNamed)
    (hcollects : Collects (new name) ((inside.walked []).filterMap addition?) archive) :
    Packs inside archive where
  wellFormed := hcollects.grows.evolves.wellFormed (wellFormed_new name)
  held location entry := by
    rw [hcollects.held]
    constructor
    · rintro ⟨addition, hmem, other, htarget, rfl⟩
      obtain ⟨trail, data, hfile, rfl⟩ := (mem_additions_iff h).mp hmem
      obtain ⟨above, last, rfl, htarget'⟩ := exists_target? h hfile
      rw [htarget'] at htarget
      obtain ⟨rfl, rfl⟩ := Prod.mk.inj (Option.some.inj htarget)
      exact ⟨data, hfile, rfl⟩
    · rintro ⟨data, hfile, hentry⟩
      obtain ⟨above, last, hlast, htarget⟩ := exists_target? h hfile
      obtain ⟨rfl, rfl⟩ := List.append_singleton_inj.mp hlast
      exact ⟨_, (mem_additions_iff h).mpr ⟨_, data, hfile, rfl⟩, entry.name, htarget _, hentry⟩

/-- Packing a folder gives one archive, if all paths that it needs are short enough. -/
theorem exists_packs (hfolder : disk.folder? path = some inside) (h : inside.WellNamed) :
    ∃ archive, Packs inside archive ∧ ∀ after, pack disk path = .ok after ↔
      (∀ trail kind, inside.kindAt? trail = some kind → kind.Opened →
        Followable (under path trail)) ∧ after = archive := by
  obtain ⟨name, hpack⟩ := pack_eq hfolder
  have htargets : ∀ addition ∈ (inside.walked []).filterMap addition?,
      addition.target?.isSome := by
    intro addition hmem
    obtain ⟨trail, data, hfile, rfl⟩ := (mem_additions_iff h).mp hmem
    obtain ⟨above, last, rfl, htarget⟩ := exists_target? h hfile
    rw [htarget]
    rfl
  obtain ⟨archive, hadd, hcollects⟩ := exists_collects name {} htargets (nodup_targets h)
  refine ⟨archive, packs_of_collects h hcollects, fun after => ?_⟩
  have hadd : (new name).addEach ((inside.walked []).filterMap addition?) = .ok archive := hadd
  rw [hpack, packAll_eq_ok_iff, hadd, Except.ok.injEq, @eq_comm _ archive,
    forall_walked_iff h hfolder]

section Packs

omit [DiskLimits]

variable (h : Packs inside archive)

include h

theorem Packs.source_of_mem {file : StoredFile} (hmem : file ∈ archive.files) :
    file.entry.key = file.entry.name ∧ ∃ data, inside.at? file.trail = some (.file data) ∧
      file.entry.source = .ofBytes data := by
  have hheld := (mem_held_iff h.wellFormed).mpr ⟨file, hmem, rfl, rfl⟩
  obtain ⟨data, hfile, hentry⟩ := (h.held _ _).mp hheld
  rw [hentry]
  exact ⟨rfl, data, hfile, rfl⟩

theorem Packs.exists_of_file {trail : Trail} {data : Bytes}
    (hfile : inside.at? trail = some (.file data)) :
    ∃ file ∈ archive.files, file.trail = trail ∧ file.entry.source = .ofBytes data := by
  obtain ⟨above, name, rfl⟩ := (List.eq_nil_or_concat' trail).resolve_left (ne_nil_of_at?_file hfile)
  have hheld := (h.held above ⟨name, name, .ofBytes data⟩).mpr ⟨data, hfile, rfl⟩
  obtain ⟨file, hmem, rfl, hentry⟩ := (mem_held_iff h.wellFormed).mp hheld
  exact ⟨file, hmem, by rw [StoredFile.trail, hentry], by rw [hentry]⟩

/-- Files at one trail are one file. -/
theorem Packs.eq_of_trail_eq {file other : StoredFile} (hfile : file ∈ archive.files)
    (hother : other ∈ archive.files) (hsame : other.trail = file.trail) : other = file := by
  obtain ⟨hlocation, hname⟩ := trail_eq_iff.mp hsame
  refine eq_of_address_eq h.wellFormed hother hfile ?_
  rw [StoredFile.address, StoredFile.address, hlocation, (h.source_of_mem hother).1, hname,
    (h.source_of_mem hfile).1]

end Packs

/-- The files of an archive are the regular files of a folder: there is one for each, with its
    path and with its bytes in memory. -/
structure HoldsFilesOf (inside : Folder) (archive : Archive) : Prop where
  apart : (archive.files.map (·.relativePath)).Nodup
  stored : ∀ file ∈ archive.files, ∃ data,
    inside.at? (parts file.relativePath) = some (.file data) ∧ file.entry.source = .ofBytes data
  complete : ∀ trail data, inside.at? trail = some (.file data) → ∃ file ∈ archive.files,
    file.relativePath = "/".intercalate trail ∧ file.entry.source = .ofBytes data

omit [DiskLimits] in
theorem Packs.holdsFilesOf (h : Packs inside archive) : HoldsFilesOf inside archive where
  apart := by
    refine (List.nodup_map_iff_inj_on (nodup_files h.wellFormed)).mpr ?_
    intro file hfile other hother hsame
    refine (h.eq_of_trail_eq hfile hother ?_).symm
    rw [← parts_relativePath h.wellFormed hother, ← hsame, parts_relativePath h.wellFormed hfile]
  stored file hmem := by
    rw [parts_relativePath h.wellFormed hmem]
    exact (h.source_of_mem hmem).2
  complete trail data hfile := by
    obtain ⟨file, hmem, rfl, hsource⟩ := h.exists_of_file hfile
    exact ⟨file, hmem, rfl, hsource⟩

/-! ## What is unpacked -/

/-- All of a folder that packing keeps: its regular files, and the folders above them. -/
structure OnlyFilesOf (inside made : Folder) : Prop where
  files : ∀ trail data, made.at? trail = some (.file data) ↔ inside.at? trail = some (.file data)
  folders : ∀ trail, made.kindAt? trail = some .folder ↔
    trail = [] ∨ ∃ more data, more ≠ [] ∧ inside.at? (trail ++ more) = some (.file data)
  noLinks : NoLinks made

section Unpack

variable {made other : Folder} {base target : List String} {streams : Streams}
  (h : Packs inside archive)

include h

/-- The files that are written are those that were packed, each at its trail. -/
theorem Packs.at?_of_unpacked (hunpacked : Unpacked streams base .empty archive.files made)
    (trail : Trail) (data : Bytes) :
    made.at? trail = some (.file data) ↔ inside.at? trail = some (.file data) := by
  by_cases hthere : ∃ file ∈ archive.files, file.trail = trail
  · obtain ⟨file, hmem, rfl⟩ := hthere
    obtain ⟨-, bytes, hfile, hsource⟩ := h.source_of_mem hmem
    have hprevails : Prevails archive.files file := ⟨hmem, fun other hother hlocation hname => by
      rw [h.eq_of_trail_eq hmem hother (trail_eq_iff.mpr ⟨hlocation, hname⟩)]⟩
    obtain ⟨front, back, hsplit, hlater⟩ := hprevails.split h.wellFormed
    obtain ⟨content, hcontent, hkind⟩ := hunpacked.last front file back hsplit hlater
    rw [hsource, Source.content_memory] at hcontent
    split at hcontent
    · obtain rfl := Except.ok.inj hcontent
      rw [kindAt?_eq_file_iff.mp hkind, hfile]
    · cases hcontent
  · have hnone : ∀ file ∈ archive.files, file.trail ≠ trail := fun file hmem heq =>
      hthere ⟨file, hmem, heq⟩
    rw [← kindAt?_eq_file_iff, hunpacked.elsewhere trail hnone, kindAt?_eq_file_iff]
    refine iff_of_false (fun hfile => ?_) fun hfile => ?_
    · rw [at?_empty (ne_nil_of_at?_file hfile)] at hfile
      cases hfile
    · obtain ⟨file, hmem, heq, -⟩ := h.exists_of_file hfile
      exact hnone file hmem heq

/-- The folders that are added are those above files. -/
theorem Packs.kindAt?_of_unpacked (hunpacked : Unpacked streams base .empty archive.files made)
    (trail : Trail) : made.kindAt? trail = some .folder ↔
      trail = [] ∨ ∃ more data, more ≠ [] ∧ inside.at? (trail ++ more) = some (.file data) := by
  have hempty : Folder.empty.kindAt? trail = some .folder ↔ trail = [] := by
    cases trail with
    | nil => simp
    | cons name names => simp [kindAt?]
  rw [hunpacked.folders, hempty]
  refine or_congr_right ⟨?_, ?_⟩
  · rintro ⟨file, hmem, ⟨more, hlocation⟩⟩
    obtain ⟨-, data, hfile, -⟩ := h.source_of_mem hmem
    refine ⟨more ++ [file.entry.name], data, by simp, ?_⟩
    rw [← List.append_assoc, hlocation]
    exact hfile
  · rintro ⟨more, data, hne, hfile⟩
    obtain ⟨between, name, rfl⟩ := (List.eq_nil_or_concat' more).resolve_left hne
    obtain ⟨file, hmem, htrail, -⟩ := h.exists_of_file hfile
    rw [StoredFile.trail, ← List.append_assoc, List.append_singleton_inj] at htrail
    exact ⟨file, hmem, between, htrail.1.symm⟩

theorem Packs.onlyFilesOf (hunpacked : Unpacked streams base .empty archive.files made)
    (hfree : NoLinks made) : OnlyFilesOf inside made :=
  ⟨h.at?_of_unpacked hunpacked, h.kindAt?_of_unpacked hunpacked, hfree⟩

/-- No file of a folder is where another one needs a folder. -/
theorem Packs.unpackable (hnamed : inside.WellNamed) (hclean : ∀ part ∈ base, '\x00' ∉ part.toList)
    (hfits : ∀ trail data, inside.at? trail = some (.file data) →
      Followable (base ++ trail) ∧ data.length < UInt32.size) :
    Unpackable streams base .empty archive.files := by
  refine unpackable_empty hclean (fun file hmem => ?_) (fun file hmem name hname => ?_)
    (fun file hmem => ?_) fun file hmem other hother hfront => ?_
  · obtain ⟨-, data, hfile, -⟩ := h.source_of_mem hmem
    exact (hfits _ data hfile).1
  · obtain ⟨-, data, hfile, -⟩ := h.source_of_mem hmem
    exact (hnamed.proper hfile name hname).1
  · obtain ⟨-, data, hfile, hsource⟩ := h.source_of_mem hmem
    exact ⟨data, by rw [hsource, Source.content_memory, if_pos (hfits _ data hfile).2]⟩
  · obtain ⟨-, data, hfile, -⟩ := h.source_of_mem hmem
    obtain ⟨-, data', hfile', -⟩ := h.source_of_mem hother
    have hbefore : file.trail <+: other.trail := hfront.trans (List.prefix_append _ _)
    have hfolder : inside.kindAt? file.trail = some .folder := by
      refine kindAt?_eq_folder_above ?_ hbefore fun heq => ?_
      · rw [kindAt?_eq_file_iff.mpr hfile']
        simp
      · exact not_prefix_of_trail other (heq ▸ hfront)
    rw [kindAt?_eq_file_iff.mpr hfile] at hfolder
    cases hfolder

/-- What was packed is unpacked into an empty folder if all paths and files are short enough. -/
theorem Packs.unpack_iff (hnamed : inside.WellNamed) (hempty : other.folder? target = some .empty)
    (hclean : ∀ part ∈ target, '\x00' ∉ part.toList) (streams : Folder → Streams) :
    ((archive.unpack streams other target).failure = none ↔
        ∀ trail data, inside.at? trail = some (.file data) →
          Followable (under target trail) ∧ data.length < UInt32.size) ∧
      ((archive.unpack streams other target).failure = none →
        ∃ made, (archive.unpack streams other target).disk.folder? target = some made ∧
          OnlyFilesOf inside made) := by
  obtain ⟨there, hleads⟩ := folder?_eq_empty_iff.mp hempty
  have hnames : ∀ file ∈ archive.files, ∀ part ∈ file.trail, isName part = true :=
    fun file hmem part hpart => isName_of_mem_trail h.wellFormed hmem hpart
  -- What is in memory reads the same whatever is on the disk.
  have hreads : ReadsApart streams other there archive.files := by
    intro inside after _ file hmem
    obtain ⟨-, data, -, hsource⟩ := h.source_of_mem hmem
    rw [hsource, Source.content_memory, Source.content_memory]
  obtain ⟨⟨made, hfilled, hfree, hmade⟩, hsucceeds⟩ := unpack_below hleads hreads hnames
  refine ⟨⟨fun hdone trail data hfile => ?_, fun hfits => hsucceeds hclean ?_⟩, fun hdone => ?_⟩
  · obtain ⟨file, hmem, rfl, hsource⟩ := h.exists_of_file hfile
    obtain ⟨content, hcontent⟩ := (hmade hdone).readable file hmem
    rw [hsource, Source.content_memory] at hcontent
    refine ⟨under_eq target file.trail ▸ (hmade hdone).followable file hmem, ?_⟩
    by_contra hlong
    rw [if_neg hlong] at hcontent
    cases hcontent
  · refine h.unpackable hnamed (fun part hmem => hclean part ((under_nil_sublist target).subset hmem))
      fun trail data hfile => ?_
    rw [← under_eq]
    exact hfits trail data hfile
  · refine ⟨made, ?_, h.onlyFilesOf (hmade hdone) hfree⟩
    have hat := follow?_below hleads hfilled hfree rfl (by simp : ∀ name ∈ [], isName name = true)
      ((List.append_nil target).symm ▸ hleads.followable)
    rw [List.append_nil] at hat
    rw [folder?, hat, at?_nil]

end Unpack

end Limits

/-! ## The main statement -/

/-- Packing and unpacking are inverse, but for the files that the format cannot hold.  A folder
    whose paths the system follows is packed, and the files of the archive are its regular files.
    Unpacking them into an empty folder, where the system follows their paths as well, succeeds if
    and only if none is too long for a 32-bit size, and gives a folder with just these files and
    with no folders but the ones above them. -/
theorem unpack_inverts_pack [DiskLimits] {disk inside : Folder} {path : List String}
    (hfolder : disk.folder? path = some inside) (hnamed : inside.WellNamed)
    (hpaths : ∀ trail kind, inside.kindAt? trail = some kind → kind.Opened →
      Followable (under path trail)) :
    ∃ archive, pack disk path = .ok archive ∧ HoldsFilesOf inside archive ∧
      ∀ (streams : Folder → Streams) other target, other.folder? target = some .empty →
        (∀ part ∈ target, '\x00' ∉ part.toList) →
        (∀ trail data, inside.at? trail = some (.file data) → Followable (under target trail)) →
        ((archive.unpack streams other target).failure = none ↔
          ∀ trail data, inside.at? trail = some (.file data) → data.length < UInt32.size) ∧
        ((archive.unpack streams other target).failure = none →
          ∃ made, (archive.unpack streams other target).disk.folder? target = some made ∧
            OnlyFilesOf inside made) := by
  obtain ⟨archive, hpacks, hpack⟩ := exists_packs hfolder hnamed
  refine ⟨archive, (hpack archive).mpr ⟨hpaths, rfl⟩, hpacks.holdsFilesOf, ?_⟩
  intro streams other target hempty hclean hfollow
  obtain ⟨hiff, hmade⟩ := hpacks.unpack_iff hnamed hempty hclean streams
  refine ⟨hiff.trans ⟨fun h trail data hfile => (h trail data hfile).2, fun h trail data hfile => ?_⟩,
    hmade⟩
  exact ⟨hfollow trail data hfile, h trail data hfile⟩

section Examples

attribute [local instance] DiskLimits.usual

/-- A folder with a file, a link to it, a folder with a file of the same name, and an empty one. -/
def mixed : Folder :=
  .folder "e" .empty (.file "f" [0x6F] (.link "l" "f"
    (.folder "s" (.file "f" [0x74] .empty) .empty)))

/-- A disk with that folder and an empty one. -/
def mixedDisk : Folder := .folder "o" .empty (.folder "p" mixed .empty)

theorem unpack_inverts_pack_mixed :
    mixedDisk.folder? ["p"] = some mixed ∧ mixed.WellNamed ∧
      mixedDisk.folder? ["o"] = some .empty ∧
      ∃ archive, pack mixedDisk ["p"] = .ok archive ∧ HoldsFilesOf mixed archive ∧
        (archive.unpack (fun _ => noStreams) mixedDisk ["o"]).failure = none ∧
        ∃ made, (archive.unpack (fun _ => noStreams) mixedDisk ["o"]).disk.folder? ["o"]
          = some made ∧ OnlyFilesOf mixed made := by
  have hnamed : mixed.WellNamed := by decide +kernel
  have hfolder : mixedDisk.folder? ["p"] = some mixed :=
    folder?_singleton (by decide) (by decide) rfl
  have hempty : mixedDisk.folder? ["o"] = some .empty :=
    folder?_singleton (by decide) (by decide) rfl
  have hwalked : ∀ item ∈ mixed.walked [],
      Followable (under ["p"] item.1) ∧ Followable (under ["o"] item.1) := by decide +kernel
  have hshort : ∀ item ∈ mixed.walked [], ∀ data, item.2 = .file data → data.length ≤ 1 := by
    simp [mixed, Folder.walked]
  obtain ⟨archive, hrun, hholds, hunpack⟩ := unpack_inverts_pack hfolder hnamed
    ((forall_walked_iff hnamed hfolder).mp fun item hmem _ => (hwalked item hmem).1)
  obtain ⟨hiff, hmade⟩ := hunpack (fun _ => noStreams) mixedDisk ["o"] hempty (by decide)
    fun trail data hfile => (hwalked _ (mem_walked_of_file hnamed hfile)).2
  have hdone := hiff.mpr fun trail data hfile =>
    lt_of_le_of_lt (hshort _ (mem_walked_of_file hnamed hfile) data rfl) (by decide)
  exact ⟨hfolder, hnamed, hempty, archive, hrun, hholds, hdone, hmade hdone⟩

/-- A folder with one file, as long as no file of an archive can be. -/
def vast : Folder := .file "f" (List.replicate UInt32.size 0) .empty

/-- A disk with that folder and an empty one. -/
def vastDisk : Folder := .folder "o" .empty (.folder "p" vast .empty)

theorem wellNamed_vast : vast.WellNamed := ⟨by decide, List.not_mem_nil, trivial⟩

/-- All that is below the folder is the file. -/
theorem eq_of_kindAt?_vast {trail : Trail} {kind : ItemKind} (h : vast.kindAt? trail = some kind) :
    trail = [] ∨ trail = ["f"] := by
  cases trail with
  | nil => exact Or.inl rfl
  | cons name names =>
    have hmem : (name :: names, kind) ∈ vast.walked [] :=
      (mem_walked_nil_iff wellNamed_vast).mpr ⟨List.cons_ne_nil _ _, h⟩
    exact Or.inr (Prod.mk.inj (List.mem_singleton.mp hmem)).1

/-- The folder is packed, but not unpacked into the empty one, although the system follows the
    path of its file in both. -/
theorem not_unpacked_vast :
    vastDisk.folder? ["p"] = some vast ∧ vast.WellNamed ∧ vastDisk.folder? ["o"] = some .empty ∧
      (∀ trail kind, vast.kindAt? trail = some kind →
        Followable (under ["p"] trail) ∧ Followable (under ["o"] trail)) ∧
      ∃ archive, pack vastDisk ["p"] = .ok archive ∧
        (archive.unpack (fun _ => noStreams) vastDisk ["o"]).failure ≠ none := by
  have hfolder : vastDisk.folder? ["p"] = some vast :=
    folder?_singleton (by decide) (by decide) rfl
  have hempty : vastDisk.folder? ["o"] = some .empty :=
    folder?_singleton (by decide) (by decide) rfl
  have hpaths : ∀ trail kind, vast.kindAt? trail = some kind →
      Followable (under ["p"] trail) ∧ Followable (under ["o"] trail) := by
    intro trail kind hkind
    rcases eq_of_kindAt?_vast hkind with rfl | rfl <;> decide
  obtain ⟨archive, hpacks, hpack⟩ := exists_packs hfolder wellNamed_vast
  have hrun : pack vastDisk ["p"] = .ok archive :=
    (hpack archive).mpr ⟨fun trail kind hkind _ => (hpaths trail kind hkind).1, rfl⟩
  refine ⟨hfolder, wellNamed_vast, hempty, hpaths, archive, hrun, fun hdone => ?_⟩
  obtain ⟨hiff, -⟩ := hpacks.unpack_iff wellNamed_vast hempty (by decide) fun _ => noStreams
  have hshort := (hiff.mp hdone ["f"] (List.replicate UInt32.size 0) rfl).2
  rw [List.length_replicate] at hshort
  exact absurd hshort (lt_irrefl _)

end Examples

end Archive

end HashArchive
