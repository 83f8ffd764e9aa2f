/-
  HashArchive.Proofs.Archive.Listing

  The order in which an archive lists its directories and files.  The loop over the directories
  takes a number from a stack and puts the subdirectories on it, sorted by their names out of a
  table that holds them in any order (`inOrder_eq_subdirectories`).  It ends with the preorder
  of the tree: a directory stands before all below it, and these stand together
  (`within_iff_mem_placesAt`, `contiguous_placesAt`).
-/
import Mathlib
import HashArchive.Proofs.Archive.History
import HashArchive.Proofs.Archive.Pruning

namespace HashArchive

/-! ## Subdirectories in order -/

/-- The subdirectories of a directory as a table holds them: names and numbers, in any order. -/
def Place.IsTable (place : Place) (table : List (String × DirectoryId)) : Prop :=
  table.Nodup ∧ ∀ name id, (name, id) ∈ table ↔ place.subdirectory? name = some id

/-- The numbers of a table in the order of the names. -/
def inOrder (table : List (String × DirectoryId)) : List DirectoryId :=
  (Sorted.sort (fun a b => Name.before a.1 b.1) table).map (·.2)

/-- The subdirectories with their names, in the order of the tree. -/
def Place.links (place : Place) : List (String × DirectoryId) :=
  place.tree.below.trees.map fun tree => (tree.label.name, tree.label.id)

theorem Place.subdirectory?_eq_child? (place : Place) (name : String) :
    place.subdirectory? name = (place.tree.below.child? name).map (·.label.id) := by
  rw [← Tree.descend?_singleton]
  rfl

/-- Siblings in order have ascending names. -/
theorem Forest.Ordered.pairwise_names {forest : Forest Directory} (h : forest.Ordered) :
    forest.names.Pairwise fun a b => Name.before a b = true := by
  induction forest with
  | nil => exact List.Pairwise.nil
  | cons directory below rest _ ih =>
    obtain ⟨-, h₂, h₃⟩ := h
    rw [names_cons]
    exact List.pairwise_cons.mpr ⟨h₃, ih h₂⟩

section Tables

variable {place : Place} (h : place.tree.below.Ordered)
include h

theorem Place.pairwise_links :
    place.links.Pairwise fun a b => Name.before a.1 b.1 = true := by
  have hnames := h.pairwise_names
  rw [Forest.names, List.pairwise_map] at hnames
  exact List.pairwise_map.mpr hnames

theorem Place.isTable_links : place.IsTable place.links := by
  refine ⟨(place.pairwise_links h).imp fun {a b} hbefore heq => ?_, fun name id => ?_⟩
  · exact Name.ne_of_before hbefore (congrArg Prod.fst heq)
  · rw [links, subdirectory?_eq_child?, List.mem_map, Option.map_eq_some_iff]
    refine ⟨?_, ?_⟩
    · rintro ⟨tree, hmem, heq⟩
      obtain ⟨rfl, rfl⟩ := Prod.mk.inj heq
      exact ⟨tree, Forest.child?_of_mem_trees h.nodup_names hmem, rfl⟩
    · rintro ⟨tree, hchild, rfl⟩
      obtain rfl := Forest.name_of_child? hchild
      exact ⟨tree, Forest.mem_trees_of_child? hchild, rfl⟩

/-- However a table holds the subdirectories, they are sorted into the order of the tree. -/
theorem inOrder_eq_subdirectories {table : List (String × DirectoryId)}
    (htable : place.IsTable table) : inOrder table = place.subdirectories := by
  obtain ⟨hnodup, hmem⟩ := place.isTable_links h
  have hperm : table.Perm place.links := by
    refine (List.perm_ext_iff_of_nodup htable.1 hnodup).mpr ?_
    rintro ⟨name, id⟩
    rw [htable.2, hmem]
  have hsort : Sorted.sort (fun a b => Name.before a.1 b.1) table = place.links := by
    have htrans : ∀ a b c : String × DirectoryId, Name.rank a.1 ≤ Name.rank b.1 →
        Name.rank b.1 ≤ Name.rank c.1 → Name.rank a.1 ≤ Name.rank c.1 :=
      fun a b c hab hbc => le_trans hab hbc
    have hbefore : ∀ a b : String × DirectoryId, Name.before a.1 b.1 = true →
        Name.rank a.1 ≤ Name.rank b.1 := fun a b hlt => (Name.before_iff_rank_lt.mp hlt).le
    have hnot : ∀ a b : String × DirectoryId, Name.before a.1 b.1 = false →
        Name.rank b.1 ≤ Name.rank a.1 := by
      intro a b hlt
      rw [← Bool.not_eq_true, Name.before_iff_rank_lt] at hlt
      exact not_lt.mp hlt
    refine Sorted.sort_eq_of_perm htrans hbefore hnot hperm ?_ ?_
    · exact (place.pairwise_links h).imp fun hbefore => (Name.before_iff_rank_lt.mp hbefore).le
    · -- A name is that of one subdirectory only.
      rintro ⟨name, id⟩ hfirst ⟨other, id'⟩ hsecond hle hge
      obtain rfl : name = other := Name.rank_inj.mp (le_antisymm hle hge)
      rw [hmem] at hfirst hsecond
      rw [Option.some.inj (hfirst.symm.trans hsecond)]
  rw [inOrder, hsort, Place.links, Place.subdirectories, List.map_map]
  rfl

end Tables

/-! ## Subtrees in the preorder -/

/-- The directories from one on down stand together. -/
theorem Forest.contiguous_placesAt {forest : Forest Directory} {above : Location} {place : Place}
    (hmem : place ∈ forest.places above) :
    place.tree.placesAt place.location <:+: forest.places above := by
  induction forest generalizing above with
  | nil => cases hmem
  | cons directory below rest ihBelow ihRest =>
    rw [places, List.mem_cons, List.mem_append] at hmem
    rw [places]
    rcases hmem with rfl | hmem | hmem
    · exact ⟨[], rest.places above, rfl⟩
    · have hbelow : below.places (above ++ [directory.name]) <:+:
          below.places (above ++ [directory.name]) ++ rest.places above :=
        (List.prefix_append _ _).isInfix
      exact ((ihBelow hmem).trans hbelow).trans (List.suffix_cons _ _).isInfix
    · have hrest : rest.places above <:+:
          below.places (above ++ [directory.name]) ++ rest.places above :=
        (List.suffix_append _ _).isInfix
      exact ((ihRest hmem).trans hrest).trans (List.suffix_cons _ _).isInfix

/-- Paths are compared behind what they have in common. -/
theorem append_lt_append_iff {α : Type} [LinearOrder α] (front : List α) {a b : List α} :
    front ++ a < front ++ b ↔ a < b := by
  induction front with
  | nil => rfl
  | cons first front ih =>
    rw [List.cons_append, List.cons_append, List.cons_lt_cons_self]
    exact ih

/-- The names that lead to a directory, by what names are ordered by. -/
def Place.rank (place : Place) : List (String ×ₗ String) := place.location.map Name.rank

/-- The preorder is the order of the paths: of two the shorter first where it leads on to the
    other, and else as the names say where they part. -/
theorem Forest.pairwise_rank_places {forest : Forest Directory} (h : forest.Ordered)
    (above : Location) : (forest.places above).Pairwise fun a b => a.rank < b.rank := by
  induction forest generalizing above with
  | nil => exact List.Pairwise.nil
  | cons directory below rest ihBelow ihRest =>
    obtain ⟨h₁, h₂, h₃⟩ := h
    have hrest : ∀ place ∈ rest.places above, ∀ names : List String,
        (above ++ directory.name :: names).map Name.rank < place.rank := by
      intro place hmem names
      obtain ⟨first, others, hlocation, hfound⟩ := (mem_places_iff h₂).mp hmem
      have hfirst : first ∈ rest.names := by
        by_contra hnot
        rw [descend?_eq_none_of_notMem hnot] at hfound
        cases hfound
      rw [Place.rank, hlocation, List.map_append, List.map_append, append_lt_append_iff,
        List.map_cons, List.map_cons, List.cons_lt_cons_iff]
      exact Or.inl (Name.before_iff_rank_lt.mp (h₃ first hfirst))
    rw [places, List.pairwise_cons, List.pairwise_append]
    refine ⟨fun place hmem => ?_, ihBelow h₁ _, ihRest h₂ above, fun inner hinner place hmem => ?_⟩
    · rcases List.mem_append.mp hmem with hmem | hmem
      · obtain ⟨first, names, hlocation, -⟩ := (mem_places_iff h₁).mp hmem
        have hlonger := (append_lt_append_iff ((above ++ [directory.name]).map Name.rank)).mpr
          (List.nil_lt_cons (Name.rank first) (names.map Name.rank))
        rw [List.append_nil, ← List.map_cons, ← List.map_append, ← hlocation] at hlonger
        exact hlonger
      · exact hrest place hmem []
    · obtain ⟨first, names, hlocation, -⟩ := (mem_places_iff h₁).mp hinner
      rw [Place.rank, hlocation, List.append_assoc]
      exact hrest place hmem (first :: names)

namespace Archive

section Subtrees

variable {archive : Archive} {place other : Place}

theorem contiguous_placesAt (hmem : place ∈ archive.places) :
    place.tree.placesAt place.location <:+: archive.places := by
  rcases List.mem_cons.mp hmem with rfl | hmem
  · exact List.infix_rfl
  · exact (Forest.contiguous_placesAt hmem).trans (List.suffix_cons _ _).isInfix

/-- The directories from one on down are those at the locations that go through its own. -/
theorem mem_placesAt_iff (h : archive.WellFormed) (hmem : place ∈ archive.places) :
    other ∈ place.tree.placesAt place.location ↔
      other ∈ archive.places ∧ place.location <+: other.location := by
  have hfound : archive.root.descend? place.location = some place.tree := (mem_places_iff h).mp hmem
  have hordered := Tree.ordered_of_descend? h.ordered hfound
  refine ⟨fun hother => ?_, ?_⟩
  · refine ⟨(contiguous_placesAt hmem).subset hother, ?_⟩
    rcases List.mem_cons.mp hother with rfl | hother
    · exact List.prefix_rfl
    · obtain ⟨name, names, hlocation, -⟩ := (Forest.mem_places_iff hordered).mp hother
      exact ⟨name :: names, hlocation.symm⟩
  · rintro ⟨hother, more, hlocation⟩
    have hfound' : archive.root.descend? other.location = some other.tree :=
      (mem_places_iff h).mp hother
    rw [← hlocation, Tree.descend?_append, hfound, Option.bind_some] at hfound'
    cases more with
    | nil =>
      obtain ⟨location, tree⟩ := other
      obtain rfl : place.tree = tree := Option.some.inj hfound'
      rw [List.append_nil] at hlocation
      obtain rfl : place.location = location := hlocation
      exact List.mem_cons_self
    | cons name names =>
      exact List.mem_cons_of_mem _ ((Forest.mem_places_iff hordered).mpr
        ⟨name, names, hlocation.symm, hfound'⟩)

/-- The numbers from a directory on down are those that its links lead to. -/
theorem within_iff_mem_placesAt (h : archive.WellFormed) (hmem : place ∈ archive.places)
    {id : DirectoryId} :
    archive.Within place.id id ↔ id ∈ (place.tree.placesAt place.location).map Place.id := by
  rw [within_iff h (idAt_of_mem_places h hmem), List.mem_map]
  refine ⟨?_, ?_⟩
  · rintro ⟨location, hpre, hid⟩
    obtain ⟨tree, hplace⟩ := exists_place?_of_idAt h hid
    obtain ⟨hother, hid⟩ := (place?_eq_some_iff h).mp hplace
    exact ⟨_, (mem_placesAt_iff h hmem).mpr ⟨hother, hpre⟩, hid⟩
  · rintro ⟨other, hother, rfl⟩
    obtain ⟨hother, hpre⟩ := (mem_placesAt_iff h hmem).mp hother
    exact ⟨other.location, hpre, idAt_of_mem_places h hother⟩

theorem exists_above_of_parent? {location : Location} {parent : DirectoryId}
    (hparent : (archive.viewAt location).parent? = some parent) :
    ∃ above name, location = above ++ [name] ∧ archive.idAt above = some parent := by
  rcases List.eq_nil_or_concat' location with rfl | ⟨above, name, rfl⟩
  · cases hparent
  · refine ⟨above, name, rfl, ?_⟩
    rw [viewAt, if_neg (by simp), List.dropLast_concat] at hparent
    exact hparent

/-- All directories are listed in the order of their paths. -/
theorem pairwise_rank_places (h : archive.WellFormed) :
    archive.places.Pairwise fun a b => a.rank < b.rank := by
  refine List.pairwise_cons.mpr ⟨fun place hmem => ?_, Forest.pairwise_rank_places h.ordered []⟩
  obtain ⟨name, names, hlocation, -⟩ := (Forest.mem_places_iff h.ordered).mp hmem
  rw [Place.rank, Place.rank, hlocation]
  exact List.nil_lt_cons _ _

end Subtrees

/-! ## The main statement -/

/-- The loop can end with one list only. -/
theorem Lists.unique {archive : Archive} {stack listed others : List DirectoryId}
    (h : archive.Lists stack listed) (hother : archive.Lists stack others) : listed = others := by
  induction h generalizing others with
  | done =>
    cases hother
    rfl
  | visit live _ ih =>
    cases hother with
    | visit live' rest =>
      obtain rfl := Option.some.inj (live.symm.trans live')
      rw [ih rest]

/-- A list of directories that has each one once, the root first, all that is below one right
    behind it, and siblings in the order of their names. -/
structure DirectoriesListed (archive : Archive) (listed : List DirectoryId) : Prop where
  mem_iff : ∀ id, id ∈ listed ↔ (archive.place? id).isSome
  linked : ∀ id, id ∈ listed ↔ archive.Within rootId id
  nodup : listed.Nodup
  first : listed.head? = some rootId
  subtree : ∀ id ∈ listed, ∃ before inside after, listed = before ++ (id :: inside) ++ after ∧
    ∀ other, other ∈ inside ↔ archive.Within id other ∧ other ≠ id
  siblings : listed.Pairwise fun id other => ∀ view view' parent,
    archive.view? id = some view → archive.view? other = some view' →
    view.parent? = some parent → view'.parent? = some parent →
      Name.rank view.name < Name.rank view'.name

/-- A list of files that has each one once, those of a directory together and in the order of
    their names and keys, and the directories in the order in which they are listed. -/
structure FilesListed (archive : Archive) (listed : List StoredFile) : Prop where
  mem_iff : ∀ file, file ∈ listed ↔ archive.file? file.address = some file
  nodup : listed.Nodup
  grouped : ∃ rows : List (List StoredFile), listed = rows.flatten ∧
    List.Forall₂ (fun place row => (∀ file ∈ row, file.place = place) ∧
      row.Pairwise fun a b => a.entry.rank < b.entry.rank) archive.places rows

section Main

variable {archive : Archive} (h : archive.WellFormed)
include h

/-- What is below a directory is listed right behind it. -/
theorem exists_listed_behind {place : Place} (hmem : place ∈ archive.places) :
    ∃ before inside after,
      archive.places.map Place.id = before ++ (place.id :: inside) ++ after ∧
      ∀ other, other ∈ inside ↔ archive.Within place.id other ∧ other ≠ place.id := by
  obtain ⟨before, after, hlisted⟩ := contiguous_placesAt hmem
  have hsplit : archive.places.map Place.id = before.map Place.id
      ++ (place.id :: (place.tree.below.places place.location).map Place.id)
      ++ after.map Place.id := by
    rw [← hlisted, List.map_append, List.map_append]
    rfl
  refine ⟨_, _, _, hsplit, fun other => ?_⟩
  -- No directory is listed twice, so the first one is not among those behind it.
  have hnodup := nodup_ids h
  rw [hsplit, List.nodup_append, List.nodup_append, List.nodup_cons] at hnodup
  obtain ⟨⟨-, ⟨hnot, -⟩, -⟩, -⟩ := hnodup
  rw [within_iff_mem_placesAt h hmem, Tree.placesAt, List.map_cons, List.mem_cons]
  refine ⟨fun hother => ⟨Or.inr hother, ?_⟩, fun hother => hother.1.resolve_left hother.2⟩
  rintro rfl
  exact hnot hother

/-- Of two directories in one, the one that is listed first has the name that comes first. -/
theorem rank_name_lt_of_rank_lt {place other : Place} (hmem : place ∈ archive.places)
    (hother : other ∈ archive.places) (hlt : place.rank < other.rank) {view view' : DirectoryView}
    {parent : DirectoryId} (hview : archive.view? place.id = some view)
    (hview' : archive.view? other.id = some view') (hparent : view.parent? = some parent)
    (hparent' : view'.parent? = some parent) : Name.rank view.name < Name.rank view'.name := by
  have hid := idAt_of_mem_places h hmem
  have hid' := idAt_of_mem_places h hother
  obtain rfl := Option.some.inj ((view?_of_idAt h hid).symm.trans hview)
  obtain rfl := Option.some.inj ((view?_of_idAt h hid').symm.trans hview')
  -- Both paths go through the directory above, so they part at the last names.
  obtain ⟨above, name, hlocation, habove⟩ := exists_above_of_parent? hparent
  obtain ⟨above', name', hlocation', habove'⟩ := exists_above_of_parent? hparent'
  obtain rfl := eq_of_idAt_eq h habove habove'
  rw [Place.rank, Place.rank, hlocation, hlocation', List.map_append, List.map_append,
    append_lt_append_iff, List.map_singleton, List.map_singleton, List.cons_lt_cons_iff] at hlt
  rw [viewAt, viewAt, hlocation, hlocation', List.getLast?_concat, List.getLast?_concat]
  exact hlt.resolve_right fun hnil => absurd hnil.2 (lt_irrefl _)

theorem directoriesListed_of_wellFormed :
    DirectoriesListed archive (archive.places.map Place.id) := by
  have hroot : (⟨[], archive.root⟩ : Place) ∈ archive.places := List.mem_cons_self
  have hrootId : (⟨[], archive.root⟩ : Place).id = rootId := h.root_id
  refine ⟨fun id => ?_, fun id => ?_, nodup_ids h, congrArg some hrootId, fun id hmem => ?_, ?_⟩
  · rw [List.mem_map, Option.isSome_iff_exists]
    exact exists_congr fun place => (place?_eq_some_iff h).symm
  · rw [← hrootId, within_iff_mem_placesAt h hroot]
    rfl
  · obtain ⟨place, hplace, rfl⟩ := List.mem_map.mp hmem
    exact exists_listed_behind h hplace
  · rw [List.pairwise_map]
    exact (pairwise_rank_places h).imp_of_mem fun hplace hother hlt _ _ _ =>
      rank_name_lt_of_rank_lt h hplace hother hlt

/-- The file at an address of the archive is one of its files. -/
theorem mem_files_of_file? {address : FileAddress} {file : StoredFile}
    (hfile : archive.file? address = some file) : file ∈ archive.files := by
  rw [file?, Option.bind_eq_bind, Option.bind_eq_some_iff] at hfile
  obtain ⟨tree, htree, hfile⟩ := hfile
  rw [Option.bind_eq_bind, Option.bind_eq_some_iff] at hfile
  obtain ⟨entry, hentry, hfile⟩ := hfile
  obtain rfl : ⟨⟨address.location, tree⟩, entry⟩ = file := Option.some.inj hfile
  exact mem_files_iff.mpr ⟨(mem_places_iff h).mpr htree, List.mem_of_find?_eq_some hentry⟩

theorem filesListed_of_wellFormed : FilesListed archive archive.files := by
  refine ⟨fun file => ⟨file?_address h, mem_files_of_file? h⟩, nodup_files h,
    archive.places.map fun place => place.tree.label.listing.map (StoredFile.mk place), rfl, ?_⟩
  rw [List.forall₂_map_right_iff, List.forall₂_same]
  intro place hplace
  have hsound := h.sound _ (label_mem_of_mem_places hplace)
  refine ⟨fun file hfile => ?_, ?_⟩
  · obtain ⟨entry, -, rfl⟩ := List.mem_map.mp hfile
    rfl
  · rw [List.pairwise_map]
    exact hsound.pairwise_listing.imp Entry.before_iff_rank_lt.mp

end Main

/-- The loop over the directories ends, and always with the same list; it has every directory once,
    in the order of the names, however the tables hold the subdirectories.  Every file is listed
    once, after the same order of the directories. -/
theorem listed_in_order {archive : Archive} (h : Reachable archive) :
    (∀ listed, archive.Lists [rootId] listed ↔ listed = archive.places.map Place.id) ∧
    (∀ place ∈ archive.places, ∀ table, place.IsTable table →
      inOrder table = place.subdirectories) ∧
    DirectoriesListed archive (archive.places.map Place.id) ∧
    FilesListed archive archive.files := by
  have hformed := h.wellFormed
  refine ⟨fun listed => ⟨fun hlists => hlists.unique (lists_places hformed), ?_⟩,
    fun place hmem table htable => ?_, directoriesListed_of_wellFormed hformed,
    filesListed_of_wellFormed hformed⟩
  · rintro rfl
    exact lists_places hformed
  · have hfound : archive.root.descend? place.location = some place.tree :=
      (mem_places_iff hformed).mp hmem
    exact inOrder_eq_subdirectories (Tree.ordered_of_descend? hformed.ordered hfound) htable

/-- Files of directories whose names differ in case and come in no order. -/
def casedFiles : List Addition :=
  ["b/z", "B2/y", "a/Y", "a/x", "C", "a/sub/q"].map fun path => ⟨path, .ofBytes []⟩

/-- Upper and lower case do not part the directories and files that are listed. -/
theorem listed_in_order_cased :
    ∃ archive, addEach (new "root") casedFiles = .ok archive ∧
      (∀ listed, archive.Lists [rootId] listed ↔ listed = [0, 3, 4, 1, 2]) ∧
      DirectoriesListed archive [0, 3, 4, 1, 2] ∧ FilesListed archive archive.files ∧
      archive.files.map StoredFile.relativePath
        = ["C", "a/x", "a/Y", "a/sub/q", "b/z", "B2/y"] := by
  have hany : (addEach (new "root") casedFiles).toOption.any (fun archive =>
      archive.places.map Place.id = [0, 3, 4, 1, 2] ∧ archive.files.map StoredFile.relativePath
        = ["C", "a/x", "a/Y", "a/sub/q", "b/z", "B2/y"]) = true := by decide +kernel
  obtain ⟨archive, hrun, hanswers⟩ := Outcome.exists_of_any hany
  obtain ⟨hdirectories, hfiles⟩ := of_decide_eq_true hanswers
  obtain ⟨hloop, -, hlisted, hfilesListed⟩ :=
    listed_in_order (reachable_addEach (.new "root") hrun)
  rw [hdirectories] at hloop hlisted
  exact ⟨archive, hrun, hloop, hlisted, hfilesListed, hfiles⟩

end Archive

end HashArchive
