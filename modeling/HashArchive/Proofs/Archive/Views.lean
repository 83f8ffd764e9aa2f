/-
  HashArchive.Proofs.Archive.Views

  Directories as their numbers show them (`DirectoryView`).  What a number shows is what is at
  the location of its directory (`view?_eq_some_iff`), so an operation is described for all
  directories at once by what it makes of the locations.
-/
import Mathlib
import HashArchive.Proofs.Archive.Walks

namespace HashArchive

/-- What the number of a directory shows: its name, the directory above, the subdirectories by
    their names, and the files. -/
structure DirectoryView where
  name : String
  parent? : Option DirectoryId
  subdirectory? : String → Option DirectoryId
  files : List Entry

namespace Archive

/-- What a number shows, unless there is no directory with it. -/
def view? (archive : Archive) (id : DirectoryId) : Option DirectoryView :=
  (archive.place? id).map fun place =>
    { name := place.name, parent? := archive.parent? place,
      subdirectory? := place.subdirectory?, files := place.tree.label.files }

/-- What is at a location. -/
def viewAt (archive : Archive) (location : Location) : DirectoryView where
  name := location.getLast?.getD archive.name
  parent? := if location = [] then none else archive.idAt location.dropLast
  subdirectory? name := archive.idAt (location ++ [name])
  files := archive.held location

section Views

variable {archive : Archive} {location other : Location} {id : DirectoryId} {place : Place}
  {view : DirectoryView}

/-- A directory has the name that leads to it, or the root's own. -/
theorem name_eq_of_mem_places (h : archive.WellFormed) (hmem : place ∈ archive.places) :
    place.name = place.location.getLast?.getD archive.name := by
  obtain ⟨location, tree⟩ := place
  rcases List.eq_nil_or_concat' location with rfl | ⟨above, name, rfl⟩
  · have hroot : archive.descend? [] = some tree := (mem_places_iff h).mp hmem
    obtain rfl : archive.root = tree := Option.some.inj hroot
    rfl
  · rw [List.getLast?_concat, Option.getD_some]
    exact name_of_mem_places h hmem

/-- A number is that of one location only. -/
theorem eq_of_idAt_eq (h : archive.WellFormed) (hid : archive.idAt location = some id)
    (hother : archive.idAt other = some id) : location = other := by
  obtain ⟨tree, hplace⟩ := exists_place?_of_idAt h hid
  obtain ⟨tree', hplace'⟩ := exists_place?_of_idAt h hother
  rw [hplace, Option.some.injEq, Place.mk.injEq] at hplace'
  exact hplace'.1

theorem isSome_place?_iff (h : archive.WellFormed) :
    (archive.place? id).isSome ↔ ∃ location, archive.idAt location = some id := by
  constructor
  · intro hplace
    obtain ⟨place, hplace⟩ := Option.isSome_iff_exists.mp hplace
    exact ⟨place.location, idAt_of_place? h hplace⟩
  · rintro ⟨location, hid⟩
    obtain ⟨tree, hplace⟩ := exists_place?_of_idAt h hid
    exact Option.isSome_of_eq_some hplace

/-- A number shows what is at its location. -/
theorem view?_eq_some_iff (h : archive.WellFormed) :
    archive.view? id = some view ↔
      ∃ location, archive.idAt location = some id ∧ archive.viewAt location = view := by
  have hview : ∀ {place}, archive.place? id = some place →
      archive.view? id = some (archive.viewAt place.location) := by
    intro place hplace
    obtain ⟨hmem, -⟩ := (place?_eq_some_iff h).mp hplace
    rw [view?, hplace, Option.map_some, viewAt, name_eq_of_mem_places h hmem, parent?_eq_idAt,
      held_of_mem_places h hmem, funext (subdirectory?_eq_idAt h hplace)]
  constructor
  · intro hfound
    obtain ⟨place, hplace, -⟩ := Option.map_eq_some_iff.mp hfound
    rw [hview hplace] at hfound
    exact ⟨place.location, idAt_of_place? h hplace, Option.some.inj hfound⟩
  · rintro ⟨location, hid, rfl⟩
    obtain ⟨tree, hplace⟩ := exists_place?_of_idAt h hid
    exact hview hplace

theorem view?_of_idAt (h : archive.WellFormed) (hid : archive.idAt location = some id) :
    archive.view? id = some (archive.viewAt location) :=
  (view?_eq_some_iff h).mpr ⟨location, hid, rfl⟩

theorem view?_eq_none_iff (h : archive.WellFormed) :
    archive.view? id = none ↔ ∀ location, archive.idAt location ≠ some id := by
  rw [view?, Option.map_eq_none_iff, ← Option.not_isSome_iff_eq_none, isSome_place?_iff h,
    not_exists]

/-- Where a number stays that of the same location, what it shows changes as the location
    does. -/
theorem view?_eq_map {after : Archive} (h : archive.WellFormed) (hafter : after.WellFormed)
    {f : DirectoryView → DirectoryView}
    (hids : ∀ location, after.idAt location = some id ↔ archive.idAt location = some id)
    (hviews : ∀ location, archive.idAt location = some id →
      after.viewAt location = f (archive.viewAt location)) :
    after.view? id = (archive.view? id).map f := by
  cases hview : archive.view? id with
  | none =>
    rw [Option.map_none, view?_eq_none_iff hafter]
    exact fun location hid => (view?_eq_none_iff h).mp hview location ((hids location).mp hid)
  | some view =>
    obtain ⟨location, hid, rfl⟩ := (view?_eq_some_iff h).mp hview
    rw [view?_of_idAt hafter ((hids location).mpr hid), hviews location hid, Option.map_some]

end Views

/-! ## What changes of the tree show -/

section Changes

variable {archive : Archive} {location : Location} {name : String} {top id : DirectoryId}
  {f : List Entry → List Entry}

theorem view?_setName (h : archive.WellFormed) (name : String) (id : DirectoryId) :
    (archive.setName name).view? id
      = (archive.view? id).map fun view => if id = rootId then { view with name } else view := by
  have hids : ∀ location, (archive.setName name).idAt location = archive.idAt location := by
    intro location
    cases location with
    | nil => rfl
    | cons first rest => rfl
  have hheld : ∀ location, (archive.setName name).held location = archive.held location := by
    intro location
    cases location with
    | nil => rfl
    | cons first rest => rfl
  have hroot : archive.idAt [] = some rootId := congrArg some h.root_id
  refine view?_eq_map h (wellFormed_setName h name) (fun other => by rw [hids]) fun other hother => ?_
  rw [viewAt, hids, hheld, funext fun first => hids (other ++ [first])]
  by_cases hid : id = rootId
  · obtain rfl := eq_of_idAt_eq h hother (hid ▸ hroot)
    rw [if_pos hid]
    rfl
  · have hne : other ≠ [] := by
      rintro rfl
      exact hid (Option.some.inj (hother.symm.trans hroot))
    obtain ⟨last, hlast⟩ := Option.ne_none_iff_exists'.mp (mt List.getLast?_eq_none_iff.mp hne)
    rw [if_neg hid, viewAt, hlast]
    rfl

/-- The new directory shows the one above, which shows the new one; nothing else changes. -/
theorem view?_addDirectory (h : archive.WellFormed)
    (hformed : (archive.addDirectory location name).WellFormed)
    (htop : archive.idAt location = some top) (hmissing : ¬ archive.Live (location ++ [name]))
    (id : DirectoryId) :
    (archive.addDirectory location name).view? id
      = if id = archive.nextId then
          some { name, parent? := some top, subdirectory? := fun _ => none, files := [] }
        else (archive.view? id).map fun view =>
          if id = top then
            { view with
              subdirectory? := fun first =>
                if first = name then some archive.nextId else view.subdirectory? first }
          else view := by
  have hlive := live_of_idAt htop
  have hids := idAt_addDirectory hlive hmissing
  have hname := name_addDirectory archive location name
  have hheld : ∀ other, (archive.addDirectory location name).held other = archive.held other := by
    intro other
    have hstep := held_enter hlive (.name name) other
    rwa [enter_name_of_not_live hmissing] at hstep
  -- There is no directory below one that is missing.
  have hbelow : ∀ {other : Location}, archive.Live other → ¬ location ++ [name] <+: other := by
    rintro other hother ⟨more, rfl⟩
    exact hmissing (Tree.isSome_of_descend?_append hother)
  by_cases hnew : id = archive.nextId
  · have hid : (archive.addDirectory location name).idAt (location ++ [name]) = some id := by
      rw [hids, if_pos rfl, hnew]
    have hnone : ∀ first, (archive.addDirectory location name).idAt (location ++ [name] ++ [first])
        = none := by
      intro first
      rw [hids, if_neg (by simp), ← Option.not_isSome_iff_eq_none, ← live_iff_idAt]
      exact fun hthere => hbelow hthere (List.prefix_append _ _)
    have hup : (archive.addDirectory location name).idAt (location ++ [name]).dropLast = some top := by
      rw [List.dropLast_concat, hids, if_neg (by simp), htop]
    rw [if_pos hnew, view?_of_idAt hformed hid, viewAt, hup, hheld, funext hnone, held,
      filesAt_of_not_live hmissing, List.getLast?_concat, if_neg (by simp)]
    rfl
  · rw [if_neg hnew]
    refine view?_eq_map h hformed (fun other => ?_) fun other hother => ?_
    · rw [hids]
      split
      · next heq =>
        rw [heq]
        refine iff_of_false (fun hsome => hnew (Option.some.inj hsome).symm) fun hsome => ?_
        exact hmissing (live_of_idAt hsome)
      · rfl
    · have hsame : other = location ↔ id = top := by
        constructor
        · rintro rfl
          exact Option.some.inj (hother.symm.trans htop)
        · rintro rfl
          exact eq_of_idAt_eq h hother htop
      have hthere := live_of_idAt hother
      have hup : (archive.addDirectory location name).idAt other.dropLast
          = archive.idAt other.dropLast := by
        rw [hids, if_neg]
        intro heq
        exact hbelow (live_dropLast hthere) (heq ▸ List.prefix_refl _)
      have hdown : ∀ first, (archive.addDirectory location name).idAt (other ++ [first])
          = if id = top ∧ first = name then some archive.nextId
            else archive.idAt (other ++ [first]) := by
        intro first
        rw [hids]
        refine if_congr ?_ rfl rfl
        rw [← hsame]
        simp
      rw [viewAt, hname, hup, hheld, funext hdown]
      by_cases htop' : id = top
      · simp [htop', viewAt]
      · simp [htop', viewAt]

theorem viewAt_changeFiles (hlive : archive.Live location) (other : Location) :
    (archive.changeFiles location f).viewAt other
      = if other = location then
          { archive.viewAt other with files := f (archive.viewAt other).files }
        else archive.viewAt other := by
  have hname : (archive.changeFiles location f).name = archive.name :=
    Tree.name_update (f := Tree.updateRoot (·.changeFiles f)) (fun _ => rfl) archive.root location
  rw [viewAt, hname, funext (idAt_changeFiles archive location f), held_changeFiles hlive]
  by_cases hother : other = location
  · rw [if_pos hother, if_pos hother, ← hother]
    rfl
  · rw [if_neg hother, if_neg hother]
    rfl

/-- Only the files of the one directory are others. -/
theorem view?_changeFiles (h : archive.WellFormed)
    (hformed : (archive.changeFiles location f).WellFormed)
    (htop : archive.idAt location = some top) :
    (archive.changeFiles location f).view? id
      = (archive.view? id).map fun view =>
          if id = top then { view with files := f view.files } else view := by
  refine view?_eq_map h hformed (fun other => ?_) fun other hother => ?_
  · rw [idAt_changeFiles]
  · have hsame : other = location ↔ id = top := by
      constructor
      · rintro rfl
        exact Option.some.inj (hother.symm.trans htop)
      · rintro rfl
        exact eq_of_idAt_eq h hother htop
    rw [viewAt_changeFiles (live_of_idAt htop)]
    simp only [hsame]

end Changes

end Archive

end HashArchive
