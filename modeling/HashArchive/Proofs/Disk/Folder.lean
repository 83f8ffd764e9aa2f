/-
  HashArchive.Proofs.Disk.Folder

  What a change of a disk does to what is at each trail.  Only what kind of item stands at a
  trail is told (`kindAt?`), so a change deep in a folder leaves the folder what it was, and a
  new item changes the one trail it is put at (`kindAt?_putAt`).  A disk that was changed within
  one folder only is described by what that folder holds afterwards (`Filled`).
-/
import Mathlib
import HashArchive.Disk.Folder

namespace HashArchive

namespace Item

@[simp] theorem kind_eq_folder_iff {item : Item} :
    item.kind = .folder ↔ ∃ inside, item = .folder inside := by
  cases item <;> simp [kind]

@[simp] theorem kind_eq_file_iff {item : Item} {data : Bytes} :
    item.kind = .file data ↔ item = .file data := by
  cases item <;> simp [kind]

@[simp] theorem kind_eq_link_iff {item : Item} {target : String} :
    item.kind = .link target ↔ item = .link target := by
  cases item <;> simp [kind]

end Item

namespace Folder

/-! ## Items by their names -/

/-- A folder is empty or begins with an item, of whatever kind. -/
@[elab_as_elim]
theorem cons_induction {motive : Folder → Prop} (empty : motive empty)
    (cons : ∀ name item rest, (∀ inside, item = .folder inside → motive inside) → motive rest →
      motive (cons name item rest)) (folder : Folder) : motive folder := by
  induction folder with
  | empty => exact empty
  | file name data rest ih => exact cons name (.file data) rest (fun _ heq => nomatch heq) ih
  | link name target rest ih => exact cons name (.link target) rest (fun _ heq => nomatch heq) ih
  | folder name inside rest ihInside ih =>
    exact cons name (.folder inside) rest (fun _ heq => Item.folder.inj heq ▸ ihInside) ih

@[simp] theorem get?_cons (name : String) (item : Item) (rest : Folder) (other : String) :
    (cons name item rest).get? other = if name = other then some item else rest.get? other := by
  cases item <;> rfl

theorem put_cons (name other : String) (item old : Item) (rest : Folder) :
    (cons other old rest).put name item
      = if other < name then cons other old (rest.put name item)
        else if other = name then cons name item rest
        else cons name item (cons other old rest) := by
  cases old <;> rfl

@[simp] theorem get?_put (folder : Folder) (name : String) (item : Item) (other : String) :
    (folder.put name item).get? other = if name = other then some item else folder.get? other := by
  induction folder using cons_induction with
  | empty => exact get?_cons name item empty other
  | cons first old rest _ ih =>
    rw [put_cons]
    by_cases hbefore : first < name
    · have hne : first ≠ name := ne_of_lt hbefore
      rw [if_pos hbefore, get?_cons, get?_cons, ih]
      by_cases hfirst : first = other
      · rw [if_pos hfirst, if_pos hfirst, if_neg fun h => hne (hfirst.trans h.symm)]
      · rw [if_neg hfirst, if_neg hfirst]
    · rw [if_neg hbefore]
      by_cases hsame : first = name
      · subst hsame
        rw [if_pos rfl, get?_cons, get?_cons]
        split <;> rfl
      · rw [if_neg hsame, get?_cons]

/-! ## Items by their trails -/

variable {top inside : Folder} {trail : Trail} {item : Item}

@[simp] theorem at?_nil (top : Folder) : top.at? [] = some (.folder top) := rfl

theorem ne_nil_of_at?_file {data : Bytes} (h : top.at? trail = some (.file data)) : trail ≠ [] := by
  rintro rfl
  cases h

@[simp] theorem at?_empty {names : Trail} (h : names ≠ []) : empty.at? names = none := by
  cases names with
  | nil => exact absurd rfl h
  | cons name names => rfl

theorem at?_cons (top : Folder) (name : String) (names : Trail) :
    top.at? (name :: names) = match top.get? name with
      | some (.folder inside) => inside.at? names
      | some item => if names = [] then some item else none
      | none => none := by
  rewrite [at?]
  rfl

theorem at?_cons_of_folder {name : String} (h : top.get? name = some (.folder inside))
    (names : Trail) : top.at? (name :: names) = inside.at? names := by
  rw [at?_cons, h]

theorem at?_cons_of_no_folder {name : String} (h : ∀ inside, top.get? name ≠ some (.folder inside))
    (names : Trail) : top.at? (name :: names) = if names = [] then top.get? name else none := by
  rw [at?_cons]
  split
  · next inside hfound => exact absurd hfound (h inside)
  · next hfound => rw [hfound]
  · next hfound => rw [hfound, ite_self]

@[simp] theorem at?_singleton (top : Folder) (name : String) : top.at? [name] = top.get? name := by
  rw [at?_cons]
  split
  · next hfound => rw [hfound, at?_nil]
  · next hfound => rw [hfound, if_pos rfl]
  · next hfound => rw [hfound]

/-- What is below a folder is found from there. -/
theorem at?_append (h : top.at? trail = some (.folder inside)) (names : Trail) :
    top.at? (trail ++ names) = inside.at? names := by
  induction trail generalizing top with
  | nil =>
    obtain rfl : top = inside := by simpa using h
    rfl
  | cons name trail ih =>
    by_cases hfolder : ∃ between, top.get? name = some (.folder between)
    · obtain ⟨between, hbetween⟩ := hfolder
      rw [at?_cons_of_folder hbetween] at h
      rw [List.cons_append, at?_cons_of_folder hbetween, ih h]
    · rw [not_exists] at hfolder
      rw [at?_cons_of_no_folder hfolder] at h
      split at h
      · exact absurd h (hfolder inside)
      · cases h

theorem at?_concat (h : top.at? trail = some (.folder inside)) (name : String) :
    top.at? (trail ++ [name]) = inside.get? name := by
  rw [at?_append h, at?_singleton]

/-- An item with something below it is a folder. -/
theorem exists_folder_of_at?_append {names : Trail} (hne : names ≠ [])
    (h : top.at? (trail ++ names) = some item) : ∃ inside, top.at? trail = some (.folder inside) := by
  induction trail generalizing top with
  | nil => exact ⟨top, rfl⟩
  | cons name trail ih =>
    by_cases hfolder : ∃ between, top.get? name = some (.folder between)
    · obtain ⟨between, hbetween⟩ := hfolder
      rw [List.cons_append, at?_cons_of_folder hbetween] at h
      obtain ⟨inside, hinside⟩ := ih h
      exact ⟨inside, by rw [at?_cons_of_folder hbetween, hinside]⟩
    · rw [not_exists] at hfolder
      rw [List.cons_append, at?_cons_of_no_folder hfolder, if_neg (by simp [hne])] at h
      cases h

/-! ## Kinds by trails -/

/-- The kind of the item at a trail. -/
def kindAt? (top : Folder) (trail : Trail) : Option ItemKind := (top.at? trail).map Item.kind

end Folder

/-- The kind of what is at a trail from an item on. -/
def Item.kindAt? (item : Item) (names : Trail) : Option ItemKind :=
  match item with
  | .folder inside => inside.kindAt? names
  | item => if names = [] then some item.kind else none

theorem Item.kindAt?_nil (item : Item) : item.kindAt? [] = some item.kind := by
  cases item <;> rfl

namespace Folder

variable {top inside : Folder} {trail : Trail} {item : Item}

@[simp] theorem kindAt?_nil (top : Folder) : top.kindAt? [] = some .folder := rfl

theorem kindAt?_eq_folder_iff :
    top.kindAt? trail = some .folder ↔ ∃ inside, top.at? trail = some (.folder inside) := by
  simp [kindAt?]

theorem kindAt?_eq_file_iff {data : Bytes} :
    top.kindAt? trail = some (.file data) ↔ top.at? trail = some (.file data) := by
  simp [kindAt?]

theorem kindAt?_eq_none_iff : top.kindAt? trail = none ↔ top.at? trail = none := by
  simp [kindAt?]

theorem kindAt?_append (h : top.at? trail = some (.folder inside)) (names : Trail) :
    top.kindAt? (trail ++ names) = inside.kindAt? names := by
  rw [kindAt?, at?_append h, kindAt?]

theorem kindAt?_cons (top : Folder) (name : String) (names : Trail) :
    top.kindAt? (name :: names) = (top.get? name).bind (·.kindAt? names) := by
  rw [kindAt?, at?_cons]
  rcases top.get? name with - | (data | target | inside)
  · rfl
  · cases names <;> rfl
  · cases names <;> rfl
  · rfl

theorem kindAt?_cons_of_folder {name : String} (h : top.get? name = some (.folder inside))
    (names : Trail) : top.kindAt? (name :: names) = inside.kindAt? names := by
  rw [kindAt?_cons, h]
  rfl

/-- Below what is not a folder there is nothing. -/
theorem kindAt?_append_eq_none {names : Trail} (hne : names ≠ [])
    (h : top.kindAt? trail ≠ some .folder) : top.kindAt? (trail ++ names) = none := by
  rw [kindAt?_eq_none_iff]
  by_contra hsome
  obtain ⟨item, hitem⟩ := Option.ne_none_iff_exists'.mp hsome
  exact h (kindAt?_eq_folder_iff.mpr (exists_folder_of_at?_append hne hitem))

/-- A trail to something leads through folders. -/
theorem kindAt?_eq_folder_above {front : Trail} (h : top.kindAt? trail ≠ none)
    (hfront : front <+: trail) (hne : front ≠ trail) : top.kindAt? front = some .folder := by
  obtain ⟨names, rfl⟩ := hfront
  by_contra hfolder
  exact h (kindAt?_append_eq_none (fun hnil => hne (by simp [hnil])) hfolder)

/-! ## Putting items at trails -/

theorem putAt_cons {name : String} {names : Trail} (hne : names ≠ [])
    (h : top.get? name = some (.folder inside)) (item : Item) :
    top.putAt item (name :: names) = top.put name (.folder (inside.putAt item names)) := by
  cases names with
  | nil => exact absurd rfl hne
  | cons other names => rw [putAt, h]; simp

/-- What an item is put at in a folder is put there from the top. -/
theorem at?_putAt_append (h : top.at? trail = some (.folder inside)) {names : Trail}
    (hne : names ≠ []) (item : Item) :
    (top.putAt item (trail ++ names)).at? trail = some (.folder (inside.putAt item names)) := by
  induction trail generalizing top with
  | nil =>
    obtain rfl : top = inside := by simpa using h
    rfl
  | cons name trail ih =>
    by_cases hfolder : ∃ between, top.get? name = some (.folder between)
    · obtain ⟨between, hbetween⟩ := hfolder
      rw [at?_cons_of_folder hbetween] at h
      rw [List.cons_append, putAt_cons (by simp [hne]) hbetween,
        at?_cons_of_folder (by rw [get?_put, if_pos rfl]), ih h]
    · rw [not_exists] at hfolder
      rw [at?_cons_of_no_folder hfolder] at h
      split at h
      · exact absurd h (hfolder inside)
      · cases h

theorem putAt_cons_of_no_folder {name : String} {names : Trail} (hne : names ≠ [])
    (h : ∀ inside, top.get? name ≠ some (.folder inside)) (item : Item) :
    top.putAt item (name :: names) = top := by
  cases names with
  | nil => exact absurd rfl hne
  | cons other names =>
    rw [putAt]
    · split
      · next inside hfound => exact absurd hfound (h inside)
      · rfl
    · simp

theorem kindAt?_cons_congr {other : Folder} {name : String} (h : top.get? name = other.get? name)
    (names : Trail) : top.kindAt? (name :: names) = other.kindAt? (name :: names) := by
  rw [kindAt?_cons, kindAt?_cons, h]

/-- Elsewhere there stays what was there, though a folder may hold other things. -/
theorem kindAt?_putAt_elsewhere {other : Trail} (h : ¬ trail <+: other) (names : Trail)
    (item : Item) : (top.putAt item (trail ++ names)).kindAt? other = top.kindAt? other := by
  induction trail generalizing top other with
  | nil => exact absurd List.nil_prefix h
  | cons name trail ih =>
    cases other with
    | nil => rfl
    | cons first other =>
      have hput (item : Item) (hne : first ≠ name) :
          (top.put name item).kindAt? (first :: other) = top.kindAt? (first :: other) :=
        kindAt?_cons_congr (by rw [get?_put, if_neg hne.symm]) other
      by_cases hlast : trail ++ names = []
      · obtain ⟨rfl, rfl⟩ := List.append_eq_nil_iff.mp hlast
        refine hput item fun hsame => h ?_
        exact hsame ▸ List.prefix_append [first] other
      · by_cases hfolder : ∃ between, top.get? name = some (.folder between)
        · obtain ⟨between, hbetween⟩ := hfolder
          rw [List.cons_append, putAt_cons hlast hbetween]
          by_cases hsame : first = name
          · subst hsame
            rw [kindAt?_cons_of_folder (by rw [get?_put, if_pos rfl]),
              kindAt?_cons_of_folder hbetween]
            exact ih fun hfront => h (List.cons_prefix_cons.mpr ⟨rfl, hfront⟩)
          · exact hput _ hsame
        · rw [List.cons_append, putAt_cons_of_no_folder hlast (not_exists.mp hfolder)]

/-- A new item in a folder, which holds nothing itself, changes its own trail and no other. -/
theorem kindAt?_putAt {above : Trail} {name : String} (h : top.kindAt? above = some .folder)
    (hlast : top.kindAt? (above ++ [name]) ≠ some .folder)
    (hbare : ∀ inside, item = .folder inside → inside = .empty) (other : Trail) :
    (top.putAt item (above ++ [name])).kindAt? other
      = if other = above ++ [name] then some item.kind else top.kindAt? other := by
  by_cases hfront : above ++ [name] <+: other
  · obtain ⟨names, rfl⟩ := hfront
    obtain ⟨inside, hinside⟩ := kindAt?_eq_folder_iff.mp h
    have habove := at?_putAt_append hinside (by simp : [name] ≠ []) item
    rw [show above ++ [name] ++ names = above ++ (name :: names) by simp, kindAt?_append habove]
    have hget : (inside.putAt item [name]).get? name = some item := by
      rw [show inside.putAt item [name] = inside.put name item from rfl, get?_put, if_pos rfl]
    cases names with
    | nil => rw [if_pos (by simp), kindAt?, at?_singleton, hget, Option.map_some]
    | cons first names =>
      have hnone : top.kindAt? (above ++ [name] ++ first :: names) = none :=
        kindAt?_append_eq_none (by simp) hlast
      rw [List.append_assoc, List.singleton_append] at hnone
      rw [if_neg (by simp), hnone, kindAt?_eq_none_iff]
      by_cases hfolder : ∃ inside, item = .folder inside
      · obtain ⟨below, rfl⟩ := hfolder
        obtain rfl := hbare below rfl
        rw [at?_cons_of_folder hget, at?_empty (by simp)]
      · rw [at?_cons_of_no_folder (by simpa [hget] using hfolder), if_neg (by simp)]
  · have hne : other ≠ above ++ [name] := fun heq => hfront (heq ▸ List.prefix_refl _)
    have hsame : (top.putAt item (above ++ [name] ++ [])).kindAt? other = top.kindAt? other :=
      kindAt?_putAt_elsewhere hfront [] item
    rw [List.append_nil] at hsame
    rw [hsame, if_neg hne]

/-! ## Changes within one folder -/

/-- A disk after changes in the folder at a trail, which now holds other items. -/
structure Filled (disk : Folder) (trail : Trail) (inside after : Folder) : Prop where
  within : after.at? trail = some (.folder inside)
  outside : ∀ other, ¬ trail <+: other → after.kindAt? other = disk.kindAt? other

namespace Filled

variable {disk after : Folder}

theorem refl (h : disk.at? trail = some (.folder inside)) : Filled disk trail inside disk :=
  ⟨h, fun _ _ => rfl⟩

theorem kindAt?_append (h : Filled disk trail inside after) (names : Trail) :
    after.kindAt? (trail ++ names) = inside.kindAt? names :=
  Folder.kindAt?_append h.within names

theorem putAt (h : Filled disk trail inside after) {names : Trail} (hne : names ≠ [])
    (item : Item) :
    Filled disk trail (inside.putAt item names) (after.putAt item (trail ++ names)) where
  within := at?_putAt_append h.within hne item
  outside other hother := by
    rw [kindAt?_putAt_elsewhere hother names item, h.outside other hother]

/-- When the folder was empty, everything on the disk is where it was. -/
theorem kindAt?_eq_of_some (h : Filled disk trail inside after)
    (hempty : disk.at? trail = some (.folder .empty)) {other : Trail} {kind : ItemKind}
    (hkind : disk.kindAt? other = some kind) : after.kindAt? other = some kind := by
  by_cases hfront : trail <+: other
  · obtain ⟨names, rfl⟩ := hfront
    rw [Folder.kindAt?_append hempty] at hkind
    rw [h.kindAt?_append]
    cases names with
    | nil => exact hkind
    | cons name names =>
      rw [kindAt?, at?_empty (by simp)] at hkind
      cases hkind
  · rw [h.outside other hfront, hkind]

end Filled

/-- A folder without links at any depth. -/
def NoLinks (folder : Folder) : Prop :=
  ∀ trail target, folder.kindAt? trail ≠ some (.link target)

theorem noLinks_empty : NoLinks .empty := by
  intro trail target
  cases trail with
  | nil => simp
  | cons name names => simp [kindAt?]

end Folder

end HashArchive
