/-
  HashArchive.Proofs.Archive.Mirror

  Archives that hold the same directories, with files that a function makes of each other's.
  Siblings stand in the order of their names, so such archives also list their directories
  and files in the same order (`forall₂_places`, `forall₂_files`).
-/
import Mathlib
import HashArchive.Proofs.Archive.Places

namespace HashArchive

/-- Lists that are related item by item look the same through functions that agree on related
    items. -/
theorem map_eq_of_forall₂ {α β γ : Type} {R : α → β → Prop} {f : α → γ} {g : β → γ}
    (hsame : ∀ {a b}, R a b → g b = f a) {items : List α} {others : List β}
    (h : List.Forall₂ R items others) : others.map g = items.map f := by
  induction h with
  | nil => rfl
  | cons hhead _ ih => rw [List.map_cons, List.map_cons, hsame hhead, ih]

/-- What becomes of a file at a location. -/
abbrev Copying := Location → Entry → Entry

namespace Forest

/-- A forest holds the same directories as another, with its files copied. -/
def Mirrors (copying : Copying) (above : Location) (forest mirror : Forest Directory) : Prop :=
  ∀ name more, (mirror.descend? (name :: more)).map (·.label.files)
    = (forest.descend? (name :: more)).map fun found =>
        found.label.files.map (copying (above ++ name :: more))

variable {copying : Copying} {above : Location} {forest mirror : Forest Directory}

theorem Mirrors.mem_names_iff (h : Mirrors copying above forest mirror) {name : String} :
    name ∈ mirror.names ↔ name ∈ forest.names := by
  have hsome := congrArg Option.isSome (h name [])
  rw [Option.isSome_map, Option.isSome_map, descend?_cons, descend?_cons] at hsome
  rw [← not_iff_not, ← child?_eq_none_iff, ← child?_eq_none_iff]
  cases hmirror : mirror.child? name <;> cases hforest : forest.child? name <;>
    simp_all [Tree.descend?]

section Cons

variable {directory other : Directory} {below rest below' rest' : Forest Directory}

/-- The first directories have the same name, since each name comes before the others. -/
theorem Mirrors.name_eq
    (h : Mirrors copying above (cons directory below rest) (cons other below' rest'))
    (hfirst : ∀ name ∈ rest.names, Name.before directory.name name = true)
    (hfirst' : ∀ name ∈ rest'.names, Name.before other.name name = true) :
    other.name = directory.name := by
  rcases List.mem_cons.mp (h.mem_names_iff.mp List.mem_cons_self) with hsame | hmem
  · exact hsame
  · rcases List.mem_cons.mp (h.mem_names_iff.mpr List.mem_cons_self) with hsame | hmem'
    · exact hsame.symm
    · have hasymm := Name.before_asymm (hfirst _ hmem)
      rw [hfirst' _ hmem'] at hasymm
      cases hasymm

theorem Mirrors.files_eq
    (h : Mirrors copying above (cons directory below rest) (cons other below' rest'))
    (hname : other.name = directory.name) :
    other.files = directory.files.map (copying (above ++ [directory.name])) := by
  have hfiles := h directory.name []
  rw [descend?_cons_head, ← hname, descend?_cons_head, hname] at hfiles
  exact Option.some.inj hfiles

theorem Mirrors.inside
    (h : Mirrors copying above (cons directory below rest) (cons other below' rest'))
    (hname : other.name = directory.name) :
    Mirrors copying (above ++ [directory.name]) below below' := by
  intro name more
  have hfiles := h directory.name (name :: more)
  rw [descend?_cons_head, ← hname, descend?_cons_head, hname] at hfiles
  rw [List.append_assoc, List.singleton_append]
  exact hfiles

theorem Mirrors.later
    (h : Mirrors copying above (cons directory below rest) (cons other below' rest'))
    (hname : other.name = directory.name)
    (hfirst : ∀ name ∈ rest.names, Name.before directory.name name = true)
    (hfirst' : ∀ name ∈ rest'.names, Name.before other.name name = true) :
    Mirrors copying above rest rest' := by
  intro name more
  by_cases hhead : directory.name = name
  · -- The later siblings have other names.
    rw [descend?_eq_none_of_notMem fun hmem => Name.ne_of_before (hfirst name hmem) hhead,
      descend?_eq_none_of_notMem fun hmem =>
        Name.ne_of_before (hfirst' name hmem) (hname.trans hhead)]
    rfl
  · have hfiles := h name more
    rw [descend?_cons_tail hhead, descend?_cons_tail (hname ▸ hhead)] at hfiles
    exact hfiles

end Cons

end Forest

/-- A place of a mirror stands for the place at its location. -/
def Place.Mirrors (copying : Copying) (place mirror : Place) : Prop :=
  mirror.location = place.location ∧
    mirror.tree.label.files = place.tree.label.files.map (copying place.location)

/-- Forests that hold the same directories list them in the same order. -/
theorem Forest.Mirrors.forall₂_places {copying : Copying} {above : Location}
    {forest mirror : Forest Directory} (h : Mirrors copying above forest mirror)
    (hordered : forest.Ordered) (hordered' : mirror.Ordered) :
    List.Forall₂ (Place.Mirrors copying) (forest.places above) (mirror.places above) := by
  induction forest generalizing above mirror with
  | nil =>
    cases mirror with
    | nil => exact List.Forall₂.nil
    | cons other below' rest' => exact absurd (h.mem_names_iff.mp List.mem_cons_self) (by simp)
  | cons directory below rest ihBelow ihRest =>
    cases mirror with
    | nil => exact absurd (h.mem_names_iff.mpr List.mem_cons_self) (by simp)
    | cons other below' rest' =>
      obtain ⟨h₁, h₂, h₃⟩ := hordered
      obtain ⟨h₁', h₂', h₃'⟩ := hordered'
      have hname := h.name_eq h₃ h₃'
      rw [places, places, hname]
      apply List.Forall₂.cons ⟨rfl, h.files_eq hname⟩
      exact List.rel_append (ihBelow (h.inside hname) h₁ h₁')
        (ihRest (h.later hname h₃ h₃') h₂ h₂')

namespace Archive

variable {copying : Copying} {archive mirror : Archive}

/-- An archive holds the same directories as another, with its files copied. -/
def Mirrors (copying : Copying) (archive mirror : Archive) : Prop :=
  ∀ location, (mirror.directory? location).map (·.files)
    = (archive.directory? location).map fun directory => directory.files.map (copying location)

theorem Mirrors.below (h : Mirrors copying archive mirror) :
    Forest.Mirrors copying [] archive.root.below mirror.root.below := by
  intro name more
  have hfiles := h (name :: more)
  unfold directory? Tree.directory? at hfiles
  rw [Option.map_map, Option.map_map] at hfiles
  exact hfiles

theorem Mirrors.files_root (h : Mirrors copying archive mirror) :
    mirror.root.label.files = archive.root.label.files.map (copying []) :=
  Option.some.inj (h [])

/-- Archives that hold the same directories list them in the same order. -/
theorem Mirrors.forall₂_places (h : Mirrors copying archive mirror) (hformed : archive.WellFormed)
    (hformed' : mirror.WellFormed) :
    List.Forall₂ (Place.Mirrors copying) archive.places mirror.places :=
  List.Forall₂.cons ⟨rfl, h.files_root⟩
    (h.below.forall₂_places hformed.ordered hformed'.ordered)

/-- Archives that hold the same directories list their files in the same order, as long as the
    copies keep names and keys. -/
theorem Mirrors.forall₂_files (h : Mirrors copying archive mirror) (hformed : archive.WellFormed)
    (hformed' : mirror.WellFormed)
    (hbefore : ∀ location a b, (copying location a).before (copying location b) = a.before b) :
    List.Forall₂ (fun file copied => copied.place.location = file.place.location ∧
      copied.entry = copying file.place.location file.entry) archive.files mirror.files := by
  apply List.rel_flatMap (h.forall₂_places hformed hformed')
  intro place place' hplace
  obtain ⟨hlocation, hfiles⟩ := hplace
  have hlisting : place'.tree.label.listing
      = place.tree.label.listing.map (copying place.location) := by
    rw [Directory.listing, hfiles, Sorted.sort_map]
    simp only [hbefore]
    rfl
  dsimp only
  rw [hlisting, List.map_map, List.forall₂_map_left_iff, List.forall₂_map_right_iff,
    List.forall₂_same]
  exact fun entry _ => ⟨hlocation, rfl⟩

end Archive

end HashArchive
