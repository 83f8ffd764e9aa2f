/-
  HashArchive.Proofs.Archive.Pruning

  What the removal of a directory takes away: the directory and all that its numbers lead down
  to (`Within`), which are those at the locations that go through its own (`within_iff`), and
  the one link to it from the directory above (`view?_without`).
-/
import Mathlib
import HashArchive.Proofs.Archive.Finding

namespace HashArchive.Archive

/-! ## Directories below a directory -/

/-- One directory is a subdirectory of another. -/
def Holds (archive : Archive) (holder child : DirectoryId) : Prop :=
  ∃ view name, archive.view? holder = some view ∧ view.subdirectory? name = some child

/-- One directory is another or is somewhere below it. -/
def Within (archive : Archive) : DirectoryId → DirectoryId → Prop :=
  Relation.ReflTransGen archive.Holds

section Within

variable {archive : Archive} {above : Location} {top id : DirectoryId}

theorem holds_iff (h : archive.WellFormed) {holder child : DirectoryId} :
    archive.Holds holder child ↔ ∃ location name,
      archive.idAt location = some holder ∧ archive.idAt (location ++ [name]) = some child := by
  constructor
  · rintro ⟨view, name, hview, hchild⟩
    obtain ⟨location, hholder, rfl⟩ := (view?_eq_some_iff h).mp hview
    exact ⟨location, name, hholder, hchild⟩
  · rintro ⟨location, name, hholder, hchild⟩
    exact ⟨_, name, view?_of_idAt h hholder, hchild⟩

/-- The directories below one are those at the locations that go through its own. -/
theorem within_iff (h : archive.WellFormed) (htop : archive.idAt above = some top) :
    archive.Within top id ↔ ∃ location, above <+: location ∧ archive.idAt location = some id := by
  constructor
  · intro hwithin
    induction hwithin with
    | refl => exact ⟨above, List.prefix_refl above, htop⟩
    | tail _ hstep ih =>
      obtain ⟨location, hpre, hholder⟩ := ih
      obtain ⟨location', name, hholder', hchild⟩ := (holds_iff h).mp hstep
      obtain rfl := eq_of_idAt_eq h hholder hholder'
      exact ⟨_, hpre.trans (List.prefix_append _ _), hchild⟩
  · rintro ⟨location, ⟨more, rfl⟩, hid⟩
    -- The links lead down, so the induction takes the last name off.
    induction more using List.reverseRecOn generalizing id with
    | nil =>
      rw [List.append_nil, htop, Option.some.injEq] at hid
      rw [hid]
      exact Relation.ReflTransGen.refl
    | append_singleton more name ih =>
      rw [← List.append_assoc] at hid
      have hlive := live_dropLast (live_of_idAt hid)
      rw [List.dropLast_concat] at hlive
      obtain ⟨holder, hholder⟩ := exists_idAt_of_live hlive
      exact (ih hholder).tail ((holds_iff h).mpr ⟨_, name, hholder, hid⟩)

end Within

/-! ## The archive without a directory -/

/-- The archive without the directory of a name at a location, and without all below it. -/
def without (archive : Archive) (above : Location) (name : String) : Archive :=
  { archive with root := archive.root.update (Tree.removeBelow name) above }

section Without

variable {archive : Archive} {above other : Location} {name : String} {top id : DirectoryId}

theorem idAt_without (h : archive.WellFormed) (above : Location) (name : String)
    (other : Location) :
    (archive.without above name).idAt other
      = if above ++ [name] <+: other then none else archive.idAt other :=
  idAt_removeBelow h above name other

theorem held_without (h : archive.WellFormed) (hother : ¬ above ++ [name] <+: other) :
    (archive.without above name).held other = archive.held other := by
  rw [held, filesAt, without, directory?, directory?_removeBelow h, if_neg hother]
  rfl

/-- Elsewhere everything is as before, and the directory above has lost the one link. -/
theorem viewAt_without (h : archive.WellFormed) (hother : ¬ above ++ [name] <+: other) :
    (archive.without above name).viewAt other
      = { archive.viewAt other with
          subdirectory? := fun first =>
            if other = above ∧ first = name then none
            else (archive.viewAt other).subdirectory? first } := by
  have hname : (archive.without above name).name = archive.name :=
    Tree.name_update (f := Tree.removeBelow name) (fun _ => rfl) archive.root above
  have hup : (archive.without above name).idAt other.dropLast = archive.idAt other.dropLast := by
    rw [idAt_without h, if_neg fun hpre => hother (hpre.trans (List.dropLast_prefix other))]
  have hdown : ∀ first, (archive.without above name).idAt (other ++ [first])
      = if other = above ∧ first = name then none else archive.idAt (other ++ [first]) := by
    intro first
    have hpre : above ++ [name] <+: other ++ [first] ↔ other = above ∧ first = name := by
      rw [List.prefix_concat_iff, or_iff_left hother, eq_comm]
      simp
    rw [idAt_without h]
    exact if_congr hpre rfl rfl
  rw [viewAt, hname, hup, held_without h hother, funext hdown]
  rfl

/-- Just the directories below the one that is removed are gone. -/
theorem isSome_place?_without (h : archive.WellFormed)
    (htop : archive.idAt (above ++ [name]) = some top) :
    ((archive.without above name).place? id).isSome ↔
      (archive.place? id).isSome ∧ ¬ archive.Within top id := by
  have hformed : (archive.without above name).WellFormed := wellFormed_removeDirectory h above name
  rw [isSome_place?_iff hformed, isSome_place?_iff h, within_iff h htop]
  constructor
  · rintro ⟨other, hother⟩
    rw [idAt_without h] at hother
    split at hother
    · cases hother
    · next hnot =>
      refine ⟨⟨other, hother⟩, ?_⟩
      rintro ⟨other', hpre, hother'⟩
      exact hnot (eq_of_idAt_eq h hother' hother ▸ hpre)
  · rintro ⟨⟨other, hother⟩, hnot⟩
    refine ⟨other, ?_⟩
    rw [idAt_without h, if_neg fun hpre => hnot ⟨other, hpre, hother⟩]
    exact hother

/-- Of those that are left only the directory above shows something else, one link less. -/
theorem view?_without (h : archive.WellFormed) (htop : archive.idAt (above ++ [name]) = some top)
    (hnot : ¬ archive.Within top id) :
    (archive.without above name).view? id
      = (archive.view? id).map fun view =>
          { view with
            subdirectory? := fun first =>
              if archive.idAt above = some id ∧ first = name then none
              else view.subdirectory? first } := by
  have hformed : (archive.without above name).WellFormed := wellFormed_removeDirectory h above name
  rw [within_iff h htop] at hnot
  refine view?_eq_map h hformed (fun other => ?_) fun other hother => ?_
  · rw [idAt_without h]
    split
    · next hpre => exact iff_of_false nofun fun hother => hnot ⟨other, hpre, hother⟩
    · rfl
  · have habove : archive.idAt above = some id ↔ other = above :=
      ⟨fun habove => eq_of_idAt_eq h hother habove, fun heq => heq ▸ hother⟩
    rw [viewAt_without h fun hpre => hnot ⟨other, hpre, hother⟩]
    simp only [habove]

end Without

/-- What a removal comes to. -/
theorem removeDirectory_cases (archive : Archive) (start : DirectoryId) (path : String) :
    (archive.removeDirectory start path = (archive, false) ∧
      ∀ place, archive.findDirectory? start path = some place → place.location = []) ∨
    ∃ place above name, archive.findDirectory? start path = some place ∧
      place.location = above ++ [name] ∧
      archive.removeDirectory start path = (archive.without above name, true) := by
  rw [removeDirectory]
  cases hfound : archive.findDirectory? start path with
  | none =>
    refine Or.inl ⟨rfl, ?_⟩
    rintro place ⟨⟩
  | some place =>
    dsimp only
    cases hlast : place.location.getLast? with
    | none =>
      refine Or.inl ⟨rfl, ?_⟩
      rintro other ⟨⟩
      exact List.getLast?_eq_none_iff.mp hlast
    | some name =>
      obtain ⟨above, hlocation⟩ := List.getLast?_eq_some_iff.mp hlast
      refine Or.inr ⟨place, above, name, rfl, hlocation, ?_⟩
      dsimp only
      rw [hlocation, List.dropLast_concat]
      rfl

end HashArchive.Archive
