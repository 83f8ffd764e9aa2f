/-
  HashArchive.Proofs.Index.Distances

  The loop that finds the distances of all records.  From a tree on the stack it goes
  through the whole tree before it looks at what lay under it (`Walks`), so siblings stand
  as far from the record above as the trees in front of them are long (`covers_distances`).
-/
import Mathlib
import HashArchive.Proofs.Archive.Places
import HashArchive.Proofs.Index.Nested

namespace HashArchive

namespace Index.Plan

/-- Trees with the distances of their records, which stand one behind another. -/
def inRow (depth : Nat) :
    (distance : Int) → List (Tree Directory) → List (Int × Tree Directory)
  | _, [] => []
  | distance, tree :: trees => (distance, tree) :: inRow depth (distance + tree.extent depth) trees

/-- The number of a directory with the distance of its record. -/
def spot (item : Int × Tree Directory) : DirectoryId × Int := (item.2.label.id, item.1)

variable (plan : Plan)

/-- The subdirectories of a directory with the distances of their records. -/
def rowBelow (place : Place) : List (Int × Tree Directory) :=
  inRow (place.depth + 1) place.recordLength (plan.byKey place.tree.below)

/-- The distances that the loop finds for the given directories: one for each, and among them
    those of the records directly below. -/
structure Covers (places : List Place) (found : List (DirectoryId × Int)) : Prop where
  ids : (found.map (·.1)).Perm (places.map Place.id)
  below : ∀ place ∈ places, (plan.rowBelow place).map spot ⊆ found

variable {plan} in
theorem Covers.perm {places others : List Place} {found : List (DirectoryId × Int)}
    (h : plan.Covers places found) (hperm : places.Perm others) : plan.Covers others found where
  ids := h.ids.trans (hperm.map _)
  below := fun place hmem => h.below place (hperm.mem_iff.mpr hmem)

variable {plan} in
theorem Covers.append {places others : List Place} {found more : List (DirectoryId × Int)}
    (h : plan.Covers places found) (hmore : plan.Covers others more) :
    plan.Covers (places ++ others) (found ++ more) where
  ids := by
    rw [List.map_append, List.map_append]
    exact h.ids.append hmore.ids
  below := by
    intro place hmem
    rcases List.mem_append.mp hmem with hmem | hmem
    · exact List.subset_append_of_subset_left _ (h.below place hmem)
    · exact List.subset_append_of_subset_right _ (hmore.below place hmem)

/-- The loop goes through a tree on top of the stack and then on with what lies under it. -/
def Walks (tree : Tree Directory) : Prop :=
  ∀ (location : Location) (place above : Int) (pending : List Pending), ∃ found,
    plan.distances place ({ tree, depth := location.length, above } :: pending)
      = found ++ plan.distances (place + tree.extent location.length) pending ∧
    (tree.label.id, place - above) ∈ found ∧
    plan.Covers (tree.placesAt location) found

/-- Trees that lie on one another in the stack are gone through in their order. -/
theorem walks_siblings {trees : List (Tree Directory)} (h : ∀ tree ∈ trees, plan.Walks tree)
    (location : Location) (place above : Int) (pending : List Pending) :
    ∃ found,
      plan.distances place
          (trees.map (fun tree => { tree, depth := location.length + 1, above }) ++ pending)
        = found ++ plan.distances
          (place + ((trees.map (·.extent (location.length + 1))).sum : Nat)) pending ∧
      (inRow (location.length + 1) (place - above) trees).map spot ⊆ found ∧
      plan.Covers (trees.flatMap fun tree => tree.placesAt (location ++ [tree.label.name]))
        found := by
  induction trees generalizing place with
  | nil => exact ⟨[], by simp, by simp [inRow], ⟨by simp, by simp⟩⟩
  | cons tree trees ih =>
    have hdepth : (location ++ [tree.label.name]).length = location.length + 1 := by simp
    obtain ⟨first, hfirst, hown, hcovers⟩ := h tree List.mem_cons_self
      (location ++ [tree.label.name]) place above
      (trees.map (fun tree => { tree, depth := location.length + 1, above }) ++ pending)
    rw [hdepth] at hfirst
    obtain ⟨later, hlater, hrow, hcovers'⟩ := ih (fun other hmem =>
      h other (List.mem_cons_of_mem _ hmem)) (place + tree.extent (location.length + 1))
    refine ⟨first ++ later, ?_, ?_, ?_⟩
    · rw [List.map_cons, List.cons_append, hfirst, hlater, List.append_assoc, List.map_cons,
        List.sum_cons, Nat.cast_add, Int.add_assoc]
    · rw [inRow, List.map_cons]
      refine List.cons_subset.mpr ⟨List.mem_append_left _ hown, ?_⟩
      have hnext : place - above + tree.extent (location.length + 1)
          = place + tree.extent (location.length + 1) - above := by omega
      rw [hnext]
      exact List.subset_append_of_subset_right _ hrow
    · rw [List.flatMap_cons]
      exact hcovers.append hcovers'

/-- A tree is gone through once all its subdirectories are. -/
theorem walks_of_walks_below {tree : Tree Directory}
    (hbelow : ∀ child ∈ tree.below.trees, plan.Walks child) : plan.Walks tree := by
  intro location place above pending
  have horder := plan.byKey_perm tree.below
  obtain ⟨inner, hinner, hrow, hcovers⟩ := plan.walks_siblings
    (fun child hmem => hbelow child (horder.mem_iff.mp hmem)) location
    (place + tree.recordLength location.length) place pending
  have hplaces := horder.flatMap_right fun child =>
    child.placesAt (location ++ [child.label.name])
  rw [← Forest.places_eq_flatMap] at hplaces
  -- What is found is as good for the order of names as for that of the keys.
  have hcovers := hcovers.perm hplaces
  have hextent : ((plan.byKey tree.below).map (·.extent (location.length + 1))).sum
      = tree.below.extent (location.length + 1) := by
    rw [(horder.map _).sum_nat, Forest.sum_extent_trees]
  rw [hextent] at hinner
  refine ⟨(tree.label.id, place - above) :: inner, ?_, List.mem_cons_self, ?_, ?_⟩
  · -- The record's own place is where the distances of those below it start from.
    have habove : above + (place - above) = place := by omega
    have hpast : place + tree.recordLength location.length + tree.below.extent (location.length + 1)
        = place + tree.extent location.length := by
      rw [Tree.extent]
      omega
    rw [distances]
    dsimp only
    rw [habove, List.cons_append, ← hpast, ← hinner]
    rfl
  · rw [Tree.placesAt, List.map_cons, List.map_cons]
    exact hcovers.ids.cons _
  · intro other hmem
    apply List.subset_cons_of_subset
    rcases List.mem_cons.mp hmem with rfl | hmem
    · have hstart : place + tree.recordLength location.length - place
          = tree.recordLength location.length := by omega
      rw [hstart] at hrow
      exact hrow
    · exact hcovers.below other hmem

/-- The loop finds a distance for each directory of a tree, and for each the distances of the
    records directly below. -/
theorem covers_distances (root : Tree Directory) :
    plan.Covers (root.placesAt [])
      (plan.distances 0 [{ tree := root, depth := 0, above := 0 }]) := by
  have hroot : plan.Walks root := Tree.induct_below (fun _ => plan.walks_of_walks_below) root
  obtain ⟨found, hfound, -, hcovers⟩ := hroot [] 0 0 []
  rw [distances, List.append_nil] at hfound
  exact hfound ▸ hcovers

end Index.Plan

end HashArchive
