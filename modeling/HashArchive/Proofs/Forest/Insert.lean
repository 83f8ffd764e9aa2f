/-
  HashArchive.Proofs.Forest.Insert

  Adding a tree among siblings keeps all that is there: the trees and the labels are the
  same up to their order.
-/
import Mathlib
import HashArchive.Forest
import HashArchive.Sorted

namespace HashArchive.Forest

variable {α : Type}

/-- Adding a tree to a forest is adding it to the list of its trees. -/
theorem trees_insert (before : α → α → Bool) (tree : Tree α) (forest : Forest α) :
    (forest.insert before tree).trees
      = Sorted.insert (fun a b => before a.label b.label) tree forest.trees := by
  induction forest with
  | nil => rfl
  | cons label below rest _ ih =>
    rw [insert, trees, Sorted.insert]
    split
    · rw [trees, ih]
    · rfl

theorem trees_insert_perm (before : α → α → Bool) (tree : Tree α) (forest : Forest α) :
    (forest.insert before tree).trees.Perm (tree :: forest.trees) := by
  rw [trees_insert]
  exact Sorted.perm_insert _ tree forest.trees

theorem labels_insert_perm (before : α → α → Bool) (tree : Tree α) (forest : Forest α) :
    (forest.insert before tree).labels.Perm (tree.labels ++ forest.labels) := by
  induction forest with
  | nil => simp [insert, labels, Tree.labels]
  | cons label below rest _ ih =>
    rw [insert]
    split
    · have hmove : (label :: below.labels ++ (tree.labels ++ rest.labels)).Perm
          (tree.labels ++ (label :: below.labels ++ rest.labels)) := by
        rw [← List.append_assoc, ← List.append_assoc]
        exact List.perm_append_comm.append_right _
      exact (ih.append_left (label :: below.labels)).trans hmove
    · exact List.Perm.refl _

end HashArchive.Forest
