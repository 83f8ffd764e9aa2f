/-
  HashArchive.Forest

  Ordered forests with labelled nodes, as one inductive type: the first tree's label,
  the forest below it, and the forest of its later siblings.  Directories, index
  records and their shapes are all forests, so one induction serves them.
-/

namespace HashArchive

/-- An ordered forest. -/
inductive Forest (α : Type) where
  | nil
  | cons (label : α) (below rest : Forest α)
deriving DecidableEq, Repr, Inhabited

/-- A tree: its root's label and the forest below the root. -/
structure Tree (α : Type) where
  label : α
  below : Forest α
deriving DecidableEq, Repr, Inhabited

namespace Forest

variable {α β : Type}

/-- The trees of a forest, first to last. -/
def trees : Forest α → List (Tree α)
  | nil => []
  | cons label below rest => ⟨label, below⟩ :: rest.trees

/-- The forest of a list of trees. -/
def ofTrees : List (Tree α) → Forest α
  | [] => nil
  | tree :: rest => cons tree.label tree.below (ofTrees rest)

/-- The labels in preorder: each node before those below it, and those before its
    later siblings. -/
def labels : Forest α → List α
  | nil => []
  | cons label below rest => label :: (below.labels ++ rest.labels)

/-- The number of nodes. -/
def size : Forest α → Nat
  | nil => 0
  | cons _ below rest => below.size + 1 + rest.size

/-- The same shape with other labels. -/
def map (f : α → β) : Forest α → Forest β
  | nil => nil
  | cons label below rest => cons (f label) (below.map f) (rest.map f)

/-- Adds a tree among the siblings, before the first one that does not come before it. -/
def insert (before : α → α → Bool) (tree : Tree α) : Forest α → Forest α
  | nil => cons tree.label tree.below nil
  | cons label below rest =>
    if before label tree.label then
      cons label below (rest.insert before tree)
    else
      cons tree.label tree.below (cons label below rest)

/-- Sorts the siblings at every level; those that come in neither order keep theirs. -/
def sort (before : α → α → Bool) : Forest α → Forest α
  | nil => nil
  | cons label below rest => (rest.sort before).insert before ⟨label, below.sort before⟩

@[simp] theorem ofTrees_trees (forest : Forest α) : ofTrees forest.trees = forest := by
  induction forest with
  | nil => rfl
  | cons label below rest _ ih => simp [trees, ofTrees, ih]

@[simp] theorem length_labels (forest : Forest α) : forest.labels.length = forest.size := by
  induction forest with
  | nil => rfl
  | cons label below rest ihBelow ihRest =>
    simp only [labels, size, List.length_cons, List.length_append, ihBelow, ihRest]
    omega

end Forest

namespace Tree

variable {α β : Type}

/-- The labels in preorder, the root's first. -/
def labels (tree : Tree α) : List α := tree.label :: tree.below.labels

/-- The number of nodes, the root included. -/
def size (tree : Tree α) : Nat := tree.below.size + 1

end Tree

/-- The labels of a forest are those of its trees, one tree after another. -/
theorem Forest.flatMap_labels_trees {α : Type} (forest : Forest α) :
    forest.trees.flatMap Tree.labels = forest.labels := by
  induction forest with
  | nil => rfl
  | cons label below rest _ ih =>
    rw [trees, List.flatMap_cons, ih]
    rfl

theorem Forest.mem_labels_of_mem_trees {α : Type} {forest : Forest α} {tree : Tree α}
    (htree : tree ∈ forest.trees) {label : α} (h : label ∈ tree.labels) :
    label ∈ forest.labels := by
  rw [← flatMap_labels_trees]
  exact List.mem_flatMap.mpr ⟨tree, htree, h⟩

/-- What holds of a tree once it does of all trees directly below holds of every tree. -/
theorem Tree.induct_below {α : Type} {p : Tree α → Prop}
    (h : ∀ tree : Tree α, (∀ child ∈ tree.below.trees, p child) → p tree) (tree : Tree α) :
    p tree := by
  have hforest : ∀ forest : Forest α, ∀ tree ∈ forest.trees, p tree := by
    intro forest
    induction forest with
    | nil => exact fun _ hmem => nomatch hmem
    | cons label below rest ihBelow ihRest =>
      intro tree hmem
      rcases List.mem_cons.mp hmem with rfl | hmem
      · exact h ⟨label, below⟩ ihBelow
      · exact ihRest tree hmem
  exact h tree (hforest tree.below)

end HashArchive
