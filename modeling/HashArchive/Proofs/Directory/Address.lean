/-
  HashArchive.Proofs.Directory.Address

  Directories of a tree by the names that lead to them.  A change at a location is seen
  at the locations that go through it (`descend?_update_append`) and at no other
  (`directory?_update_of_not_prefix`); in the preorder of all directories it replaces
  one contiguous part (`labels_update`).
-/
import Mathlib
import HashArchive.Proofs.Directory.Siblings

namespace HashArchive

namespace Forest

theorem descend?_cons (forest : Forest Directory) (name : String) (names : Location) :
    forest.descend? (name :: names) = (forest.child? name).bind (·.descend? names) := by
  induction forest with
  | nil => rfl
  | cons directory below rest _ ih =>
    by_cases h : directory.name = name
    · cases names with
      | nil => simp [descend?, child?, h, Tree.descend?]
      | cons other names => simp [descend?, child?, h, Tree.descend?]
    · rw [child?, if_neg h, ← ih]
      cases names <;> simp [descend?, h]

theorem descend?_cons_head (directory : Directory) (below rest : Forest Directory)
    (names : Location) : (cons directory below rest).descend? (directory.name :: names)
      = (⟨directory, below⟩ : Tree Directory).descend? names := by
  rw [descend?_cons, child?, if_pos rfl, Option.bind_some]

theorem descend?_cons_tail {directory : Directory} {name : String} (h : directory.name ≠ name)
    (below rest : Forest Directory) (names : Location) :
    (cons directory below rest).descend? (name :: names) = rest.descend? (name :: names) := by
  rw [descend?_cons, child?, if_neg h, ← descend?_cons]

theorem descend?_eq_none_of_notMem {forest : Forest Directory} {name : String}
    (h : name ∉ forest.names) (names : Location) : forest.descend? (name :: names) = none := by
  rw [descend?_cons, child?_eq_none_iff.mpr h]
  rfl

theorem update_cons (f : Tree Directory → Tree Directory) (forest : Forest Directory)
    (name : String) (names : Location) :
    forest.update f (name :: names) = forest.modify name (Tree.update f · names) := by
  induction forest with
  | nil => rfl
  | cons directory below rest _ ih =>
    by_cases h : directory.name = name
    · cases names with
      | nil => simp [update, modify, h, Tree.update]
      | cons other names => simp [update, modify, h, Tree.update]
    · rw [modify, if_neg h, ← ih]
      cases names <;> simp [update, h]

end Forest

namespace Tree

variable {f : Tree Directory → Tree Directory}

/-- What the directory that the names lead to has of its own. -/
def directory? (tree : Tree Directory) (location : Location) : Option Directory :=
  (tree.descend? location).map (·.label)

/-! ## Finding -/

@[simp] theorem descend?_nil (tree : Tree Directory) : tree.descend? [] = some tree := rfl

theorem descend?_cons (tree : Tree Directory) (name : String) (names : Location) :
    tree.descend? (name :: names) = (tree.below.child? name).bind (·.descend? names) :=
  tree.below.descend?_cons name names

/-- Going down by `front ++ back` is going down by `front`, and from there by `back`. -/
theorem descend?_append (tree : Tree Directory) (front back : Location) :
    tree.descend? (front ++ back) = (tree.descend? front).bind (·.descend? back) := by
  induction front generalizing tree with
  | nil => rfl
  | cons name names ih =>
    rw [List.cons_append, descend?_cons, descend?_cons]
    cases tree.below.child? name with
    | none => rfl
    | some child => exact ih child

theorem descend?_singleton (tree : Tree Directory) (name : String) :
    tree.descend? [name] = tree.below.child? name := by
  rw [descend?_cons]
  cases tree.below.child? name <;> rfl

/-- Above a directory there are directories only. -/
theorem isSome_of_descend?_append {tree : Tree Directory} {front back : Location}
    (h : (tree.descend? (front ++ back)).isSome) : (tree.descend? front).isSome := by
  rw [descend?_append] at h
  exact Option.isSome_of_isSome_bind h

theorem name_of_descend? {tree found : Tree Directory} {above : Location} {name : String}
    (h : tree.descend? (above ++ [name]) = some found) : found.label.name = name := by
  rw [descend?_append, Option.bind_eq_some_iff] at h
  obtain ⟨holder, -, h⟩ := h
  rw [descend?_singleton] at h
  exact Forest.name_of_child? h

/-! ## Changing -/

theorem update_cons (tree : Tree Directory) (name : String) (names : Location) :
    tree.update f (name :: names)
      = ⟨tree.label, tree.below.modify name (Tree.update f · names)⟩ := by
  rw [← Forest.update_cons]
  rfl

/-- What a change keeps of a directory it keeps of the root, wherever it is made. -/
theorem label_update {β : Type} {g : Directory → β} (hf : ∀ tree, g (f tree).label = g tree.label)
    (tree : Tree Directory) (location : Location) :
    g (tree.update f location).label = g tree.label := by
  cases location with
  | nil => exact hf tree
  | cons name names => rw [update_cons]

theorem name_update (hf : ∀ tree, (f tree).label.name = tree.label.name)
    (tree : Tree Directory) (location : Location) :
    (tree.update f location).label.name = tree.label.name := label_update hf tree location

theorem update_of_descend?_eq_none {tree : Tree Directory} {location : Location}
    (h : tree.descend? location = none) : tree.update f location = tree := by
  induction location generalizing tree with
  | nil => cases h
  | cons name names ih =>
    -- The first name leads to no child, or to one below which the rest leads nowhere.
    have hsame : tree.below.modify name (Tree.update f · names) = tree.below := by
      rw [descend?_cons] at h
      generalize tree.below = forest at h
      induction forest with
      | nil => rfl
      | cons directory below rest _ ihRest =>
        rw [Forest.child?] at h
        rw [Forest.modify]
        split at h
        · next hname => rw [if_pos hname, ih h]
        · next hname => rw [if_neg hname, ihRest h]
    rw [update_cons, hsame]

theorem descend?_update_append (hf : ∀ tree, (f tree).label.name = tree.label.name)
    (tree : Tree Directory) (location more : Location) :
    (tree.update f location).descend? (location ++ more)
      = ((tree.descend? location).map f).bind (·.descend? more) := by
  induction location generalizing tree with
  | nil => rfl
  | cons name names ih =>
    rw [update_cons, List.cons_append, descend?_cons, descend?_cons,
      Forest.child?_modify fun child => name_update hf child names, if_pos rfl]
    cases tree.below.child? name with
    | none => rfl
    | some child => exact ih child

theorem directory?_update_of_not_prefix (hf : ∀ tree, (f tree).label.name = tree.label.name)
    (tree : Tree Directory) {location other : Location} (h : ¬ location <+: other) :
    (tree.update f location).directory? other = tree.directory? other := by
  induction location generalizing tree other with
  | nil => exact absurd List.nil_prefix h
  | cons name names ih =>
    cases other with
    | nil => rw [update_cons]; rfl
    | cons first others =>
      unfold directory?
      rw [update_cons, descend?_cons, descend?_cons,
        Forest.child?_modify fun child => name_update hf child names]
      by_cases hname : first = name
      · rw [List.cons_prefix_cons, not_and] at h
        rw [if_pos hname, hname]
        cases tree.below.child? name with
        | none => rfl
        | some child => exact ih child (h hname.symm)
      · rw [if_neg hname]

theorem ordered_update (hf : ∀ tree, (f tree).label.name = tree.label.name)
    {tree : Tree Directory} {location : Location}
    (hbelow : ∀ found, tree.descend? location = some found → found.below.Ordered →
      (f found).below.Ordered)
    (h : tree.below.Ordered) : (tree.update f location).below.Ordered := by
  induction location generalizing tree with
  | nil => exact hbelow tree rfl h
  | cons name names ih =>
    rw [update_cons]
    refine Forest.ordered_modify (fun child => name_update hf child names) ?_ h
    intro child hchild
    refine ih fun found hfound => hbelow found ?_
    rw [descend?_cons, hchild]
    exact hfound

/-! ## All directories -/

/-- A change at a location replaces the part of the preorder that its directory takes. -/
theorem labels_update {tree found : Tree Directory} {location : Location}
    (h : tree.descend? location = some found) :
    ∃ before after, tree.labels = before ++ found.labels ++ after ∧
      ∀ f, (tree.update f location).labels = before ++ (f found).labels ++ after := by
  induction location generalizing tree with
  | nil =>
    obtain rfl := Option.some.inj h
    exact ⟨[], [], by simp, fun f => by simp [update]⟩
  | cons name names ih =>
    rw [descend?_cons] at h
    have hbelow : ∃ before after, tree.below.labels = before ++ found.labels ++ after ∧
        ∀ f, (tree.below.modify name (Tree.update f · names)).labels
          = before ++ (f found).labels ++ after := by
      generalize tree.below = forest at h
      induction forest with
      | nil => cases h
      | cons directory below rest _ ihRest =>
        rw [Forest.child?] at h
        split at h
        · next hname =>
          obtain ⟨before, after, hlabels, hupdate⟩ := ih h
          refine ⟨before, after ++ rest.labels, ?_, fun f => ?_⟩
          · simpa [Forest.labels, labels] using congrArg (· ++ rest.labels) hlabels
          · rw [Forest.modify, if_pos hname]
            simpa [Forest.labels, labels] using congrArg (· ++ rest.labels) (hupdate f)
        · next hname =>
          obtain ⟨before, after, hlabels, hupdate⟩ := ihRest h
          refine ⟨directory :: below.labels ++ before, after, ?_, fun f => ?_⟩
          · simp [Forest.labels, hlabels]
          · rw [Forest.modify, if_neg hname]
            simp [Forest.labels, hupdate]
    obtain ⟨before, after, hlabels, hupdate⟩ := hbelow
    refine ⟨tree.label :: before, after, by simp [labels, hlabels], ?_⟩
    intro f
    rw [update_cons]
    simp [labels, hupdate]

end Tree

end HashArchive
