/-
  HashArchive.Sorted

  Stable insertion sort by an order that says which of two items comes first.
-/

namespace HashArchive.Sorted

variable {α β : Type}

/-- Puts an item before the first one that does not come before it. -/
def insert (before : α → α → Bool) (item : α) : List α → List α
  | [] => [item]
  | other :: rest =>
    if before other item then other :: insert before item rest else item :: other :: rest

/-- Sorts a list; items that come in neither order keep theirs. -/
def sort (before : α → α → Bool) (items : List α) : List α :=
  items.foldr (insert before) []

/-- Inserting keeps every item. -/
theorem perm_insert (before : α → α → Bool) (item : α) (items : List α) :
    (insert before item items).Perm (item :: items) := by
  induction items with
  | nil => exact List.Perm.refl _
  | cons other rest ih =>
    unfold insert
    split
    · exact (ih.cons other).trans (List.Perm.swap item other rest)
    · exact List.Perm.refl _

/-- Sorting keeps every item. -/
theorem perm_sort (before : α → α → Bool) (items : List α) :
    (sort before items).Perm items := by
  induction items with
  | nil => exact List.Perm.refl _
  | cons item rest ih => exact (perm_insert before item _).trans (ih.cons item)

theorem insert_map (f : α → β) (before : β → β → Bool) (item : α) (items : List α) :
    insert before (f item) (items.map f)
      = (insert (fun a b => before (f a) (f b)) item items).map f := by
  induction items with
  | nil => rfl
  | cons other rest ih =>
    rw [List.map_cons, insert, insert]
    split
    · rw [List.map_cons, ih]
    · rfl

/-- Sorting by what a function gives. -/
theorem sort_map (f : α → β) (before : β → β → Bool) (items : List α) :
    sort before (items.map f) = (sort (fun a b => before (f a) (f b)) items).map f := by
  induction items with
  | nil => rfl
  | cons item rest ih =>
    show insert before (f item) (sort before (rest.map f)) = _
    rw [ih, insert_map]
    rfl

section Pairwise

variable {before : α → α → Bool} {r : α → α → Prop} (htrans : ∀ a b c, r a b → r b c → r a c)
  (hbefore : ∀ a b, before a b = true → r a b) (hnot : ∀ a b, before a b = false → r b a)
include htrans hbefore hnot

/-- Inserting keeps the items in order. -/
theorem pairwise_insert (item : α) {items : List α} (h : items.Pairwise r) :
    (insert before item items).Pairwise r := by
  induction items with
  | nil => exact List.pairwise_singleton _ _
  | cons other rest ih =>
    obtain ⟨hother, hrest⟩ := List.pairwise_cons.mp h
    unfold insert
    split
    · next hlt =>
      refine List.pairwise_cons.mpr ⟨fun last hmem => ?_, ih hrest⟩
      rcases List.mem_cons.mp ((perm_insert _ item rest).mem_iff.mp hmem) with rfl | hmem
      · exact hbefore _ _ hlt
      · exact hother last hmem
    · next hge =>
      have hitem : r item other := hnot _ _ (Bool.not_eq_true _ ▸ hge)
      refine List.pairwise_cons.mpr ⟨fun last hmem => ?_, h⟩
      rcases List.mem_cons.mp hmem with rfl | hmem
      · exact hitem
      · exact htrans _ _ _ hitem (hother last hmem)

/-- Sorting puts the items in order. -/
theorem pairwise_sort (items : List α) : (sort before items).Pairwise r := by
  induction items with
  | nil => exact List.Pairwise.nil
  | cons item rest ih => exact pairwise_insert htrans hbefore hnot item ih

end Pairwise

/-- In whatever order the items come, sorting puts them into the one order there is. -/
theorem sort_eq_of_perm {before : α → α → Bool} {r : α → α → Prop}
    (htrans : ∀ a b c, r a b → r b c → r a c) (hbefore : ∀ a b, before a b = true → r a b)
    (hnot : ∀ a b, before a b = false → r b a) {items sorted : List α} (hperm : items.Perm sorted)
    (hsorted : sorted.Pairwise r)
    (hanti : ∀ a ∈ sorted, ∀ b ∈ sorted, r a b → r b a → a = b) : sort before items = sorted := by
  have hsame : (sort before items).Perm sorted := (perm_sort before items).trans hperm
  refine hsame.eq_of_pairwise (fun a b ha hb => ?_) (pairwise_sort htrans hbefore hnot items)
    hsorted
  exact hanti a (hsame.mem_iff.mp ha) b hb

/-- Items that are sorted by their keys stand in the order of the keys. -/
theorem pairwise_sort_key (key : α → UInt64) (items : List α) :
    (sort (fun a b => key a < key b) items).Pairwise fun a b => key a ≤ key b := by
  refine pairwise_sort (r := fun a b => key a ≤ key b) (fun _ _ _ => UInt64.le_trans) ?_ ?_ items
  · exact fun a b hlt => UInt64.le_of_lt (of_decide_eq_true hlt)
  · exact fun a b hge => UInt64.not_lt.mp (of_decide_eq_false hge)

/-- Items that are in order stay where they are. -/
theorem sort_eq_self {before : α → α → Bool} {items : List α}
    (h : items.Pairwise fun a b => before b a = false) : sort before items = items := by
  induction items with
  | nil => rfl
  | cons item items ih =>
    obtain ⟨hfirst, hrest⟩ := List.pairwise_cons.mp h
    show insert before item (sort before items) = _
    rw [ih hrest]
    cases items with
    | nil => rfl
    | cons other rest => rw [insert, if_neg (by rw [hfirst other List.mem_cons_self]; simp)]

end HashArchive.Sorted
