/-
  HashArchive.Proofs.Path.Plain

  Every name that a path can make is plain: splitting leaves no separator in it, and the
  parts that stand for something else are no names.  A plain name is a path of one step.
-/
import Mathlib
import HashArchive.Path

namespace HashArchive.Path

/-- The parts of a split text hold no separator. -/
theorem unseparated_of_mem_splitOnP {α : Type} {p : α → Bool} {list part : List α}
    (h : part ∈ list.splitOnP p) : ∀ a ∈ part, p a = false := by
  induction list generalizing part with
  | nil =>
    rw [List.splitOnP_nil, List.mem_singleton] at h
    simp [h]
  | cons first rest ih =>
    rw [List.splitOnP_cons_eq_if_modifyHead] at h
    split at h
    · rcases List.mem_cons.mp h with rfl | h
      · simp
      · exact ih h
    · next hfirst =>
      rw [Bool.not_eq_true] at hfirst
      obtain ⟨head, tail, hparts⟩ := List.exists_cons_of_ne_nil (List.splitOnP_ne_nil p rest)
      rw [hparts, List.modifyHead_cons] at h
      rw [hparts] at ih
      rcases List.mem_cons.mp h with rfl | h
      · intro a ha
        rcases List.mem_cons.mp ha with rfl | ha
        · exact hfirst
        · exact ih List.mem_cons_self a ha
      · exact ih (List.mem_cons_of_mem _ h)

theorem slash_notMem_of_no_separator {text : String}
    (h : ∀ c ∈ text.toList, isSeparator c = false) : '/' ∉ text.toList := by
  intro hmem
  have hseparator := h '/' hmem
  cases hseparator

theorem Plain.slash_notMem {name : String} (h : Plain name) : '/' ∉ name.toList :=
  slash_notMem_of_no_separator h.2.2.2

/-- A part that stands for a name stands for a plain one. -/
theorem plain_of_segment? {part : List Char} {name : String}
    (hpart : ∀ c ∈ part, isSeparator c = false) (h : segment? part = some (.name name)) :
    Plain name := by
  rw [segment?] at h
  split at h
  · cases h
  · next hdropped =>
    rw [not_or] at hdropped
    split at h
    · cases h
    · next hparent =>
      obtain rfl : String.ofList part = name := by simpa using h
      refine ⟨?_, ?_, ?_, by simpa using hpart⟩
      · intro heq
        exact hdropped.1 (by simpa using congrArg String.toList heq)
      · intro heq
        exact hdropped.2 (by simpa using congrArg String.toList heq)
      · intro heq
        exact hparent (by simpa using congrArg String.toList heq)

/-- The names among the steps of a path are plain. -/
theorem plain_of_mem_segments {path name : String} (h : .name name ∈ segments path) :
    Plain name := by
  obtain ⟨part, hmem, hpart⟩ := List.mem_filterMap.mp h
  exact plain_of_segment? (unseparated_of_mem_splitOnP hmem) hpart

/-- The steps of two paths with a separator in between are those of the one and then those of
    the other. -/
theorem segments_append {separator : Char} (h : isSeparator separator = true)
    (path rest : String) :
    segments (path ++ String.singleton separator ++ rest) = segments path ++ segments rest := by
  rw [segments, String.toList_append, String.toList_append, String.toList_singleton,
    List.append_assoc, List.singleton_append, List.splitOnP_append_cons _ _ h,
    List.filterMap_append]
  rfl

/-- A file path is its directory's steps and then its name. -/
theorem segments_of_file? {path name : String} {above : List Segment}
    (h : file? path = some (above, name)) : segments path = above ++ [.name name] := by
  rw [file?] at h
  split at h
  · next last hlast =>
    obtain ⟨rfl, rfl⟩ := Prod.mk.inj (Option.some.inj h)
    rw [List.getLast?_eq_some_iff] at hlast
    obtain ⟨front, hfront⟩ := hlast
    rw [hfront, List.dropLast_concat]
  · cases h

theorem plain_of_file? {path name : String} {above : List Segment}
    (h : file? path = some (above, name)) : Plain name := by
  have hmem : .name name ∈ segments path := by simp [segments_of_file? h]
  exact plain_of_mem_segments hmem

theorem plain_above_of_file? {path name other : String} {above : List Segment}
    (h : file? path = some (above, name)) (hmem : .name other ∈ above) : Plain other := by
  have hmem : .name other ∈ segments path := by simp [segments_of_file? h, hmem]
  exact plain_of_mem_segments hmem

/-- A plain name is a path of one step. -/
theorem segments_of_plain {name : String} (h : Plain name) : segments name = [.name name] := by
  obtain ⟨hempty, hdot, hdots, hchars⟩ := h
  have hne : ∀ text : String, name ≠ text → name.toList ≠ text.toList := fun text hname heq =>
    hname (String.toList_inj.mp heq)
  have hempty : name.toList ≠ [] := hne "" hempty
  have hdot : name.toList ≠ ['.'] := hne "." hdot
  have hdots : name.toList ≠ ['.', '.'] := hne ".." hdots
  rw [segments, List.splitOnP_eq_singleton hchars]
  simp [segment?, hempty, hdot, hdots, -String.toList_eq_nil_iff]

theorem file?_of_plain {name : String} (h : Plain name) : file? name = some ([], name) := by
  simp [file?, segments_of_plain h]

/-- The steps of plain names that were joined with slashes are the names. -/
theorem segments_intercalate {names : List String} (h : ∀ name ∈ names, Plain name) :
    segments ("/".intercalate names) = names.map .name := by
  induction names with
  | nil => rfl
  | cons name names ih =>
    obtain ⟨hname, hnames⟩ := List.forall_mem_cons.mp h
    by_cases hlast : names = []
    · rw [hlast, String.intercalate_singleton, segments_of_plain hname]
      rfl
    · have hslash : "/" = String.singleton '/' := rfl
      rw [String.intercalate_cons_of_ne_nil hlast, hslash, segments_append rfl, ← hslash,
        ih hnames, segments_of_plain hname]
      rfl

/-- Behind the last slash of a joined path is the name of its file. -/
theorem file?_intercalate {names : List String} {name : String}
    (h : ∀ other ∈ names ++ [name], Plain other) :
    file? ("/".intercalate (names ++ [name])) = some (names.map .name, name) := by
  rw [file?, segments_intercalate h, List.map_append, List.map_singleton, List.getLast?_concat,
    List.dropLast_concat]

/-- A text without separators is its own last part. -/
theorem lastPart_of_no_separator {text : String}
    (h : ∀ c ∈ text.toList, isSeparator c = false) : lastPart text = text := by
  simp [lastPart, List.splitOnP_eq_singleton h]

end HashArchive.Path
