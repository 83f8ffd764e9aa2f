/-
  HashArchive.Proofs.Path.Parts

  Paths by their parts, the texts between separators that stand for steps.  A path has no file
  exactly if no part is left or the last one leads up (`file?_eq_none_iff`).
-/
import Mathlib
import HashArchive.Path

namespace HashArchive.Path

/-- The parts of a path that stand for steps: those that are neither empty nor `.`. -/
def parts (path : String) : List (List Char) :=
  (path.toList.splitOnP isSeparator).filter fun part => part ≠ [] ∧ part ≠ ['.']

/-- A path that does not end in a name: no part is left of it, or the last one is `..`. -/
def Nameless (path : String) : Prop :=
  parts path = [] ∨ (parts path).getLast? = some ['.', '.']

instance (path : String) : Decidable (Nameless path) :=
  inferInstanceAs (Decidable (_ ∨ _))

/-- The step that a part stands for. -/
def step (part : List Char) : Segment :=
  if part = ['.', '.'] then .parent else .name (String.ofList part)

theorem segments_eq_map_parts (path : String) : segments path = (parts path).map step := by
  rw [segments, parts]
  generalize path.toList.splitOnP isSeparator = split
  induction split with
  | nil => rfl
  | cons part split ih =>
    rw [List.filterMap_cons, List.filter_cons, segment?]
    by_cases hdropped : part = [] ∨ part = ['.']
    · have hnot : ¬ (part ≠ [] ∧ part ≠ ['.']) := by tauto
      rw [if_pos hdropped, decide_eq_false hnot]
      exact ih
    · have hkept : part ≠ [] ∧ part ≠ ['.'] := by tauto
      rw [if_neg hdropped, decide_eq_true hkept, if_pos rfl, List.map_cons, step, ← ih]
      split_ifs <;> rfl

theorem segments_eq_nil_iff {path : String} : segments path = [] ↔ parts path = [] := by
  rw [segments_eq_map_parts, List.map_eq_nil_iff]

/-- A path has no file exactly if it does not end in a name. -/
theorem file?_eq_none_iff {path : String} : file? path = none ↔ Nameless path := by
  rw [Nameless, ← List.getLast?_eq_none_iff, file?, segments_eq_map_parts, List.getLast?_map]
  cases (parts path).getLast? with
  | none => exact iff_of_true rfl (Or.inl rfl)
  | some part =>
    rw [Option.map_some, step]
    by_cases hup : part = ['.', '.']
    · rw [if_pos hup]
      exact iff_of_true rfl (Or.inr (congrArg some hup))
    · rw [if_neg hup]
      refine iff_of_false (Option.some_ne_none _) (not_or.mpr ⟨Option.some_ne_none part, ?_⟩)
      exact fun hsome => hup (Option.some.inj hsome)

theorem length_segments (path : String) : (segments path).length = (parts path).length := by
  rw [segments_eq_map_parts, List.length_map]

end HashArchive.Path
