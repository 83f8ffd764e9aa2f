/-
  HashArchive.Proofs.Glob.Matching

  What a glob stands for.  A name is cut into parts, one for each character of the glob
  (`matches_iff_parts`), where `*` may get any part and so two of them get no more than one
  (`matches_any_any_iff`).  The rows of the matcher hold the answer for each end of the name, and
  the answer for the whole name is the right one (`matches?_eq_true_iff`).
-/
import Mathlib
import HashArchive.Glob

namespace HashArchive

/-- The parts of a name that a character of a glob stands for. -/
def Wildcard.Covers : Wildcard → List Char → Prop
  | any, _ => True
  | one, part => part.length = 1
  | exactly c, part => part = [c]

namespace Glob

variable {glob other : Glob} {wildcard : Wildcard} {name : List Char} {c d : Char}

/-! ## Names in parts -/

theorem matches_nil_iff : Matches [] name ↔ name = [] := by
  refine ⟨?_, ?_⟩
  · rintro ⟨⟩
    rfl
  · rintro rfl
    exact .nil

theorem matches_any_append (h : Matches glob name) (part : List Char) :
    Matches (.any :: glob) (part ++ name) := by
  induction part with
  | nil => exact .anyNone h
  | cons c part ih => exact .anySome ih

theorem exists_of_matches_any (h : Matches (.any :: glob) name) :
    ∃ part rest, name = part ++ rest ∧ Matches glob rest := by
  -- The characters that the wildcard gets are taken off one at a time.
  induction name with
  | nil =>
    cases h with
    | anyNone h => exact ⟨[], [], rfl, h⟩
  | cons c name ih =>
    cases h with
    | anyNone h => exact ⟨[], c :: name, rfl, h⟩
    | anySome h =>
      obtain ⟨part, rest, rfl, hrest⟩ := ih h
      exact ⟨c :: part, rest, rfl, hrest⟩

/-- The first character of a glob stands for some front of the name. -/
theorem matches_cons_iff :
    Matches (wildcard :: glob) name ↔
      ∃ part rest, name = part ++ rest ∧ wildcard.Covers part ∧ Matches glob rest := by
  cases wildcard with
  | any =>
    refine ⟨fun h => ?_, ?_⟩
    · obtain ⟨part, rest, hname, hrest⟩ := exists_of_matches_any h
      exact ⟨part, rest, hname, trivial, hrest⟩
    · rintro ⟨part, rest, rfl, -, hrest⟩
      exact matches_any_append hrest part
  | one =>
    refine ⟨fun h => ?_, ?_⟩
    · cases h with
      | one hrest => exact ⟨[_], _, rfl, rfl, hrest⟩
    · rintro ⟨part, rest, rfl, hpart, hrest⟩
      obtain ⟨c, rfl⟩ := List.length_eq_one_iff.mp hpart
      exact .one hrest
  | exactly c =>
    refine ⟨fun h => ?_, ?_⟩
    · cases h with
      | exactly hrest => exact ⟨[c], _, rfl, rfl, hrest⟩
    · rintro ⟨part, rest, rfl, rfl, hrest⟩
      exact .exactly hrest

/-- A glob stands for what can be cut into parts for its characters. -/
theorem matches_iff_parts :
    Matches glob name ↔
      ∃ parts, List.Forall₂ Wildcard.Covers glob parts ∧ parts.flatten = name := by
  induction glob generalizing name with
  | nil =>
    rw [matches_nil_iff]
    refine ⟨?_, ?_⟩
    · rintro rfl
      exact ⟨[], .nil, rfl⟩
    · rintro ⟨parts, hparts, rfl⟩
      rw [List.forall₂_nil_left_iff.mp hparts]
      rfl
  | cons wildcard glob ih =>
    rw [matches_cons_iff]
    refine ⟨?_, ?_⟩
    · rintro ⟨part, rest, rfl, hpart, hrest⟩
      obtain ⟨parts, hparts, rfl⟩ := ih.mp hrest
      exact ⟨part :: parts, .cons hpart hparts, rfl⟩
    · rintro ⟨parts, hparts, rfl⟩
      obtain ⟨part, others, hpart, hothers, rfl⟩ := List.forall₂_cons_left_iff.mp hparts
      exact ⟨part, others.flatten, rfl, hpart, ih.mpr ⟨others, hothers, rfl⟩⟩

/-- Two `*` in a row stand for what one does. -/
theorem matches_any_any_iff :
    Matches (.any :: .any :: glob) name ↔ Matches (.any :: glob) name := by
  refine ⟨fun h => ?_, .anyNone⟩
  -- What the two of them get stands together, so one of them could have got it.
  obtain ⟨first, middle, rfl, hmiddle⟩ := exists_of_matches_any h
  obtain ⟨second, rest, rfl, hrest⟩ := exists_of_matches_any hmiddle
  rw [← List.append_assoc]
  exact matches_any_append hrest (first ++ second)

/-- Behind the same characters globs differ only if they do by themselves. -/
theorem matches_append_congr (front : Glob)
    (h : ∀ name, Matches glob name ↔ Matches other name) :
    ∀ name, Matches (front ++ glob) name ↔ Matches (front ++ other) name := by
  induction front with
  | nil => exact h
  | cons wildcard front ih =>
    intro name
    rw [List.cons_append, List.cons_append, matches_cons_iff, matches_cons_iff]
    simp only [ih]

/-! ## Rows -/

/-- The first answer of a row, which is that for the whole name. -/
def answer (glob : Glob) (name : List Char) : Bool := (row name glob).head?.getD false

theorem row_nil (glob : Glob) : row [] glob = [answer glob []] := by
  induction glob with
  | nil => rfl
  | cons wildcard glob ih =>
    cases wildcard with
    | any =>
      rw [answer, row, ih]
      rfl
    | one => rfl
    | exactly c => rfl

/-- Behind its first answer a row is that for the name without its first character. -/
theorem row_cons (glob : Glob) (c : Char) (name : List Char) :
    row (c :: name) glob = answer glob (c :: name) :: row name glob := by
  induction glob with
  | nil => rfl
  | cons wildcard glob ih =>
    -- Each wildcard makes its row from the end, one answer for each character.
    cases wildcard
    all_goals
      rw [answer, row, ih]
      rfl

theorem answer_any_nil (glob : Glob) : answer (.any :: glob) [] = answer glob [] := by
  rw [answer, row, row_nil]
  exact Bool.or_false _

theorem answer_any_cons (glob : Glob) (c : Char) (name : List Char) :
    answer (.any :: glob) (c :: name)
      = (answer glob (c :: name) || answer (.any :: glob) name) := by
  rw [answer, row, row_cons]
  rfl

theorem answer_one_cons (glob : Glob) (c : Char) (name : List Char) :
    answer (.one :: glob) (c :: name) = answer glob name := by
  rw [answer, row, row_cons]
  rfl

theorem answer_exactly_cons (glob : Glob) (c d : Char) (name : List Char) :
    answer (.exactly d :: glob) (c :: name) = (c == d && answer glob name) := by
  rw [answer, row, row_cons]
  rfl

/-- Each answer of a row says whether the end of the name that it is for is matched. -/
theorem answer_eq_true_iff : answer glob name = true ↔ Matches glob name := by
  induction glob generalizing name with
  | nil =>
    rw [matches_nil_iff]
    cases name with
    | nil => exact iff_of_true rfl rfl
    | cons c name => exact iff_of_false Bool.false_ne_true (List.cons_ne_nil c name)
  | cons wildcard glob ih =>
    cases wildcard with
    | any =>
      -- The row of `*` is filled in from its end, so the name is taken apart as well.
      induction name with
      | nil =>
        rw [answer_any_nil, ih]
        refine ⟨.anyNone, fun h => ?_⟩
        cases h with
        | anyNone h => exact h
      | cons c name ihName =>
        rw [answer_any_cons, Bool.or_eq_true, ih, ihName]
        refine ⟨fun h => h.elim .anyNone .anySome, fun h => ?_⟩
        cases h with
        | anyNone h => exact Or.inl h
        | anySome h => exact Or.inr h
    | one =>
      cases name with
      | nil => exact iff_of_false Bool.false_ne_true fun h => by cases h
      | cons c name =>
        rw [answer_one_cons, ih]
        refine ⟨.one, fun h => ?_⟩
        cases h with
        | one h => exact h
    | exactly d =>
      cases name with
      | nil => exact iff_of_false Bool.false_ne_true fun h => by cases h
      | cons c name =>
        rw [answer_exactly_cons, Bool.and_eq_true, beq_iff_eq, ih]
        refine ⟨?_, fun h => ?_⟩
        · rintro ⟨rfl, h⟩
          exact .exactly h
        · cases h with
          | exactly h => exact ⟨rfl, h⟩

/-- The matcher does what the globs say. -/
theorem matches?_eq_true_iff {name : String} :
    glob.matches? name = true ↔ Matches glob name.toList := answer_eq_true_iff

end Glob

end HashArchive
