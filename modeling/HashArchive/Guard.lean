/-
  HashArchive.Guard

  Steps that are not defined for all values: a sum that has to fit its type, a range that has
  to lie in a byte string, a directory that has to be there.  Where such a step is guarded and
  its value is not one of those, it is a trap, which no step answers by itself.
-/
import HashArchive.Error

namespace HashArchive

/-- Why a guarded step stops: it answers an error, or it is not defined. -/
inductive Halt
  | fault (error : ArchiveError)
  | trap
deriving DecidableEq, Repr

/-- What a guarded step answers. -/
abbrev Guarded (α : Type) := Except Halt α

/-- How steps are taken that are defined under a condition: as they come, where a failure is an
    error, or guarded, where it may also be a trap. -/
class Guarding (ε : Type) where
  /-- The answer of a step that is always defined. -/
  lift {α : Type} : Except ArchiveError α → Except ε α
  /-- A step that is defined under a condition only. -/
  demand {α : Type} (p : Prop) [Decidable p] : Except ε α → Except ε α
  ok_of_lift {α : Type} {x : Except ArchiveError α} {a : α} : lift x = .ok a → x = .ok a
  ok_of_demand {α : Type} {p : Prop} [Decidable p] {x : Except ε α} {a : α} :
    demand p x = .ok a → x = .ok a

namespace Guarding

variable {α : Type}

/-- Steps as they come, which is how they are taken where nothing else is said. -/
@[default_instance]
instance : Guarding ArchiveError where
  lift x := x
  demand _ _ x := x
  ok_of_lift h := h
  ok_of_demand h := h

@[simp] theorem lift_eq (x : Except ArchiveError α) : (lift x : Except ArchiveError α) = x := rfl

@[simp] theorem demand_eq (p : Prop) [Decidable p] (x : Except ArchiveError α) :
    demand p x = x := rfl

/-- Each step behind its guard. -/
instance : Guarding Halt where
  lift x := x.mapError .fault
  demand p _ x := if p then x else .error .trap
  ok_of_lift {_ x _} h := by
    cases x with
    | error error => cases h
    | ok b => exact congrArg Except.ok (Except.ok.inj h)
  ok_of_demand {_ p _ _ _} h := by
    by_cases hp : p
    · exact (if_pos hp).symm.trans h
    · cases (if_neg hp).symm.trans h

end Guarding

namespace Guarded

variable {α : Type}

/-- The answer of a step that never traps. -/
abbrev lift (x : Except ArchiveError α) : Guarded α := Guarding.lift x

theorem demand_of {p : Prop} [Decidable p] (h : p) (x : Guarded α) : Guarding.demand p x = x :=
  if_pos h

end Guarded

end HashArchive
