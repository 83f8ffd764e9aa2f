/-
  HashArchive.Proofs.Name.Order

  The order in which siblings are listed is a strict total order on names, so a list of
  names that ascends in it is determined by the names it holds.
-/
import Mathlib
import HashArchive.Name

namespace HashArchive.Name

/-- A name comes before another one by its lower-case form, or by itself among those that
    share it. -/
theorem before_iff {a b : String} :
    before a b = true ↔
      Text.lowercase a < Text.lowercase b ∨ Text.lowercase a = Text.lowercase b ∧ a < b := by
  simp only [before, Bool.or_eq_true, Bool.and_eq_true, decide_eq_true_eq, beq_iff_eq]

/-- No name comes before itself. -/
theorem before_irrefl (a : String) : before a a = false := by
  rw [← Bool.not_eq_true, before_iff]
  rintro (h | ⟨-, h⟩)
  · exact lt_irrefl _ h
  · exact lt_irrefl _ h

theorem before_trans {a b c : String} (hab : before a b = true) (hbc : before b c = true) :
    before a c = true := by
  rw [before_iff] at hab hbc ⊢
  rcases hab with hab | ⟨hab, hab'⟩
  · rcases hbc with hbc | ⟨hbc, -⟩
    · exact Or.inl (lt_trans hab hbc)
    · exact Or.inl (hbc ▸ hab)
  · rcases hbc with hbc | ⟨hbc, hbc'⟩
    · exact Or.inl (hab ▸ hbc)
    · exact Or.inr ⟨hab.trans hbc, lt_trans hab' hbc'⟩

theorem before_asymm {a b : String} (hab : before a b = true) : before b a = false := by
  rw [← Bool.not_eq_true]
  intro hba
  have h := before_trans hab hba
  rw [before_irrefl] at h
  cases h

/-- Names that come in neither order are the same. -/
theorem eq_of_not_before {a b : String} (hab : before a b = false) (hba : before b a = false) :
    a = b := by
  rw [← Bool.not_eq_true, before_iff] at hab hba
  push Not at hab hba
  have hlower : Text.lowercase a = Text.lowercase b := le_antisymm hba.1 hab.1
  exact le_antisymm (hba.2 hlower.symm) (hab.2 hlower)

theorem ne_of_before {a b : String} (h : before a b = true) : a ≠ b := by
  rintro rfl
  rw [before_irrefl] at h
  cases h

/-! ## Ranks -/

/-- What names are ordered by: the lower-case form, and then the name itself. -/
def rank (name : String) : String ×ₗ String := toLex (Text.lowercase name, name)

theorem before_iff_rank_lt {a b : String} : before a b = true ↔ rank a < rank b := by
  rw [before_iff, rank, rank, Prod.Lex.toLex_lt_toLex]

/-- Names of one rank are the same. -/
theorem rank_inj {a b : String} : rank a = rank b ↔ a = b := by
  refine ⟨fun heq => ?_, congrArg rank⟩
  exact (Prod.mk.inj (toLex_inj.mp heq)).2

end HashArchive.Name
