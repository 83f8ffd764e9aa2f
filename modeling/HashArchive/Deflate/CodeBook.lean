/-
  HashArchive.Deflate.CodeBook

  Canonical prefix codes.  A code is given by the length of each symbol's word; the
  words of one length are consecutive numbers in the order of the symbols, and the
  shorter words come before the longer.  The book is built as a binary tree, level by
  level from the longest words up.
-/
import HashArchive.Deflate.Bits

namespace HashArchive.Deflate

open Outcome

/-- The ways in which a word can go on: it is a symbol's, it needs another bit, or no
    word begins so. -/
inductive Code
  | absent
  | symbol (value : Nat)
  | branch (zero one : Code)
deriving Repr, DecidableEq

/-- A prefix code: no word is empty, so there is always a first bit. -/
structure CodeBook where
  zero : Code
  one : Code
deriving Repr, DecidableEq

namespace Code

/-- The symbols with words of the given length, in order. -/
def ofLength (lengths : List Nat) (length : Nat) : List Code :=
  lengths.zipIdx.filterMap fun (l, value) => if l = length then some (.symbol value) else none

/-- Joins neighbours into branches; the last of an odd number gets no neighbour. -/
def pairUp : List Code → List Code
  | zero :: one :: rest => .branch zero one :: pairUp rest
  | [zero] => [.branch zero .absent]
  | [] => []

/-- The nodes of the tree at a depth of `maxLength - height`. -/
def level (lengths : List Nat) (maxLength : Nat) : (height : Nat) → List Code
  | 0 => ofLength lengths maxLength
  | height + 1 =>
    -- The words that end here come before those that go on.
    ofLength lengths (maxLength - (height + 1)) ++ pairUp (level lengths maxLength height)

/-- Follows the bits to a symbol. -/
def decode : Code → (bits : List Bool) → Except Fault (Nat × List Bool)
  | absent, _ => .error .malformed
  | symbol value, bits => .ok (value, bits)
  | branch _ _, [] => .error .truncated
  | branch zero _, false :: bits => zero.decode bits
  | branch _ one, true :: bits => one.decode bits

theorem length_of_decode {code : Code} {value : Nat} {bits rest : List Bool}
    (h : code.decode bits = .ok (value, rest)) : rest.length ≤ bits.length := by
  fun_induction decode code bits with
  | case1 => cases h
  | case2 value bits =>
    obtain ⟨-, rfl⟩ := Prod.mk.inj (Except.ok.inj h)
    exact Nat.le_refl _
  | case3 => cases h
  | case4 zero one bits ih => exact Nat.le_trans (ih h) (Nat.le_succ _)
  | case5 zero one bits ih => exact Nat.le_trans (ih h) (Nat.le_succ _)

end Code

namespace CodeBook

/-- The greatest length of a word. -/
def maxLength : Nat := 15

/-- The book of a list of word lengths, in which zero means that a symbol has no word. -/
def ofLengths (lengths : List Nat) : CodeBook :=
  -- Of a code with too many words only the first tree would be kept.
  match Code.pairUp (Code.level lengths maxLength (maxLength - 1)) with
  | .branch zero one :: _ => { zero, one }
  | _ => { zero := .absent, one := .absent }

/-- The share of all bit strings that the words take up, in units of the longest word. -/
def share : (lengths : List Nat) → Nat
  | [] => 0
  | length :: rest => (if length = 0 then 0 else 1 <<< (maxLength - length)) + share rest

/-- Whether every bit string begins with exactly one word. -/
def Complete (lengths : List Nat) : Prop := share lengths = 1 <<< maxLength

instance (lengths : List Nat) : Decidable (Complete lengths) :=
  inferInstanceAs (Decidable (_ = _))

/-- The lengths of the words that there are, in the order of their symbols. -/
def wordLengths (lengths : List Nat) : List Nat := lengths.filter (· ≠ 0)

/-- Whether there is no word, or only one, of a single bit. -/
def Sparse (lengths : List Nat) : Prop := wordLengths lengths = [] ∨ wordLengths lengths = [1]

instance (lengths : List Nat) : Decidable (Sparse lengths) :=
  inferInstanceAs (Decidable (_ ∨ _))

/-- The book in which every single bit is a word of the same symbol. -/
def constant (value : Nat) : CodeBook := { zero := .symbol value, one := .symbol value }

/-- The next symbol. -/
def decode (book : CodeBook) : (bits : List Bool) → Except Fault (Nat × List Bool)
  | [] => .error .truncated
  | false :: bits => book.zero.decode bits
  | true :: bits => book.one.decode bits

theorem length_of_decode {book : CodeBook} {value : Nat} {bits rest : List Bool}
    (h : book.decode bits = .ok (value, rest)) : rest.length < bits.length := by
  match bits, h with
  | false :: bits, h => exact Nat.lt_succ_of_le (Code.length_of_decode h)
  | true :: bits, h => exact Nat.lt_succ_of_le (Code.length_of_decode h)

end CodeBook

end HashArchive.Deflate
