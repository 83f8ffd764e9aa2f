/-
  HashArchive.Deflate.Bits

  A deflate stream as a list of bits, lowest bit of the first byte first, and the
  numbers and bytes taken off its front.
-/
import HashArchive.Bytes
import HashArchive.Outcome
import HashArchive.Deflate.Fault

namespace HashArchive.Deflate.Bits

open Outcome

/-- The bits of a byte, lowest first. -/
def ofByte (byte : UInt8) : List Bool :=
  [0, 1, 2, 3, 4, 5, 6, 7].map byte.toNat.testBit

/-- The bits of a byte string. -/
def ofBytes (bytes : Bytes) : List Bool := bytes.flatMap ofByte

/-- The number that a list of bits spells, lowest first. -/
def toNat : List Bool → Nat
  | [] => 0
  | bit :: rest => bit.toNat + 2 * toNat rest

/-- A number of `n` bits. -/
def take : (n : Nat) → (bits : List Bool) → Except Fault (Nat × List Bool)
  | 0, bits => .ok (0, bits)
  | _ + 1, [] => .error .truncated
  | n + 1, bit :: bits => do
    let (high, rest) ← take n bits
    return (bit.toNat + 2 * high, rest)

/-- As many numbers of `width` bits as given. -/
def takeMany (width : Nat) : (count : Nat) → (bits : List Bool) →
    Except Fault (List Nat × List Bool)
  | 0, bits => .ok ([], bits)
  | count + 1, bits => do
    let (first, bits) ← take width bits
    let (others, bits) ← takeMany width count bits
    return (first :: others, bits)

/-- As many whole bytes as given, added to the output. -/
def takeBytes : (count : Nat) → (bits : List Bool) → (output : Array UInt8) →
    Except Fault (Array UInt8 × List Bool)
  | 0, bits, output => .ok (output, bits)
  | count + 1, b0 :: b1 :: b2 :: b3 :: b4 :: b5 :: b6 :: b7 :: bits, output =>
    takeBytes count bits (output.push (UInt8.ofNat (toNat [b0, b1, b2, b3, b4, b5, b6, b7])))
  | _ + 1, _, _ => .error .truncated

/-- The bits from the next byte boundary on: what is left of a stream of whole bytes
    tells how far that is. -/
def align (bits : List Bool) : List Bool := bits.drop (bits.length % 8)

/-! ## What is left -/

theorem length_of_take {n value : Nat} {bits rest : List Bool}
    (h : take n bits = .ok (value, rest)) : bits.length = n + rest.length := by
  induction n generalizing bits value with
  | zero =>
    obtain ⟨-, rfl⟩ := Prod.mk.inj (Except.ok.inj h)
    omega
  | succ n ih =>
    cases bits with
    | nil => cases h
    | cons bit bits =>
      obtain ⟨⟨high, rest'⟩, hhigh, h⟩ := bind_eq_ok_iff.mp h
      obtain ⟨-, rfl⟩ := pure_pair_eq_ok_iff.mp h
      have := ih hhigh
      rw [List.length_cons]
      omega

theorem length_of_takeMany {width count : Nat} {values : List Nat} {bits rest : List Bool}
    (h : takeMany width count bits = .ok (values, rest)) :
    bits.length = count * width + rest.length := by
  induction count generalizing bits values with
  | zero =>
    obtain ⟨-, rfl⟩ := Prod.mk.inj (Except.ok.inj h)
    omega
  | succ count ih =>
    obtain ⟨⟨first, bits₁⟩, hfirst, h⟩ := bind_eq_ok_iff.mp h
    obtain ⟨⟨others, bits₂⟩, hothers, h⟩ := bind_eq_ok_iff.mp h
    obtain ⟨-, rfl⟩ := pure_pair_eq_ok_iff.mp h
    have h₁ := length_of_take hfirst
    have h₂ := ih hothers
    rw [Nat.succ_mul]
    omega

theorem length_of_takeBytes {count : Nat} {bits rest : List Bool} {output output' : Array UInt8}
    (h : takeBytes count bits output = .ok (output', rest)) :
    bits.length = 8 * count + rest.length := by
  fun_induction takeBytes count bits output with
  | case1 bits output =>
    obtain ⟨-, rfl⟩ := Prod.mk.inj (Except.ok.inj h)
    omega
  | case2 output count b0 b1 b2 b3 b4 b5 b6 b7 bits ih =>
    have := ih h
    simp only [List.length_cons]
    omega
  | case3 => cases h

theorem length_align_le (bits : List Bool) : (align bits).length ≤ bits.length := by
  simp [align]

end HashArchive.Deflate.Bits
