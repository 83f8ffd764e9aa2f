/-
  HashArchive.Proofs.Digest.Halves

  The digest in 32-bit arithmetic: the state is kept as two halves, and each step multiplies
  them by the halves of the prime, with a carry from the low half to the high one.  Splitting a
  state commutes with every byte (`split_step`), so both ways give one digest
  (`ofBytes_eq_ofHalves`).
-/
import Mathlib
import HashArchive.Digest

namespace HashArchive.Digest

/-- A number of 64 bits as two of 32. -/
structure Halves where
  low : UInt32
  high : UInt32
deriving DecidableEq, Repr

namespace Halves

/-! ## The digest in halves -/

/-- The halves of the state before the first byte. -/
def basis : Halves := { low := 0x84222325, high := 0xCBF29CE4 }

/-- The halves of the multiplier of each step. -/
def prime : Halves := { low := 0x000001B3, high := 0x00000100 }

/-- The product modulo `2 ^ 64`: that of the low halves in full, with its upper part carried
    to the two cross products; that of the high halves is beyond the modulus. -/
def mul (x y : Halves) : Halves :=
  let product := x.low.toUInt64 * y.low.toUInt64
  { low := product.toUInt32
    high := (product >>> 32).toUInt32 + x.low * y.high + x.high * y.low }

/-- One byte: combine it with the low half, then multiply. -/
def step (state : Halves) (byte : UInt8) : Halves :=
  mul { state with low := state.low ^^^ byte.toUInt32 } prime

/-- The high half combined into the low half. -/
def fold (state : Halves) : Halves := { state with low := state.low ^^^ state.high }

/-- The number that two halves make up. -/
def join (halves : Halves) : UInt64 := (halves.high.toUInt64 <<< 32) ||| halves.low.toUInt64

/-- The digest of a byte string. -/
def ofBytes (bytes : Bytes) : UInt64 := (bytes.foldl step basis).fold.join

/-! ## The halves of a number -/

/-- The halves of a number. -/
def split (n : UInt64) : Halves := { low := n.toUInt32, high := (n >>> 32).toUInt32 }

theorem toNat_shiftRight_32 (n : UInt64) : (n >>> 32).toNat = n.toNat / 2 ^ 32 := by
  rw [UInt64.toNat_shiftRight, Nat.shiftRight_eq_div_pow]
  rfl

theorem toNat_split_low (n : UInt64) : (split n).low.toNat = n.toNat % 2 ^ 32 :=
  UInt64.toNat_toUInt32 n

theorem toNat_split_high (n : UInt64) : (split n).high.toNat = n.toNat / 2 ^ 32 := by
  have hlt : n.toNat < 2 ^ 64 := n.toNat_lt
  rw [split, UInt64.toNat_toUInt32, toNat_shiftRight_32]
  omega

theorem toNat_join (halves : Halves) :
    halves.join.toNat = 2 ^ 32 * halves.high.toNat + halves.low.toNat := by
  have hlow : halves.low.toNat < 2 ^ 32 := halves.low.toNat_lt
  have hhigh : halves.high.toNat < 2 ^ 32 := halves.high.toNat_lt
  have hshift : (halves.high.toUInt64 <<< 32).toNat = 2 ^ 32 * halves.high.toNat := by
    rw [UInt64.toNat_shiftLeft, UInt32.toNat_toUInt64, Nat.shiftLeft_eq]
    show halves.high.toNat * 2 ^ 32 % 2 ^ 64 = _
    omega
  rw [join, UInt64.toNat_or, hshift, UInt32.toNat_toUInt64,
    ← Nat.two_pow_add_eq_or_of_lt hlow halves.high.toNat]

/-- A number is what its halves make up. -/
theorem join_split (n : UInt64) : (split n).join = n := by
  apply UInt64.toNat_inj.mp
  rw [toNat_join, toNat_split_low, toNat_split_high]
  omega

/-! ## Splitting commutes with the operations -/

theorem split_xor (x y : UInt64) :
    split (x ^^^ y) = { low := (split x).low ^^^ (split y).low,
                        high := (split x).high ^^^ (split y).high } := by
  simp only [split, UInt64.shiftRight_xor, UInt64.toUInt32_xor]

theorem split_of_lt {n : UInt64} (h : n.toNat < 2 ^ 32) :
    split n = { low := n.toUInt32, high := 0 } := by
  have hhigh : (split n).high = 0 := by
    apply UInt32.toNat_inj.mp
    rw [toNat_split_high, UInt32.toNat_zero]
    exact Nat.div_eq_of_lt h
  rw [← hhigh]
  rfl

/-- A byte has no high half. -/
theorem split_byte (byte : UInt8) : split byte.toUInt64 = { low := byte.toUInt32, high := 0 } := by
  have hlt : byte.toNat < 256 := byte.toNat_lt
  rw [split_of_lt (by rw [UInt8.toNat_toUInt64]; omega), UInt8.toUInt32_toUInt64]

theorem split_shiftRight (n : UInt64) :
    split (n >>> 32) = { low := (split n).high, high := 0 } := by
  have hlt : n.toNat < 2 ^ 64 := n.toNat_lt
  rw [split_of_lt (by rw [toNat_shiftRight_32]; omega)]
  rfl

/-- The upper half of a product: what the product of the lower halves carries, and the two
    cross products. -/
theorem upper_mul (xl xh yl yh : Nat) :
    (2 ^ 32 * xh + xl) * (2 ^ 32 * yh + yl) % 2 ^ 64 / 2 ^ 32
      = (xl * yl / 2 ^ 32 + xl * yh + xh * yl) % 2 ^ 32 := by
  have hproduct : (2 ^ 32 * xh + xl) * (2 ^ 32 * yh + yl)
      = xl * yl + 2 ^ 32 * (xl * yh + xh * yl) + 2 ^ 64 * (xh * yh) := by ring
  rw [hproduct]
  -- The high halves meet at `2 ^ 64`, out of the word; what is left is linear in the products.
  generalize xl * yl = low, xl * yh = cross, xh * yl = cross', xh * yh = beyond
  omega

theorem toNat_mul_high (x y : Halves) :
    (x.mul y).high.toNat
      = (x.low.toNat * y.low.toNat / 2 ^ 32 + x.low.toNat * y.high.toNat
          + x.high.toNat * y.low.toNat) % 2 ^ 32 := by
  -- The product of two numbers of 32 bits fits in 64.
  have hproduct : (x.low.toUInt64 * y.low.toUInt64).toNat = x.low.toNat * y.low.toNat := by
    have hlt : x.low.toNat * y.low.toNat < 2 ^ 32 * 2 ^ 32 :=
      Nat.mul_lt_mul'' x.low.toNat_lt y.low.toNat_lt
    rw [UInt64.toNat_mul, UInt32.toNat_toUInt64, UInt32.toNat_toUInt64]
    exact Nat.mod_eq_of_lt hlt
  rw [mul, UInt32.toNat_add, UInt32.toNat_add, UInt32.toNat_mul, UInt32.toNat_mul,
    UInt64.toNat_toUInt32, toNat_shiftRight_32, hproduct]
  omega

/-- A product is computed in halves. -/
theorem split_mul (x y : UInt64) : split (x * y) = (split x).mul (split y) := by
  have hlow : (split (x * y)).low = ((split x).mul (split y)).low := by
    simp only [split, mul, UInt64.toUInt32_mul, UInt32.toUInt32_toUInt64]
  have hhigh : (split (x * y)).high = ((split x).mul (split y)).high := by
    apply UInt32.toNat_inj.mp
    rw [toNat_split_high, UInt64.toNat_mul, toNat_mul_high, toNat_split_low, toNat_split_low,
      toNat_split_high, toNat_split_high, ← upper_mul, Nat.div_add_mod, Nat.div_add_mod]
  rw [Halves.mk.injEq]
  exact ⟨hlow, hhigh⟩

/-- One byte does the same to a state and to its halves. -/
theorem split_step (state : UInt64) (byte : UInt8) :
    split (Digest.step state byte) = (split state).step byte := by
  -- Without a high half, the byte is combined with the low half alone.
  rw [Digest.step, split_mul, split_xor, split_byte, UInt32.xor_zero]
  rfl

theorem split_fold (state : UInt64) : split (Digest.fold state) = (split state).fold := by
  rw [Digest.fold, split_xor, split_shiftRight, UInt32.xor_zero]
  rfl

/-- The halves follow the state through every byte. -/
theorem split_fnv1a (bytes : Bytes) : split (fnv1a bytes) = bytes.foldl step basis := by
  have hbasis : split Digest.basis = basis := by decide
  rw [fnv1a, ← hbasis, List.foldl_hom split fun state byte => (split_step state byte).symm]

end Halves

/-- The digest is the one that is computed in halves. -/
theorem ofBytes_eq_ofHalves (bytes : Bytes) : ofBytes bytes = Halves.ofBytes bytes := by
  rw [ofBytes, Halves.ofBytes, ← Halves.split_fnv1a, ← Halves.split_fold, Halves.join_split]

/-- The letter `a` in UTF-16. -/
example : Halves.ofBytes [0x61, 0x00] = 0x089BE207BDDF13E3 := by decide

end HashArchive.Digest
