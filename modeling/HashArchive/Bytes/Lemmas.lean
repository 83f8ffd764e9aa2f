/-
  HashArchive.Bytes.Lemmas

  What a number loses when it is written at a fixed width: `toNat_ofNat` reads it back
  modulo the width, and `toNat_lt` bounds every number that a byte string spells.
-/
import Mathlib
import HashArchive.Bytes

namespace HashArchive.Bytes

/-- Reading back a written number gives it modulo the width. -/
theorem toNat_ofNat (width value : Nat) :
    toNat (ofNat width value) = value % 256 ^ width := by
  induction width generalizing value with
  | zero => simp [ofNat, toNat, Nat.mod_one]
  | succ width ih =>
    have hlow : (UInt8.ofNat value).toNat = value % 256 := UInt8.toNat_ofNat'
    rw [ofNat, toNat, ih, hlow, Nat.pow_succ, Nat.mul_comm (256 ^ width) 256, Nat.mod_mul]

/-- A number spelled by `n` bytes is below `256 ^ n`. -/
theorem toNat_lt (bytes : Bytes) : toNat bytes < 256 ^ bytes.length := by
  induction bytes with
  | nil => simp [toNat]
  | cons b rest ih =>
    have hb : b.toNat < 256 := b.toNat_lt
    simp only [toNat, List.length_cons, Nat.pow_succ]
    omega

end HashArchive.Bytes
