/-
  HashArchive.Digest

  The 64-bit digest that stands for names: FNV-1a over the bytes, with the high half
  folded into the low half at the end.
-/
import HashArchive.Bytes

namespace HashArchive.Digest

/-- The state before the first byte. -/
def basis : UInt64 := 0xCBF29CE484222325

/-- The multiplier of each step. -/
def prime : UInt64 := 0x00000100000001B3

/-- One byte: combine it with the low byte of the state, then multiply. -/
def step (state : UInt64) (byte : UInt8) : UInt64 := (state ^^^ byte.toUInt64) * prime

/-- The unfolded digest of a byte string. -/
def fnv1a (bytes : Bytes) : UInt64 := bytes.foldl step basis

/-- The high half combined into the low half. -/
def fold (state : UInt64) : UInt64 := state ^^^ (state >>> 32)

/-- The digest of a byte string. -/
def ofBytes (bytes : Bytes) : UInt64 := fold (fnv1a bytes)

end HashArchive.Digest
