/-
  HashArchive.Bytes

  Byte strings and the little-endian numbers in them.  Every number of the format is
  written by `Bytes.ofNat` at a fixed width and read back by `Bytes.toNat`.
-/

namespace HashArchive

/-- A byte string. -/
abbrev Bytes := List UInt8

namespace Bytes

/-! ## Little-endian numbers -/

/-- The lowest `width` bytes of a number, lowest first. -/
def ofNat : (width value : Nat) → Bytes
  | 0, _ => []
  | width + 1, value => UInt8.ofNat value :: ofNat width (value / 256)

/-- The number that a byte string spells, lowest byte first. -/
def toNat : Bytes → Nat
  | [] => 0
  | b :: rest => b.toNat + 256 * toNat rest

@[simp] theorem length_ofNat (width value : Nat) : (ofNat width value).length = width := by
  induction width generalizing value with
  | zero => rfl
  | succ width ih => simp [ofNat, ih]

/-- Writing the number that a byte string spells gives the string back. -/
theorem ofNat_toNat (bytes : Bytes) : ofNat bytes.length (toNat bytes) = bytes := by
  induction bytes with
  | nil => rfl
  | cons b rest ih =>
    have hb : b.toNat < 256 := b.toNat_lt
    have hdiv : (b.toNat + 256 * toNat rest) / 256 = toNat rest := by omega
    have hlow : UInt8.ofNat (b.toNat + 256 * toNat rest) = b := by
      apply UInt8.toNat_inj.mp
      rw [UInt8.toNat_ofNat']
      omega
    simp only [List.length_cons, ofNat, toNat, hdiv, hlow, ih]

/-! ## The fields of the format -/

/-- An unsigned 16-bit field. -/
def ofUInt16 (n : UInt16) : Bytes := ofNat 2 n.toNat

/-- An unsigned 32-bit field. -/
def ofUInt32 (n : UInt32) : Bytes := ofNat 4 n.toNat

/-- An unsigned 64-bit field. -/
def ofUInt64 (n : UInt64) : Bytes := ofNat 8 n.toNat

/-- A signed 32-bit field, in two's complement. -/
def ofInt32 (n : Int32) : Bytes := ofUInt32 n.toUInt32

/-- A signed 64-bit field, in two's complement. -/
def ofInt64 (n : Int64) : Bytes := ofUInt64 n.toUInt64

/-! ## Taking a fixed number of bytes -/

/-- The first `n` bytes and the rest, when there are `n`. -/
def split? (n : Nat) (bytes : Bytes) : Option (Bytes × Bytes) :=
  let front := bytes.take n
  if front.length = n then some (front, bytes.drop n) else none

theorem split?_append (front rest : Bytes) :
    split? front.length (front ++ rest) = some (front, rest) := by
  simp [split?]

theorem split?_eq_some_iff {n : Nat} {bytes front rest : Bytes} :
    split? n bytes = some (front, rest) ↔ bytes = front ++ rest ∧ front.length = n := by
  constructor
  · intro h
    unfold split? at h
    simp only [Option.ite_none_right_eq_some, Option.some.injEq, Prod.mk.injEq] at h
    obtain ⟨hlen, rfl, rfl⟩ := h
    exact ⟨(List.take_append_drop n bytes).symm, hlen⟩
  · rintro ⟨rfl, rfl⟩
    exact split?_append front rest

theorem split?_eq_none_iff {n : Nat} {bytes : Bytes} :
    split? n bytes = none ↔ bytes.length < n := by
  unfold split?
  by_cases h : (bytes.take n).length = n
  · simp only [h, if_true, reduceCtorEq, false_iff]
    rw [List.length_take] at h
    omega
  · simp only [h, if_false, true_iff]
    rw [List.length_take] at h
    omega

end Bytes

/-! ## Bytes in one piece -/

/-- A byte string in one piece of memory, whose size is at hand. -/
structure Block where
  array : ByteArray

namespace Block

instance : DecidableEq Block := fun a b =>
  match ByteArray.instDecidableEq a.array b.array with
  | isTrue h => isTrue (congrArg Block.mk h)
  | isFalse h => isFalse fun heq => h (congrArg Block.array heq)

/-- The block that holds a byte string. -/
def ofBytes (bytes : Bytes) : Block := ⟨⟨bytes.toArray⟩⟩

/-- The byte string that a block holds. -/
def bytes (block : Block) : Bytes := block.array.data.toList

/-- How many bytes a block holds. -/
def size (block : Block) : Nat := block.array.size

@[simp] theorem bytes_ofBytes (bytes : Bytes) : (ofBytes bytes).bytes = bytes := rfl

instance : Repr Block := ⟨fun block => reprPrec block.bytes⟩

end Block

end HashArchive
