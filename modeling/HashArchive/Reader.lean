/-
  HashArchive.Reader

  Readers take a value off the front of a byte string and give the rest back; one
  that meets the end of the bytes fails with `endOfStream`.
-/
import HashArchive.Guard
import HashArchive.Outcome

namespace HashArchive

open Outcome

/-- A reader of values of a type, which may also fail in other ways than by an error. -/
abbrev ReaderIn (ε α : Type) := Bytes → Except ε (α × Bytes)

/-- A reader of values of a type. -/
abbrev Reader (α : Type) := ReaderIn ArchiveError α

namespace Reader

open Guarding (lift demand ok_of_lift ok_of_demand)

variable {ε α : Type}

/-- Exactly `n` bytes. -/
def exactly (n : Nat) : Reader Bytes := fun bytes =>
  match bytes.split? n with
  | some (field, rest) => .ok (field, rest)
  | none => .error .endOfStream

/-- A number of `width` bytes. -/
def number (width : Nat) : Reader Nat := fun bytes => do
  let (field, rest) ← exactly width bytes
  return (Bytes.toNat field, rest)

/-- An unsigned 16-bit field. -/
def uint16 : Reader UInt16 := fun bytes => do
  let (n, rest) ← number 2 bytes
  return (UInt16.ofNat n, rest)

/-- An unsigned 32-bit field. -/
def uint32 : Reader UInt32 := fun bytes => do
  let (n, rest) ← number 4 bytes
  return (UInt32.ofNat n, rest)

/-- An unsigned 64-bit field. -/
def uint64 : Reader UInt64 := fun bytes => do
  let (n, rest) ← number 8 bytes
  return (UInt64.ofNat n, rest)

/-- A signed 32-bit field. -/
def int32 : Reader Int32 := fun bytes => do
  let (n, rest) ← uint32 bytes
  return (n.toInt32, rest)

/-- A signed 64-bit field. -/
def int64 : Reader Int64 := fun bytes => do
  let (n, rest) ← uint64 bytes
  return (n.toInt64, rest)

/-- A signed 32-bit field that counts something. -/
def count [Guarding ε] (kind : CountKind) : ReaderIn ε Nat := fun bytes => do
  let (n, rest) ← lift (int32 bytes)
  if n < 0 then
    lift (.error (.corrupt (.negativeCount kind n.toInt)))
  else
    demand (0 ≤ n.toInt) (return (n.toInt.toNat, rest))

/-- As many items as given, one after another. -/
def times (item : Reader α) : (n : Nat) → Reader (List α)
  | 0 => fun bytes => .ok ([], bytes)
  | n + 1 => fun bytes => do
    let (first, bytes) ← item bytes
    let (others, bytes) ← times item n bytes
    return (first :: others, bytes)

/-! ## What readers leave -/

/-- Taking `n` bytes leaves as many fewer. -/
theorem length_of_exactly {n : Nat} {bytes field rest : Bytes}
    (h : exactly n bytes = .ok (field, rest)) : bytes.length = n + rest.length := by
  unfold exactly at h
  split at h
  · next front back hsplit =>
    obtain ⟨rfl, rfl⟩ := Prod.mk.inj (Except.ok.inj h)
    obtain ⟨rfl, hlen⟩ := Bytes.split?_eq_some_iff.mp hsplit
    rw [List.length_append, hlen]
  · cases h

theorem length_of_number {width n : Nat} {bytes rest : Bytes}
    (h : number width bytes = .ok (n, rest)) : bytes.length = width + rest.length := by
  obtain ⟨⟨field, rest'⟩, hfield, hrest⟩ := bind_eq_ok_iff.mp h
  obtain ⟨-, rfl⟩ := pure_pair_eq_ok_iff.mp hrest
  exact length_of_exactly hfield

theorem length_of_uint16 {n : UInt16} {bytes rest : Bytes}
    (h : uint16 bytes = .ok (n, rest)) : bytes.length = 2 + rest.length := by
  obtain ⟨⟨field, rest'⟩, hfield, hrest⟩ := bind_eq_ok_iff.mp h
  obtain ⟨-, rfl⟩ := pure_pair_eq_ok_iff.mp hrest
  exact length_of_number hfield

theorem length_of_uint32 {n : UInt32} {bytes rest : Bytes}
    (h : uint32 bytes = .ok (n, rest)) : bytes.length = 4 + rest.length := by
  obtain ⟨⟨field, rest'⟩, hfield, hrest⟩ := bind_eq_ok_iff.mp h
  obtain ⟨-, rfl⟩ := pure_pair_eq_ok_iff.mp hrest
  exact length_of_number hfield

theorem length_of_uint64 {n : UInt64} {bytes rest : Bytes}
    (h : uint64 bytes = .ok (n, rest)) : bytes.length = 8 + rest.length := by
  obtain ⟨⟨field, rest'⟩, hfield, hrest⟩ := bind_eq_ok_iff.mp h
  obtain ⟨-, rfl⟩ := pure_pair_eq_ok_iff.mp hrest
  exact length_of_number hfield

theorem length_of_int32 {n : Int32} {bytes rest : Bytes}
    (h : int32 bytes = .ok (n, rest)) : bytes.length = 4 + rest.length := by
  obtain ⟨⟨field, rest'⟩, hfield, hrest⟩ := bind_eq_ok_iff.mp h
  obtain ⟨-, rfl⟩ := pure_pair_eq_ok_iff.mp hrest
  exact length_of_uint32 hfield

theorem length_of_int64 {n : Int64} {bytes rest : Bytes}
    (h : int64 bytes = .ok (n, rest)) : bytes.length = 8 + rest.length := by
  obtain ⟨⟨field, rest'⟩, hfield, hrest⟩ := bind_eq_ok_iff.mp h
  obtain ⟨-, rfl⟩ := pure_pair_eq_ok_iff.mp hrest
  exact length_of_uint64 hfield

theorem length_of_count [Guarding ε] {kind : CountKind} {n : Nat} {bytes rest : Bytes}
    (h : (count kind bytes : Except ε (Nat × Bytes)) = .ok (n, rest)) :
    bytes.length = 4 + rest.length := by
  obtain ⟨⟨field, rest'⟩, hfield, hrest⟩ := bind_eq_ok_iff.mp h
  dsimp only at hrest
  split at hrest
  · cases ok_of_lift hrest
  · obtain ⟨-, rfl⟩ := pure_pair_eq_ok_iff.mp (ok_of_demand hrest)
    exact length_of_int32 (ok_of_lift hfield)

/-- Items that take `width` bytes each take `n` times as many together. -/
theorem length_of_times {item : Reader α} {width : Nat}
    (hitem : ∀ {bytes rest : Bytes} {a : α}, item bytes = .ok (a, rest) →
      bytes.length = width + rest.length)
    {n : Nat} {bytes rest : Bytes} {items : List α}
    (h : times item n bytes = .ok (items, rest)) : bytes.length = n * width + rest.length := by
  induction n generalizing bytes items with
  | zero =>
    obtain ⟨-, rfl⟩ := Prod.mk.inj (Except.ok.inj h)
    simp
  | succ n ih =>
    obtain ⟨⟨first, bytes₁⟩, hfirst, h⟩ := bind_eq_ok_iff.mp h
    obtain ⟨⟨others, bytes₂⟩, hothers, h⟩ := bind_eq_ok_iff.mp h
    obtain ⟨-, rfl⟩ := pure_pair_eq_ok_iff.mp h
    have h₁ := hitem hfirst
    have h₂ := ih hothers
    rw [Nat.succ_mul]
    omega

end Reader

end HashArchive
