/-
  HashArchive.Metadata

  The metadata blocks: their framing, the packed name table inside its block, and the
  search for one block of each kind.
-/
import HashArchive.Packed
import HashArchive.Record

namespace HashArchive

open Outcome

open Guarding (lift demand ok_of_lift ok_of_demand)

variable {ε : Type} [Guarding ε]

namespace BlockKind

/-- A block as bytes: its number, the length of its payload, and the payload. -/
def encode (kind : BlockKind) (payload : Bytes) : Bytes :=
  Bytes.ofInt32 kind.number ++ Bytes.ofNat 8 payload.length ++ payload

/-- Takes a block off the front. -/
def read : ReaderIn ε (BlockKind × Bytes) := fun bytes => do
  let (number, bytes) ← lift (Reader.int32 bytes)
  let (size, bytes) ← lift (Reader.int64 bytes)
  -- Both fields are read before either is judged.
  match ofNumber? number with
  | none => lift (.error (.unknownBlock number.toInt))
  | some kind =>
    if size < 0 then
      lift (.error (.corrupt (.blockSize kind size.toInt)))
    else
      demand (0 ≤ size.toInt) do
        let (payload, bytes) ← lift (Reader.exactly size.toInt.toNat bytes)
        return ((kind, payload), bytes)

/-- A block takes at least the bytes of its number off the front. -/
theorem length_of_read {bytes rest : Bytes} {block : BlockKind × Bytes}
    (h : (read bytes : Except ε ((BlockKind × Bytes) × Bytes)) = .ok (block, rest)) :
    rest.length < bytes.length := by
  obtain ⟨⟨number, bytes₁⟩, h₁, h⟩ := bind_eq_ok_iff.mp h
  obtain ⟨⟨size, bytes₂⟩, h₂, h⟩ := bind_eq_ok_iff.mp h
  dsimp only at h
  split at h
  · cases ok_of_lift h
  · split at h
    · cases ok_of_lift h
    · obtain ⟨⟨payload, bytes₃⟩, h₃, h⟩ := bind_eq_ok_iff.mp (ok_of_demand h)
      obtain ⟨-, rfl⟩ := pure_pair_eq_ok_iff.mp h
      have h₁ : bytes.length = 4 + bytes₁.length := Reader.length_of_int32 (ok_of_lift h₁)
      have h₂ : bytes₁.length = 8 + bytes₂.length := Reader.length_of_int64 (ok_of_lift h₂)
      have h₃ : bytes₂.length = size.toInt.toNat + bytes₃.length :=
        Reader.length_of_exactly (ok_of_lift h₃)
      show bytes₃.length < bytes.length
      omega

end BlockKind

namespace Metadata

/-! ## The name table in its block -/

/-- The payload that holds a packed name table. -/
def wrapNames (contentSize storedSize : UInt32) (packed : Bytes) : Bytes :=
  { compressed := true, contentSize, storedSize : RecordHeader }.encode ++ packed

/-- The name table that a payload holds, packed or not. -/
def unwrapNames (payload : Bytes) : Except ε Bytes := do
  let (header, _) ← lift (RecordHeader.read payload)
  let start := Format.headerLength
  let stop := start + header.storedSize.toNat
  demand (stop < UInt64.size) do
    if payload.length < stop then
      lift (.error .endOfStream)
    else
      demand (start ≤ stop ∧ stop ≤ payload.length) do
        let data := (payload.take stop).drop start
        lift (if header.compressed then Packed.unpack data else .ok data)

/-! ## The search for the blocks -/

/-- The payloads of one block of each kind, the name table unwrapped. -/
structure Payloads where
  utf16 : Bytes
  utf8 : Bytes
  names : Bytes
deriving DecidableEq, Repr

/-- The payloads seen so far. -/
structure Seen where
  utf16 : Option Bytes := none
  utf8 : Option Bytes := none
  names : Option Bytes := none
deriving DecidableEq, Repr

namespace Seen

/-- The payloads, once one of each kind has been seen, or else the first kind that is
    missing. -/
def complete : Seen → Payloads ⊕ BlockKind
  | ⟨some utf16, some utf8, some names⟩ => .inl ⟨utf16, utf8, names⟩
  | ⟨none, _, _⟩ => .inr .utf16Index
  | ⟨some _, none, _⟩ => .inr .utf8Index
  | ⟨some _, some _, none⟩ => .inr .names

/-- A later payload takes the place of an earlier one of its kind. -/
def add (seen : Seen) (kind : BlockKind) (payload : Bytes) : Except ε Seen :=
  match kind with
  | .utf16Index => .ok { seen with utf16 := some payload }
  | .utf8Index => .ok { seen with utf8 := some payload }
  | .names => do
    let names ← unwrapNames payload
    return { seen with names := some names }

end Seen

/-- Reads blocks until one of each kind has been seen, and leaves the bytes behind them. -/
def searchFrom (seen : Seen) (bytes : Bytes) : Except ε (Payloads × Bytes) :=
  match seen.complete with
  | .inl payloads => .ok (payloads, bytes)
  | .inr missing =>
    -- Without a whole block number there is no further block.
    if bytes.length < 4 then
      lift (.error (.missingBlock missing))
    else
      match _taken : (BlockKind.read bytes : Except ε ((BlockKind × Bytes) × Bytes)) with
      | .error error => .error error
      | .ok ((kind, payload), rest) => do
        let seen ← seen.add kind payload
        searchFrom seen rest
termination_by bytes.length
decreasing_by exact BlockKind.length_of_read _taken

/-- The payloads that such a search finds. -/
def scanFrom (seen : Seen) (bytes : Bytes) : Except ε Payloads :=
  (searchFrom seen bytes).map Prod.fst

/-- Reads blocks from the front of a byte string until one of each kind has been seen. -/
def scan (bytes : Bytes) : Except ε Payloads := scanFrom {} bytes

end Metadata

end HashArchive
