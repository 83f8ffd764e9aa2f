/-
  HashArchive.Stream

  Bytes with a cursor.  Every read and write starts where the last one ended, unless the
  cursor is moved in between.  What is only written to may be something else than such bytes
  (`Output`).
-/
import HashArchive.Bytes

namespace HashArchive

/-- Bytes and the place where the next read or write begins, which may lie past their
    end. -/
structure Stream where
  bytes : Bytes
  position : Nat := 0
deriving DecidableEq, Repr, Inhabited

namespace Stream

/-- Moves the cursor. -/
def seek (stream : Stream) (position : Nat) : Stream := { stream with position }

/-- Up to `n` bytes from the cursor on; the cursor moves behind them. -/
def read (stream : Stream) (n : Nat) : Bytes × Stream :=
  let found := (stream.bytes.drop stream.position).take n
  (found, { stream with position := stream.position + found.length })

/-- Puts bytes over those at the cursor, and behind the end where there are none; the
    cursor moves behind them. -/
def write (stream : Stream) (data : Bytes) : Stream :=
  let gap := List.replicate (stream.position - stream.bytes.length) 0
  { bytes := stream.bytes.take stream.position ++ gap ++ data
      ++ stream.bytes.drop (stream.position + data.length)
    position := stream.position + data.length }

@[simp] theorem bytes_seek (stream : Stream) (position : Nat) :
    (stream.seek position).bytes = stream.bytes := rfl

@[simp] theorem bytes_read (stream : Stream) (n : Nat) :
    (stream.read n).2.bytes = stream.bytes := rfl

/-- After the cursor is moved, a read does not depend on where it was before. -/
theorem read_seek (stream : Stream) (position n : Nat) :
    ((stream.seek position).read n).1 = (stream.bytes.drop position).take n := rfl

/-- A write at the end adds to the bytes. -/
theorem write_at_end (bytes data : Bytes) :
    write ⟨bytes, bytes.length⟩ data = ⟨bytes ++ data, (bytes ++ data).length⟩ := by
  simp [write]

/-- A write over bytes of the same number replaces them. -/
theorem write_over (front old data back : Bytes) (h : data.length = old.length) :
    write ⟨front ++ old ++ back, front.length⟩ data
      = ⟨front ++ data ++ back, front.length + data.length⟩ := by
  simp [write, h, List.drop_append]

end Stream

/-! ## Outputs -/

/-- What bytes are written to.  They go where a cursor is, which can be asked for and moved. -/
class Output (σ : Type) where
  /-- Where the next write begins. -/
  position : σ → Nat
  /-- Moves the cursor. -/
  seek : σ → Nat → σ
  /-- Puts bytes where the cursor is; the cursor moves behind them. -/
  write : σ → Bytes → σ

namespace Output

instance : Output Stream where
  position := Stream.position
  seek := Stream.seek
  write := Stream.write

theorem position_stream (stream : Stream) : position stream = stream.position := rfl

theorem seek_stream (stream : Stream) (position : Nat) :
    seek stream position = stream.seek position := rfl

theorem write_stream (stream : Stream) (data : Bytes) : write stream data = stream.write data := rfl

end Output

/-- The number of a stream that files are read from. -/
abbrev StreamId := Nat

/-- The streams that are open, by their numbers. -/
abbrev Streams := StreamId → Stream

end HashArchive
