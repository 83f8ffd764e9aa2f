/-
  HashArchive.Format

  The fixed parts of the archive format: the magic bytes, the sizes of the records,
  and the numbers of the metadata blocks.
-/
import HashArchive.Bytes

namespace HashArchive

namespace Format

/-- The bytes with which every archive begins. -/
def magic : Bytes :=
  [0x77, 0x61, 0x72, 0x63, 0xFF, 0xAA, 0x45, 0xF1, 0xE8, 0x03, 0x00, 0x00, 0x04, 0x00, 0x00, 0x00,
   0x02, 0x00, 0x00, 0x00]

/-- The bytes with which an encrypted archive begins. -/
def encryptedMagic : Bytes := [0x77, 0x61, 0x72, 0x70, 0xE8, 0x03, 0x00, 0x00]

/-- Where the data region begins: after the magic bytes and the metadata offset.
    Every offset in the metadata counts from here. -/
def dataStart : Nat := 28

/-- The length of the header before each stored file. -/
def headerLength : Nat := 16

/-- The bytes with which every index record begins. -/
def recordTag : Bytes := [0x20, 0x00, 0x00, 0x00, 0x10, 0x00, 0x00, 0x00]

/-- The greatest depth of a directory that an index may hold. -/
def maxDepth : Nat := 512

/-- The length of an index record with the given numbers of entries and of ancestors. -/
def recordLength (entries ancestors : Nat) : Nat := 32 + 16 * entries + 8 * ancestors

end Format

/-- The metadata blocks. -/
inductive BlockKind
  | utf16Index
  | utf8Index
  | names
deriving DecidableEq, Repr

namespace BlockKind

/-- The number that names the block in the archive. -/
def number : BlockKind → Int32
  | utf16Index => 0
  | utf8Index => 1
  | names => 3

/-- The block with a given number. -/
def ofNumber? (n : Int32) : Option BlockKind :=
  [utf16Index, utf8Index, names].find? (·.number == n)

end BlockKind

end HashArchive
