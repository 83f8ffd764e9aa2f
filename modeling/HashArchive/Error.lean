/-
  HashArchive.Error

  Everything that can go wrong with an archive, as causes; the wording of each is in
  `ArchiveError.message`.
-/
import HashArchive.Format
import HashArchive.Deflate.Fault
import HashArchive.Text.Hex
import HashArchive.Text.Quoted

namespace HashArchive

/-- The number by which a directory is known as long as it exists.  The numbers of a tree have no
    end; those that an `Arena` counts with may have one. -/
abbrev DirectoryId := Nat

/-- The counts of the metadata that may not be negative. -/
inductive CountKind
  | directories
  | files
  | nameUnits
deriving DecidableEq, Repr

namespace CountKind

/-- What is counted, in words. -/
def message : CountKind → String
  | directories => "directory"
  | files => "file"
  | nameUnits => "name character"

end CountKind

/-- What contradicts the format in the metadata of an archive. -/
inductive MetadataFault
  | recordTag (found : Bytes)
  | negativeCount (kind : CountKind) (count : Int)
  | depth (record : UInt64) (found expected : Int)
  | unnamed (key : UInt64)
  | blockSize (kind : BlockKind) (size : Int)
  | offsetBeforeStart (offset : Int)
  | totals (utf8 utf16 : Nat × Nat)
  | fileOffset (name : String) (offset : Int)
  | noRecord (directory : String) (key : UInt64)
  | noPlace (directory : DirectoryId)
  | noData (path : String)
deriving DecidableEq, Repr

namespace MetadataFault

/-- A key with all its digits. -/
def showKey (key : UInt64) : String := "0x" ++ Text.Hex.padded 16 key.toNat

/-- Two totals as a pair. -/
def showTotals (totals : Nat × Nat) : String := s!"({totals.1}, {totals.2})"

/-- The fault in words. -/
def message : MetadataFault → String
  | recordTag found =>
    "bad node tag [" ++ ", ".intercalate (found.map fun b => Text.Hex.padded 2 b.toNat) ++ "]"
  | negativeCount kind count => s!"negative {kind.message} count {count}"
  | depth record found expected =>
    "node 0x" ++ Text.Hex.digits record.toNat ++ s!" has depth {found}, expected {expected}"
  | unnamed key => "no name for hash " ++ showKey key
  | blockSize kind size => s!"block {kind.number.toInt} has size {size}"
  | offsetBeforeStart offset => s!"metadata offset {offset} before start"
  | totals utf8 utf16 =>
    "UTF-8 index holds " ++ showTotals utf8 ++ " directories/files, UTF-16 index holds "
      ++ showTotals utf16
  | fileOffset name offset => s!"file {name} at offset {offset}"
  | noRecord directory key => s!"directory {directory} (" ++ showKey key ++ ") has no table"
  | noPlace directory => s!"no offset for DirId({directory})"
  | noData path => "no data offset for " ++ path

end MetadataFault

/-- What the disk refuses. -/
inductive DiskFault
  /-- The path leads nowhere. -/
  | notFound
  /-- Something is already where a new item has to be. -/
  | occupied
  /-- A directory is where a file has to be. -/
  | isDirectory
  /-- A name that no disk can hold. -/
  | badName
  /-- A path that is longer than a disk follows. -/
  | tooLong
deriving DecidableEq, Repr

namespace DiskFault

/-- The fault in words. -/
def message : DiskFault → String
  | notFound => "no such file or directory"
  | occupied => "file exists"
  | isDirectory => "is a directory"
  | badName => "invalid file name"
  | tooLong => "path too long"

end DiskFault

/-- Why an operation on an archive failed. -/
inductive ArchiveError
  | badMagic
  | encrypted
  | endOfStream
  | unknownBlock (number : Int)
  | missingBlock (kind : BlockKind)
  | corrupt (fault : MetadataFault)
  | inflate (fault : Deflate.Fault)
  | noFileName (path : String)
  | unknownDirectory (id : DirectoryId)
  | fileNotFound (path : String)
  | tooLong (size : Nat)
  | walk (fault : DiskFault)
  | disk (fault : DiskFault)
deriving DecidableEq, Repr

namespace ArchiveError

/-- The error in words. -/
def message : ArchiveError → String
  | badMagic => "not an ARC archive: header magic mismatch"
  | encrypted => "unsupported: encrypted archive, requires the original decrypted asset"
  | endOfStream => "unexpected end of stream"
  | unknownBlock number => s!"unknown metadata block type {number}"
  | missingBlock kind => s!"metadata block {kind.number.toInt} missing before end of stream"
  | corrupt fault => "corrupt index: " ++ fault.message
  | inflate fault => "deflate stream is invalid: " ++ fault.message
  | noFileName path => "path has no file name: " ++ Text.quoted path
  | unknownDirectory id => s!"directory DirId({id}) is not part of this archive"
  | fileNotFound path => "file not found in archive: " ++ path
  | tooLong size => s!"io: entry of {size} bytes exceeds the 4 GiB format limit"
  | walk fault => "walking directory: " ++ fault.message
  | disk fault => "io: " ++ fault.message

end ArchiveError

end HashArchive
