/-
  HashArchive.Archive.Pack

  Archives and disks: an archive of the files below a folder, the files of an archive
  below a folder, and archives as files.
-/
import HashArchive.Archive.Read
import HashArchive.Archive.Write
import HashArchive.Disk.Access

namespace HashArchive.Archive

variable [DiskLimits]

/-! ## From a folder to an archive -/

/-- Takes what a walk has come upon into an archive: a file is read and kept in memory, a folder
    is only listed, a link is passed by.  What is read or listed needs a path that is short
    enough. -/
def packItem (path : List String) (archive : Archive) :
    Trail × ItemKind → Except ArchiveError Archive
  | (trail, .file data) =>
    if Folder.Followable (Folder.under path trail) then do
      let (archive, _) ← archive.addFile rootId ("/".intercalate trail) (.ofBytes data)
      return archive
    else
      .error (.disk .tooLong)
  | (trail, .folder) =>
    if Folder.Followable (Folder.under path trail) then .ok archive else .error (.walk .tooLong)
  | (_, .link _) => .ok archive

/-- Takes what a walk has come upon below a folder, one after another. -/
def packAll (archive : Archive) (path : List String) (items : List (Trail × ItemKind)) :
    Except ArchiveError Archive :=
  items.foldlM (packItem path) archive

/-- An archive of the regular files below a folder, named after the folder.  A link that
    leads to the folder is followed; one that leads to a file has nothing below it. -/
def pack (disk : Folder) (path : List String) : Except ArchiveError Archive :=
  match disk.find? path with
  | none => .error (.disk .notFound)
  | some trail =>
    let archive := new (trail.getLast?.getD "")
    match disk.at? trail with
    | some (.folder inside) => archive.packAll path (inside.walked [])
    | some (.file data) =>
      if (disk.link? path).isSome then .ok archive else archive.packAll path [([], .file data)]
    | _ => .error (.disk .notFound)

/-- What an operation that writes to a disk leaves: the archive, which has been read from,
    the disk, and the error that stopped it. -/
structure Delivery where
  archive : Archive
  disk : Folder
  failure : Option ArchiveError

/-! ## From an archive to a folder -/

/-- Writes one file below a folder, with the folders on its way. -/
def unpackFile (disk : Folder) (target : List String) (file : StoredFile) (content : Bytes) :
    Folder × Except DiskFault Unit :=
  match disk.ensureFolder (Folder.under target file.place.location) with
  | (disk, .error fault) => (disk, .error fault)
  | (disk, .ok ()) =>
    disk.writeFile (Folder.under target (file.place.location ++ [file.entry.name])) content

/-- Writes files below a folder one after another, until one cannot be read or written.
    What the open streams hold may change with the disk: a file that is being read from
    may be written over. -/
def unpackFiles (streams : Folder → Streams) (target : List String) :
    List StoredFile → Archive → Folder → Delivery
  | [], archive, disk => ⟨archive, disk, none⟩
  | file :: files, archive, disk =>
    let archive := archive.settle (streams disk) [file]
    match file.entry.source.content (streams disk) with
    | .error error => ⟨archive, disk, some error⟩
    | .ok content =>
      match unpackFile disk target file content with
      | (disk, .error fault) => ⟨archive, disk, some (.disk fault)⟩
      | (disk, .ok ()) => unpackFiles streams target files archive disk

/-- Writes all files of an archive below a folder, which is added if it is missing. -/
def unpack (archive : Archive) (streams : Folder → Streams) (disk : Folder)
    (target : List String) : Delivery :=
  match disk.ensureFolder target with
  | (disk, .error fault) => ⟨archive, disk, some (.disk fault)⟩
  | (disk, .ok ()) => unpackFiles streams target archive.files archive disk

/-! ## Archives as files -/

/-- The archive after it has been written: the files up to the first one that could not be
    stored have been read. -/
def afterWrite (archive : Archive) (streams : Streams)
    (deflate : Bytes → Bytes := Deflate.store) : Archive :=
  archive.settle streams
    (readThrough (fun file => (archive.fileRecord streams file deflate).isOk) archive.files)

/-- Writes an archive to a file.  The file is put in its place only when it is complete, so
    that a failure leaves what was there. -/
def save (archive : Archive) (streams : Streams) (disk : Folder) (path : List String)
    (deflate : Bytes → Bytes := Deflate.store) : Delivery :=
  -- Until it is complete, the file is kept in the same folder.
  match disk.folder? (Folder.folderOf path) with
  | none => ⟨archive, disk, some (.disk .notFound)⟩
  | some _ =>
    match archive.write streams deflate with
    | .error error => ⟨archive.afterWrite streams deflate, disk, some error⟩
    | .ok bytes =>
      match disk.replaceFile path bytes with
      | (disk, .error fault) => ⟨archive.afterWrite streams deflate, disk, some (.disk fault)⟩
      | (disk, .ok ()) => ⟨archive.afterWrite streams deflate, disk, none⟩

/-- Reads an archive from a file. -/
def openFile (stream : StreamId) (disk : Folder) (path : List String) :
    Except ArchiveError Archive :=
  match disk.dataAt path with
  | .error fault => .error (.disk fault)
  | .ok bytes => read stream bytes

end HashArchive.Archive
