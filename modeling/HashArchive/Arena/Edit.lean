/-
  HashArchive.Arena.Edit

  Changes of arenas.  An operation changes the table step by step and takes nothing back; where
  it stops, what it has done stays done.
-/
import HashArchive.Arena.Basic

namespace HashArchive

/-- What a change of an arena answers and the arena it leaves, if it comes to an end. -/
abbrev Run (ι : Type) [Handle ι] (α : Type) := ExceptT Halt (StateT (Arena ι) Option) α

namespace Arena

variable {ι : Type} [Handle ι]

/-- What a change answers from an arena on, and the arena it leaves. -/
def run {α : Type} (change : Run ι α) (arena : Arena ι) : Option (Except Halt α × Arena ι) :=
  change arena

/-- What a look at the arena answers. -/
def ask {α : Type} (query : Arena ι → Query α) : Run ι α := fun arena =>
  (query arena).run.map fun answer => (answer, arena)

/-- Changes the directory of a number, which has to be one of the arena. -/
def change (id : ι) (f : Node ι → Node ι) : Run ι Unit := do
  let node ← ask (·.node id)
  modify (·.setNode id (f node))

/-- Gives the root another name. -/
def setName (name : String) : Run ι Unit := change Handle.root fun root => { root with name }

/-- Changes the source of a file, if there is one. -/
def updateSource (arena : Arena ι) (id : ι) (key : String) (f : Source → Source) : Arena ι :=
  { arena with directories := arena.directories.modify id (Node.updateSource key f) }

section Adding

/-! ## Directories and files that are added -/

variable (next : ι → Option ι)

/-- Adds a directory below another: it takes the next number, and then it is put in its
    place. -/
def createChild (parent : ι) (name : String) : Run ι ι := do
  let id := (← get).nextId
  match next id with
  | none => throw .trap
  | some following =>
    modify fun arena =>
      { arena with nextId := following }.setNode id { name, parent? := some parent }
    change parent (Node.link name id)
    return id

/-- One step, which adds the directory it leads to if that is missing. -/
def enter (id : ι) (segment : Segment) : Run ι ι := do
  let node ← ask (·.node id)
  match segment with
  | .parent => return node.parent?.getD id
  | .name name =>
    match node.subdirectories[name]? with
    | some below => return below
    | none => createChild next id name

/-- Several steps, which add the directories that are missing.  With no step to take, the start
    is not looked at. -/
def enterAll (start : ι) (segments : List Segment) : Run ι ι := segments.foldlM (enter next) start

/-- The directory that a path leads to, where those that are missing are added. -/
def ensureDirectory (start : ι) (path : String) : Run ι ι :=
  enterAll next start (Path.segments path)

/-- Adds a file to a directory, in place of the one that has its key. -/
def insertFile (id : ι) (name key : String) (source : Source) : Run ι (File ι) := do
  let file : File ι := { name, key, source, directory := id }
  change id (Node.put file)
  return file

/-- Adds the file that a path names, in place of the one that has its key. -/
def addFile (start : ι) (path : String) (source : Source) : Run ι (File ι) := do
  match Path.file? path with
  | none => throw (.fault (.noFileName path))
  | some (segments, name) =>
    match (← get).directories[start]? with
    | none => throw (.fault (.unknownDirectory (Handle.toNat start)))
    | some _ =>
      let id ← enterAll next start segments
      let key ← ask (·.keyIn id name)
      insertFile id name key source

/-- Adds a second file with the source of the first; both paths start at the root. -/
def copyFile (source target : String) : Run ι (File ι) := do
  match ← ask (·.findFile? Handle.root source) with
  | none => throw (.fault (.fileNotFound source))
  | some file => addFile next Handle.root target file.source

end Adding

/-! ## Directories and files that are removed -/

/-- Removes the file that a path leads to, and tells whether there was one. -/
def removeFile (start : ι) (path : String) : Run ι Bool := do
  match ← ask (·.locate? start path) with
  | none => return false
  | some (id, key) =>
    let node ← ask (·.node id)
    change id (Node.remove key)
    return node.files.contains key

/-- Removes the directories of the numbers on a stack, and of each one those in it as well. -/
def sweep (directories : Std.ExtTreeMap ι (Node ι)) : List ι → Std.ExtTreeMap ι (Node ι)
  | [] => directories
  | id :: pending =>
    match _found : directories[id]? with
    | none => sweep directories pending
    | some node =>
      sweep (directories.erase id) (push pending (node.subdirectories.toList.map (·.2)))
termination_by pending => (directories.size, pending.length)
decreasing_by
  · exact Prod.Lex.right _ (Nat.lt_succ_self _)
  · -- There is one directory less.
    have hmem : id ∈ directories := by
      rw [Std.ExtTreeMap.mem_iff_isSome_getElem?, _found]
      rfl
    have hsome : directories.size ≠ 0 := by
      intro hzero
      rw [← Std.ExtTreeMap.eq_empty_iff_size_eq_zero] at hzero
      rw [hzero] at hmem
      exact Std.ExtTreeMap.not_mem_empty hmem
    have hsize : (directories.erase id).size = directories.size - 1 := by
      rw [Std.ExtTreeMap.size_erase]
      exact if_pos hmem
    apply Prod.Lex.left
    omega

/-- Removes the directory that a path leads to, with all below it, and tells whether there was
    one; the root stays. -/
def removeDirectory (start : ι) (path : String) : Run ι Bool := do
  match (← get).findDirectory? start path with
  | none => return false
  | some id =>
    let node ← ask (·.node id)
    match node.parent? with
    | none => return false
    | some parent =>
      change parent (Node.unlink node.name)
      modify fun arena => { arena with directories := sweep arena.directories [id] }
      return true

end Arena

end HashArchive
