/-
  HashArchive.Proofs.Arena.Reading

  Arenas from bytes.  A record below another has fewer records below it, so the reader comes to
  an end whatever the numbers are (`Index.child_induct`).  With a counter that does not wrap, the
  arena that is read represents the archive that is read (`readsAs_populate`, `read_eq`).
-/
import Mathlib
import HashArchive.Arena.Read
import HashArchive.Proofs.Arena.Adding
import HashArchive.Proofs.Guards

namespace HashArchive

/-- What holds of a record once it does of all records that its entries lead to, holds of every
    record. -/
theorem Index.child_induct {motive : Index → Prop}
    (step : ∀ index, (∀ key child, index.child? key = some child → motive child) → motive index)
    (index : Index) : motive index := by
  induction hsize : index.below.size using Nat.strong_induction_on generalizing index with
  | _ size ih =>
    refine step index fun key child hchild => ?_
    exact ih child.below.size (hsize ▸ Archive.Origin.size_of_child? hchild) child rfl

namespace Archive

/-! ## Records of the tree -/

section Records

variable {origin : Origin} {archive after : Archive} {location : Location} {index : Index}

/-- Adds the directory of an index entry with all below it. -/
def Origin.addChild (origin : Origin) (index : Index) (location : Location) (archive : Archive)
    (entry : IndexEntry) : Except ArchiveError Archive := do
  let name ← origin.names.resolve entry.key
  let (archive, place) := archive.enterAll location (Path.segments name)
  match index.child? entry.key with
  | none => .error (.corrupt (.noRecord name entry.key))
  | some child => origin.populate child place archive

theorem addDirectories_cons_eq_bind (origin : Origin) (index : Index) (location : Location)
    (archive : Archive) (entry : IndexEntry) (entries : List IndexEntry) :
    origin.addDirectories index location archive (entry :: entries)
      = origin.addChild index location archive entry >>= fun deeper =>
          origin.addDirectories index location deeper entries := by
  rw [addDirectories_cons, Origin.addChild, bind_assoc]
  congr 1
  funext name
  dsimp only
  cases index.child? entry.key with
  | none => rfl
  | some child => simp only [Origin.populate, bind_assoc]

theorem grows_addChild {entry : IndexEntry} (hlive : archive.Live location)
    (hrun : origin.addChild index location archive entry = .ok after) :
    Grows archive after ∧ Extends archive after := by
  obtain ⟨name, -, hrun⟩ := Outcome.bind_eq_ok_iff.mp hrun
  have hplain : ∀ other, .name other ∈ Path.segments name → Path.Plain other :=
    fun _ => Path.plain_of_mem_segments
  obtain ⟨hwalk, hend⟩ := grows_enterAll (Path.segments name) hlive hplain
  dsimp only at hrun
  split at hrun
  · cases hrun
  · exact ⟨hwalk.trans (grows_populate hend hrun),
      (extends_enterAll hlive hplain).trans (extends_populate hend hrun)⟩

end Records

/-! ## Guards in front of the tree -/

/-- The payloads are found without a trap. -/
theorem readPayloads_eq_lift (bytes : Bytes) :
    readPayloads bytes = Guarded.lift (readPayloads bytes) := by
  rw [readPayloads, readPayloads]
  apply Guarded.lift_bind_eq
  rintro ⟨-, rest⟩ -
  apply Guarded.lift_bind_eq
  rintro ⟨offset, rest⟩ -
  dsimp only
  cases positionOf? offset with
  | none => rfl
  | some position => exact Guarded.scan_eq _

/-- The bytes are taken apart without a trap. -/
theorem readParts_eq_lift (stream : StreamId) (bytes : Bytes) :
    readParts stream bytes = Guarded.lift (readParts stream bytes) := by
  rw [readParts, readParts, readPayloads_eq_lift]
  apply Guarded.lift_bind_eq
  intro payloads _
  rw [Guarded.parse_eq]
  apply Guarded.lift_bind_eq
  intro index _
  rw [Guarded.parse_eq]
  apply Guarded.lift_bind_eq
  intro utf8Index _
  by_cases htotals : utf8Index.totals ≠ index.totals
  · rw [if_pos htotals, if_pos htotals]
    rfl
  · rw [if_neg htotals, if_neg htotals, Guarded.names_eq]
    apply Guarded.lift_bind_eq
    intro names _
    apply Guarded.lift_bind_eq
    intro rootName _
    rfl

end Archive

namespace Arena

open Archive

variable {ι : Type} [Handle ι] {α β : Type}

/-! ## The steps of the reader -/

/-- Adds the directory of an index entry with all below it. -/
def addChild (next : ι → Option ι) (origin : Origin) (index : Index) (id : ι)
    (entry : IndexEntry) : Run ι Unit := do
  let name ← ask fun _ => Query.of (Guarded.lift (origin.names.resolve entry.key))
  let below ← ensureDirectory next id name
  match index.child? entry.key with
  | none => throw (.fault (.corrupt (.noRecord name entry.key)))
  | some child => populate next origin child below

/-- A record is read as its files, and then its directories one after another. -/
theorem populate_eq (next : ι → Option ι) (origin : Origin) (index : Index) (id : ι) :
    populate next origin index id = (do
      index.label.files.forM (addEntry next origin id)
      index.label.directories.forM (addChild next origin index id)) := by
  rw [populate]
  refine bind_congr fun _ => congrArg (List.forM index.label.directories) (funext fun entry => ?_)
  refine bind_congr fun name => bind_congr fun below => ?_
  cases index.child? entry.key <;> rfl

section Steps

variable {arena : Arena ι} {reason : Prop} {post : β → Arena ι → Prop}
  {fail : ArchiveError → Arena ι → Prop}

/-- A step that looks at no directory does not trap. -/
theorem ends_lift_bind {x : Except ArchiveError α} {more : α → Run ι β}
    (hfail : ∀ error, x = .error error → fail error arena)
    (hmore : ∀ a, x = .ok a → Ends (more a) arena reason post fail) :
    Ends (ask (fun _ => Query.of (Guarded.lift x)) >>= more) arena reason post fail := by
  cases x with
  | error error => exact .fault error arena rfl (hfail error rfl)
  | ok a => exact Ends.of_run_eq (run_ask_bind rfl) (hmore a rfl)

end Steps

/-! ## Reading beside the tree -/

/-- A change of an arena ends as a step of the reader of archives does, unless the counter runs out
    of numbers below the next one of the archive. -/
def ReadsAs (next : ι → Option ι) (steps : Run ι α) (arena : Arena ι)
    (x : Except ArchiveError Archive) : Prop :=
  Ends steps arena (∀ after, x = .ok after → Handle.RunsOut next after.nextId)
    (fun _ final => ∃ after, x = .ok after ∧ final.Represents after)
    fun error _ => x = .error error

section ReadsAs

variable {next : ι → Option ι} {steps : Run ι α} {more : α → Run ι β} {arena : Arena ι}
  {x : Except ArchiveError Archive} {f : Archive → Except ArchiveError Archive}

theorem ReadsAs.pure {archive : Archive} {a : α} (h : arena.Represents archive) :
    ReadsAs next (pure a) arena (.ok archive) :=
  Ends.pure ⟨archive, rfl, h⟩

/-- Steps one after another end as those of the reader of archives do. -/
theorem ReadsAs.bind (h : ReadsAs next steps arena x)
    (hgrows : ∀ archive after, x = .ok archive → f archive = .ok after → Grows archive after)
    (hformed : ∀ archive, x = .ok archive → archive.WellFormed)
    (hmore : ∀ a archive after, x = .ok archive → after.Represents archive →
      ReadsAs next (more a) after (f archive)) :
    ReadsAs next (steps >>= more) arena (x >>= f) := by
  refine Ends.bind h (fun hout after hwhole => ?_) (fun error _ herror => ?_) ?_
  · obtain ⟨archive, hx, hf⟩ := Outcome.bind_eq_ok_iff.mp hwhole
    exact (hout archive hx).mono ((hgrows archive after hx hf).nextId_le (hformed archive hx))
  · rw [show x = .error error from herror]
    rfl
  · rintro a after ⟨archive, hx, hafter⟩
    rw [hx]
    exact hmore a archive after hx hafter

end ReadsAs

/-! ## The parts of a record -/

/-- An index is read as in the tree, whatever directory it is read into. -/
def PopulatesAs (next : ι → Option ι) (origin : Origin) (index : Index) : Prop :=
  ∀ (location : Location) (archive : Archive) (arena : Arena ι) (id : ι),
    arena.Represents archive → archive.idAt location = some (Handle.toNat id) →
    ReadsAs next (populate next origin index id) arena (origin.populate index location archive)

section Parts

variable {next : ι → Option ι} {origin : Origin} {arena : Arena ι} {archive after : Archive}
  {location : Location} {id : ι} (hnext : Handle.Lawful next)
include hnext

/-- The file of an entry is added as in the tree. -/
theorem readsAs_addEntry (h : arena.Represents archive)
    (hid : archive.idAt location = some (Handle.toNat id)) (entry : IndexEntry) :
    ReadsAs next (addEntry next origin id entry) arena (origin.addFile location archive entry) := by
  rw [addEntry, Origin.addFile]
  refine ends_lift_bind (fun error herror => ?_) fun path hpath => ?_
  · rw [herror]
    rfl
  · rw [hpath, Outcome.ok_bind]
    show ReadsAs next _ arena _
    dsimp only
    cases hposition : positionOf? entry.offset with
    | none => exact .fault _ arena rfl rfl
    | some position =>
      dsimp only
      set source : Source := .deferred { stream := origin.stream, offset := UInt64.ofNat position }
      cases hfile : Path.file? path with
      | none =>
        refine .fault _ arena ?_ rfl
        rw [addFile, hfile]
        rfl
      | some split =>
        obtain ⟨segments, name⟩ := split
        refine Ends.bind (ends_addFile_at hnext h hid hfile source) (fun hout after hafter => ?_)
          (fun _ _ => False.elim) fun file final hfinal => .pure ⟨_, rfl, hfinal.1⟩
        obtain rfl := Except.ok.inj hafter
        exact hout

theorem readsAs_addEntries (h : arena.Represents archive)
    (hid : archive.idAt location = some (Handle.toNat id)) (entries : List IndexEntry) :
    ReadsAs next (entries.forM (addEntry next origin id)) arena
      (origin.addFiles location archive entries) := by
  induction entries generalizing arena archive with
  | nil => exact .pure h
  | cons entry entries ih =>
    have hlive := live_of_idAt hid
    have hstep : ReadsAs next (addEntry next origin id entry) arena
        (origin.addFile location archive entry) := readsAs_addEntry hnext h hid entry
    rw [Origin.addFiles, List.foldlM_cons]
    refine hstep.bind (fun middle after hmiddle hafter => ?_) (fun middle hmiddle => ?_)
      fun _ middle final hmiddle hfinal => ?_
    · exact grows_addEntries ((extends_addEntry hlive hmiddle).live hlive) hafter
    · exact (grows_addEntry hlive hmiddle).evolves.wellFormed h.wellFormed
    · refine ih hfinal ?_
      rw [(extends_addEntry hlive hmiddle).ids location hlive]
      exact hid

/-- The directory of an entry is read as in the tree, if the records that its own record leads to
    are. -/
theorem readsAs_addChild {index : Index} {entry : IndexEntry}
    (hbelow : ∀ child, index.child? entry.key = some child → PopulatesAs next origin child)
    (h : arena.Represents archive) (hid : archive.idAt location = some (Handle.toNat id)) :
    ReadsAs next (addChild next origin index id entry) arena
      (origin.addChild index location archive entry) := by
  rw [addChild, Origin.addChild]
  refine ends_lift_bind (fun error herror => ?_) fun name hname => ?_
  · rw [herror]
    rfl
  · rw [hname, Outcome.ok_bind]
    show ReadsAs next _ arena _
    dsimp only
    have hplain : ∀ other, .name other ∈ Path.segments name → Path.Plain other :=
      fun _ => Path.plain_of_mem_segments
    obtain ⟨hwalk, hend⟩ := grows_enterAll (Path.segments name) (live_of_idAt hid) hplain
    have hformed := hwalk.evolves.wellFormed h.wellFormed
    refine Ends.bind (ends_ensureDirectory_at hnext h hid name) (fun hout after hafter => ?_)
      (fun _ _ => False.elim) fun below middle hmiddle => ?_
    · split at hafter
      · cases hafter
      · exact hout.mono ((grows_populate hend hafter).nextId_le hformed)
    · cases hchild : index.child? entry.key with
      | none => exact .fault _ middle rfl rfl
      | some child => exact hbelow child hchild _ _ _ _ hmiddle.1 hmiddle.2

theorem readsAs_addChildren {index : Index}
    (hbelow : ∀ key child, index.child? key = some child → PopulatesAs next origin child)
    (h : arena.Represents archive) (hid : archive.idAt location = some (Handle.toNat id))
    (entries : List IndexEntry) :
    ReadsAs next (entries.forM (addChild next origin index id)) arena
      (origin.addDirectories index location archive entries) := by
  induction entries generalizing arena archive with
  | nil =>
    rw [Origin.addDirectories]
    exact .pure h
  | cons entry entries ih =>
    have hlive := live_of_idAt hid
    have hstep := readsAs_addChild hnext (fun child => hbelow entry.key child) h hid
    rw [addDirectories_cons_eq_bind]
    refine hstep.bind (fun middle after hmiddle hafter => ?_) (fun middle hmiddle => ?_)
      fun _ middle final hmiddle hfinal => ?_
    · exact grows_addDirectories ((grows_addChild hlive hmiddle).2.live hlive) hafter
    · exact (grows_addChild hlive hmiddle).1.evolves.wellFormed h.wellFormed
    · refine ih hfinal ?_
      rw [(grows_addChild hlive hmiddle).2.ids location hlive]
      exact hid

/-- A record is read as in the tree with all records below it. -/
theorem populatesAs (index : Index) : PopulatesAs next origin index := by
  -- A record found below another one is an index of its own, with fewer records below it.
  induction index using Index.child_induct with
  | step index ih =>
    intro location archive arena id h hid
    have hlive := live_of_idAt hid
    rw [populate_eq, Origin.populate]
    refine (readsAs_addEntries hnext h hid _).bind (fun middle after hmiddle hafter => ?_)
      (fun middle hmiddle => ?_) fun _ middle final hmiddle hfinal => ?_
    · exact grows_addDirectories ((extends_addEntries hlive hmiddle).live hlive) hafter
    · exact (grows_addEntries hlive hmiddle).evolves.wellFormed h.wellFormed
    · refine readsAs_addChildren hnext ih hfinal ?_ _
      rw [(extends_addEntries hlive hmiddle).ids location hlive]
      exact hid

end Parts

/-! ## Whole archives -/

section Read

variable {next : ι → Option ι} {stream : StreamId} {bytes : Bytes} {parts : Parts}
  {arena after : Arena ι} {error : ArchiveError} {halt : Halt}

theorem read_of_readParts_eq_error (h : readParts stream bytes = .error error) :
    read next stream bytes = throw (.fault error) := by
  rw [read, readParts_eq_lift, h]
  rfl

theorem read_of_readParts_eq_ok (h : readParts stream bytes = .ok parts) :
    read next stream bytes = match run (populate next parts.origin parts.index Handle.root)
        (new parts.name) with
      | none => none
      | some (.error halt, _) => throw halt
      | some (.ok _, arena) => pure arena := by
  rw [read, readParts_eq_lift, h]
  rfl

/-- What has been read comes from parts, from which a new arena has been filled. -/
theorem read_eq_pure_iff :
    read next stream bytes = pure arena ↔ ∃ parts, readParts stream bytes = .ok parts ∧
      run (populate next parts.origin parts.index Handle.root) (new parts.name)
        = some (.ok (), arena) := by
  cases hparts : readParts (ε := ArchiveError) stream bytes with
  | error error =>
    rw [read_of_readParts_eq_error hparts]
    exact iff_of_false (fun h => by cases Option.some.inj h) fun ⟨_, h, _⟩ => by cases h
  | ok parts =>
    rw [read_of_readParts_eq_ok hparts]
    constructor
    · intro hrun
      refine ⟨parts, rfl, ?_⟩
      split at hrun
      · cases hrun
      · cases Option.some.inj hrun
      · next u final hfinal =>
        obtain rfl : final = arena := Except.ok.inj (Option.some.inj hrun)
        exact hfinal
    · rintro ⟨parts', hparts', hrun⟩
      obtain rfl := Except.ok.inj hparts'
      rw [hrun]

theorem readsAs_parts (hnext : Handle.Lawful next) (parts : Parts) :
    ReadsAs next (populate next parts.origin parts.index (Handle.root : ι)) (new parts.name)
      (parts.origin.populate parts.index [] (Archive.new parts.name)) :=
  populatesAs hnext parts.index [] _ _ _ (represents_new parts.name)
    (represents_new parts.name).idAt_nil

/-- What is read as an arena represents what is read as an archive. -/
theorem represents_of_read (hnext : Handle.Lawful next)
    (hrun : read next stream bytes = pure arena) :
    ∃ archive, Archive.read stream bytes = .ok archive ∧ arena.Represents archive := by
  obtain ⟨parts, hparts, hrun⟩ := read_eq_pure_iff.mp hrun
  obtain ⟨archive, hfilled, harchive⟩ := (readsAs_parts hnext parts).post_of_run hrun
  refine ⟨archive, ?_, harchive⟩
  rw [Archive.read, hparts, Outcome.ok_bind]
  exact hfilled

/-- What is read as an archive is read as an arena, if there are enough numbers for its
    directories. -/
theorem exists_read_of_read (hnext : Handle.Lawful next) {archive : Archive}
    (hread : Archive.read stream bytes = .ok archive)
    (hroom : ¬ Handle.RunsOut next archive.nextId) :
    ∃ arena, read next stream bytes = pure arena ∧ arena.Represents archive := by
  obtain ⟨parts, hparts, hfilled⟩ := Outcome.bind_eq_ok_iff.mp hread
  have hends := readsAs_parts hnext parts
  rw [ReadsAs, hfilled] at hends
  obtain ⟨_, arena, hanswer, after, hafter, harena⟩ := hends.exists_answer
    (fun hout => hroom (hout archive rfl)) (fun error _ herror => by cases herror)
  obtain rfl := Except.ok.inj hafter
  exact ⟨arena, read_eq_pure_iff.mpr ⟨parts, hparts, hanswer⟩, harena⟩

end Read

end Arena

end HashArchive
