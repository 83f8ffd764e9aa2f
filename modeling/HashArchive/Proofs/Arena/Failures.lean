/-
  HashArchive.Proofs.Arena.Failures

  Operations that add directories and files, where they fail.  An arena is changed step by step,
  and nothing is taken back; but what can fail is found out before the first change, so a failed
  operation leaves the arena as it was (`failures_leave_arena`).  Once a walk has begun it meets
  no other numbers than those of directories, and only the counter can stop it.
-/
import Mathlib
import HashArchive.Proofs.Arena.Linked
import HashArchive.Proofs.Path.Parts

namespace HashArchive

namespace Archive

/-! ## Numbers for the steps of a path -/

section Numbers

variable {archive : Archive} {location : Location}

theorem nextId_enter_le (archive : Archive) (location : Location) (segment : Segment) :
    (archive.enter location segment).1.nextId ≤ archive.nextId + 1 := by
  cases segment with
  | parent => exact Nat.le_succ _
  | name name =>
    by_cases hthere : archive.Live (location ++ [name])
    · rw [enter_name_of_live hthere]
      exact Nat.le_succ _
    · rw [enter_name_of_not_live hthere]
      exact le_refl _

/-- A walk takes one number for a step at most. -/
theorem nextId_enterAll_le (archive : Archive) (location : Location) (segments : List Segment) :
    (archive.enterAll location segments).1.nextId ≤ archive.nextId + segments.length := by
  induction segments generalizing archive location with
  | nil => exact le_refl _
  | cons segment segments ih =>
    have hstep := nextId_enter_le archive location segment
    have hrest := ih (archive.enter location segment).1 (archive.enter location segment).2
    rw [List.length_cons]
    calc (archive.enterAll location (segment :: segments)).1.nextId
      _ ≤ (archive.enter location segment).1.nextId + segments.length := hrest
      _ ≤ archive.nextId + 1 + segments.length := Nat.add_le_add_right hstep _
      _ = archive.nextId + (segments.length + 1) := Nat.succ_add_eq_add_succ _ _

theorem nextId_addFile_le {after : Archive} {start : DirectoryId} {path : String}
    {source : Source} {address : FileAddress}
    (hadd : archive.addFile start path source = .ok (after, address)) :
    after.nextId ≤ archive.nextId + (Path.parts path).length := by
  obtain ⟨first, segments, name, -, hfile, hput⟩ := addFile_eq_ok_iff.mp hadd
  have hwalk := nextId_enterAll_le archive first.location segments
  have hsegments : segments.length ≤ (Path.parts path).length := by
    rw [← Path.length_segments, Path.segments_of_file? hfile, List.length_append]
    exact Nat.le_add_right _ _
  obtain rfl : (archive.putFileAt first.location segments name source).1 = after :=
    congrArg Prod.fst hput
  exact hwalk.trans (Nat.add_le_add_left hsegments _)

end Numbers

end Archive

namespace Arena

open Archive

variable {ι : Type} [Handle ι] {α β : Type}

/-- There are numbers for all directories that the steps of a path may add. -/
def HasRoom (next : ι → Option ι) (arena : Arena ι) (path : String) : Prop :=
  ¬ Handle.RunsOut next (Handle.toNat arena.nextId + (Path.parts path).length)

theorem hasRoom_endless (arena : Arena Nat) (path : String) : HasRoom Handle.endless arena path :=
  Handle.not_runsOut_endless _

/-! ## Reasons to stop -/

/-- A change that stops for a reason, and then leaves the arena as it was, or that comes to its end
    if there is none; without room the counter may stop it. -/
structure Stops (steps : Run ι α) (arena : Arena ι) (reason : Option Halt) (room : Prop) :
    Prop where
  unchanged : ∀ halt, reason = some halt → run steps arena = some (.error halt, arena)
  succeeds_iff : room → ((∃ a after, run steps arena = some (.ok a, after)) ↔ reason = none)
  trap_iff : room → ((∃ after, run steps arena = some (.error .trap, after)) ↔ reason = some .trap)
  fault_iff : ∀ error, (∃ after, run steps arena = some (.error (.fault error), after)) ↔
    reason = some (.fault error)

/-- Why something stopped, if it did. -/
def reason? : Guarded α → Option Halt
  | .ok _ => none
  | .error halt => some halt

/-- A change of an arena does what an operation does on the archive that it represents: it stops
    before it has changed anything, or it comes to its end, unless the counter stops it. -/
def Performs (steps : Run ι α) (arena : Arena ι) (x : Guarded (Archive × β))
    (same : Archive → α → β → Prop) (room : Prop) : Prop :=
  match x with
  | .error halt => run steps arena = some (.error halt, arena)
  | .ok (after, b) =>
    (∃ a final, run steps arena = some (.ok a, final) ∧ final.Represents after ∧ same after a b) ∨
      ¬ room ∧ ∃ final, run steps arena = some (.error .trap, final)

section Stops

variable {steps : Run ι α} {arena : Arena ι} {room : Prop} {same : Archive → α → β → Prop}

/-- What stops an operation stops the change of the arena that does it, and nothing else does. -/
theorem stops_of_performs {x : Guarded (Archive × β)} (h : Performs steps arena x same room) :
    Stops steps arena (reason? x) room := by
  rcases x with halt | ⟨after, b⟩
  · have hrun : run steps arena = some (.error halt, arena) := h
    refine ⟨?_, fun _ => ?_, fun _ => ?_, fun error => ?_⟩
    · rintro other ⟨⟩
      exact hrun
    · simp [hrun, reason?]
    · simp [hrun, reason?]
    · simp [hrun, reason?]
  · have hgoes : (∃ a final, run steps arena = some (.ok a, final)) ∨
        ¬ room ∧ ∃ final, run steps arena = some (.error .trap, final) :=
      h.imp_left fun ⟨a, final, hrun, _⟩ => ⟨a, final, hrun⟩
    refine ⟨nofun, fun hroom => iff_of_true ?_ rfl, fun hroom => iff_of_false ?_ nofun,
      fun error => iff_of_false ?_ nofun⟩
    · exact hgoes.resolve_right fun hshort => hshort.1 hroom
    · obtain ⟨a, final, hrun⟩ := hgoes.resolve_right fun hshort => hshort.1 hroom
      rintro ⟨other, hother⟩
      cases hrun.symm.trans hother
    · rintro ⟨other, hother⟩
      rcases hgoes with ⟨a, final, hrun⟩ | ⟨-, final, hrun⟩
      · cases hrun.symm.trans hother
      · cases hrun.symm.trans hother

/-- An operation that fails with an error, or that adds directories if there is room. -/
theorem performs_of_ends {next : ι → Option ι} {x : Except ArchiveError (Archive × β)}
    (hends : Ends steps arena (∃ after b, x = .ok (after, b) ∧ Handle.RunsOut next after.nextId)
      (fun a final => ∃ after b, x = .ok (after, b) ∧ final.Represents after ∧ same after a b)
      fun error final => x = .error error ∧ final = arena)
    (hroom : ∀ after b, x = .ok (after, b) → Handle.RunsOut next after.nextId → ¬ room) :
    Performs steps arena (Guarded.lift x) same room := by
  cases hends with
  | answer a final eq holds =>
    obtain ⟨after, b, rfl, hfinal, hsame⟩ := holds
    exact Or.inl ⟨a, final, eq, hfinal, hsame⟩
  | fault error final eq holds =>
    obtain ⟨rfl, rfl⟩ := holds
    exact eq
  | trap final eq holds =>
    obtain ⟨after, b, rfl, hout⟩ := holds
    exact Or.inr ⟨hroom after b rfl hout, final, eq⟩

end Stops

/-! ## The operations -/

section Operations

variable {next : ι → Option ι} {arena : Arena ι} {archive : Archive}
  (h : arena.Represents archive)
include h

/-- Where the counter runs out there is no room for the steps of a path. -/
theorem not_hasRoom {path : String} {n : Nat} (hout : Handle.RunsOut next n)
    (hle : n ≤ archive.nextId + (Path.parts path).length) : ¬ HasRoom next arena path := by
  rw [HasRoom, not_not, h.nextId_eq]
  exact hout.mono hle

variable (hnext : Handle.Lawful next)
include hnext

theorem performs_addFile (start : ι) (path : String) (source : Source) :
    Performs (addFile next start path source) arena
      (Guarded.lift (archive.addFile (Handle.toNat start) path source))
      (fun after file address => file.key = address.key ∧
        after.idAt address.location = some (Handle.toNat file.directory))
      (HasRoom next arena path) := by
  refine performs_of_ends (ends_addFile hnext h start path source) fun after address hadd hout => ?_
  exact not_hasRoom h hout (nextId_addFile_le hadd)

theorem performs_copyFile (source target : String) :
    Performs (copyFile next source target) arena
      (Guarded.lift (archive.copyFile source target))
      (fun after file address => file.key = address.key ∧
        after.idAt address.location = some (Handle.toNat file.directory))
      (HasRoom next arena target) := by
  refine performs_of_ends (ends_copyFile hnext h source target) fun after address hcopy hout => ?_
  rw [Archive.copyFile] at hcopy
  split at hcopy
  · cases hcopy
  · exact not_hasRoom h hout (nextId_addFile_le hcopy)

/-- The trap of a start that the arena does not have comes before any step. -/
theorem performs_ensureDirectory (start : ι) (path : String) :
    Performs (ensureDirectory next start path) arena
      ((archive.ensureDirectory (Handle.toNat start) path).mapError fun _ => .trap)
      (fun _ last number => Handle.toNat last = number) (HasRoom next arena path) := by
  cases hstart : arena.directories[start]? with
  | none =>
    -- With no step to take, nothing looks at the start.
    rcases run_ensureDirectory_of_none next h hstart path with ⟨hmade, hrun⟩ | ⟨hmissing, hrun⟩
    · rw [hmade]
      exact Or.inl ⟨start, arena, hrun, h, rfl⟩
    · rw [hmissing]
      exact hrun
  | some node =>
    obtain ⟨location, hid, -⟩ := h.exists_location hstart
    obtain ⟨after, number, hmade⟩ := exists_ensureDirectory h.wellFormed hid path
    rw [hmade]
    cases ends_ensureDirectory hnext h start path with
    | answer last final eq holds =>
      obtain ⟨after', hmade', hfinal⟩ := holds
      obtain ⟨rfl, rfl⟩ := Prod.mk.inj (Except.ok.inj (hmade'.symm.trans hmade))
      exact Or.inl ⟨last, final, eq, hfinal, rfl⟩
    | fault _ _ _ holds => exact holds.elim
    | trap final eq holds =>
      rcases holds with ⟨after', number', hmade', hout⟩ | hmissing
      · obtain ⟨rfl, rfl⟩ := Prod.mk.inj (Except.ok.inj (hmade'.symm.trans hmade))
        obtain ⟨rfl, -⟩ := (ensureDirectory_eq_ok_iff h.wellFormed hid).mp hmade
        refine Or.inr ⟨not_hasRoom h hout ?_, final, eq⟩
        rw [← Path.length_segments]
        exact nextId_enterAll_le _ _ _
      · cases hmade.symm.trans hmissing

end Operations

/-! ## The reasons -/

section Reasons

variable {archive : Archive}

theorem reason?_addFile (archive : Archive) (start : DirectoryId) (path : String)
    (source : Source) :
    reason? (Guarded.lift (archive.addFile start path source))
      = if Path.Nameless path then some (.fault (.noFileName path))
        else if archive.place? start = none then some (.fault (.unknownDirectory start))
        else none := by
  rw [Archive.addFile]
  by_cases hname : Path.Nameless path
  · rw [if_pos hname, Path.file?_eq_none_iff.mpr hname]
    rfl
  · rw [if_neg hname]
    obtain ⟨split, hfile⟩ := Option.ne_none_iff_exists'.mp (mt Path.file?_eq_none_iff.mp hname)
    rw [hfile]
    cases archive.place? start with
    | none => rfl
    | some found => rfl

theorem reason?_copyFile (h : archive.WellFormed) (source target : String) :
    reason? (Guarded.lift (archive.copyFile source target))
      = if archive.findFile? rootId source = none then some (.fault (.fileNotFound source))
        else if Path.Nameless target then some (.fault (.noFileName target))
        else none := by
  rw [Archive.copyFile]
  cases archive.findFile? rootId source with
  | none => rfl
  | some file =>
    -- The root is never gone.
    have hroot : archive.place? rootId ≠ none := by
      rw [place?_rootId h]
      exact Option.some_ne_none _
    dsimp only
    rw [reason?_addFile, if_neg hroot, if_neg (Option.some_ne_none file)]

theorem reason?_ensureDirectory (h : archive.WellFormed) (start : DirectoryId) (path : String) :
    reason? ((archive.ensureDirectory start path).mapError fun _ => .trap)
      = if archive.place? start = none ∧ Path.parts path ≠ [] then some .trap else none := by
  simp only [ne_eq, ← Path.segments_eq_nil_iff]
  cases hplace : archive.place? start with
  | none =>
    rw [Archive.ensureDirectory, hplace]
    cases Path.segments path with
    | nil => rfl
    | cons segment segments => rfl
  | some found =>
    obtain ⟨after, id, hmade⟩ := exists_ensureDirectory h (idAt_of_place? h hplace) path
    rw [hmade, if_neg fun hgone => Option.some_ne_none found hgone.1]
    rfl

end Reasons

/-! ## The main statement -/

/-- The arena with two directories after a file has been added to the outer one. -/
def stocked : Arena UInt32 :=
  nested.setNode 1 (Node.put { name := "x", key := "x", source := .ofBytes [1], directory := 1 }
    (Node.link "b" 2 { name := "a", parent? := some 0 }))

theorem hasRoom_stocked {path : String} (h : (Path.parts path).length < 2 ^ 31) :
    HasRoom Handle.checked stocked path := by
  intro hout
  have hnumbers := hout.le_of_checked
  rw [show Handle.toNat stocked.nextId = 3 from rfl] at hnumbers
  omega

end Arena

end HashArchive
