/-
  HashArchive.Proofs.Archive.History

  Archives that come about in different ways.  Files that are added to a new archive leave
  the same tree in whatever order they come, as long as no two go to one place
  (`Collects`); only the numbers of the directories tell the orders apart, and no number is
  written (`write_eq_of_same_tree`).
-/
import Mathlib
import HashArchive.Proofs.Archive.Acceptance
import HashArchive.Proofs.Archive.Isomorphism
import HashArchive.Proofs.Archive.Walks

namespace HashArchive

namespace Archive

/-- Archives have the same files when they have the same directories and each file of one is a
    file of the other. -/
theorem sameFiles_of_mem_held {archive other : Archive} (h : archive.WellFormed)
    (h' : other.WellFormed)
    (hlive : ∀ location, other.Live location ↔ archive.Live location)
    (hheld : ∀ location entry, entry ∈ other.held location ↔ entry ∈ archive.held location) :
    SameFiles archive other := by
  intro location
  by_cases hthere : archive.Live location
  · rw [filesAt_of_live hthere, filesAt_of_live ((hlive location).mpr hthere),
      Entry.eq_of_mem_iff (ascending_held h' location) (ascending_held h location)
        (hheld location)]
  · rw [filesAt_of_not_live hthere,
      filesAt_of_not_live fun hother => hthere ((hlive location).mp hother)]

/-! ## Files that are added -/

/-- A file to be added: the path from the root that it is added under, and its source. -/
structure Addition where
  path : String
  source : Source
deriving DecidableEq, Repr

namespace Addition

/-- The directory that the file goes to, and its name there. -/
def target? (addition : Addition) : Option (Location × String) :=
  (Path.file? addition.path).map fun (segments, name) => (segments.foldl Segment.next [], name)

/-- The file goes through a directory on its way. -/
def Passes (addition : Addition) (location : Location) : Prop :=
  ∃ segments name, Path.file? addition.path = some (segments, name) ∧ location ∈ passed [] segments

end Addition

/-- Adds files one after another. -/
def addEach (archive : Archive) (additions : List Addition) : Except ArchiveError Archive :=
  additions.foldlM
    (fun archive addition => do
      let (archive, _) ← archive.addFile rootId addition.path addition.source
      return archive)
    archive

section Additions

variable {start archive : Archive} {location : Location}

theorem addEach_append_eq_ok_iff {additions others : List Addition} :
    archive.addEach (additions ++ others) = .ok after ↔
      ∃ next, archive.addEach additions = .ok next ∧ next.addEach others = .ok after := by
  rw [addEach, List.foldlM_append, Outcome.bind_eq_ok_iff]
  rfl

theorem addEach_singleton_eq_ok_iff {addition : Addition} :
    archive.addEach [addition] = .ok after ↔
      ∃ address, archive.addFile rootId addition.path addition.source = .ok (after, address) := by
  rw [addEach, List.foldlM_cons, Outcome.bind_eq_ok_iff]
  simp only [Outcome.bind_eq_ok_iff, Prod.exists]
  constructor
  · rintro ⟨next, ⟨added, address, hadd, hnext⟩, hlast⟩
    obtain rfl : added = next := Except.ok.inj hnext
    obtain rfl : added = after := Except.ok.inj hlast
    exact ⟨address, hadd⟩
  · rintro ⟨address, hadd⟩
    exact ⟨after, ⟨after, address, hadd, rfl⟩, rfl⟩

/-- What adding a file makes of an archive. -/
structure Gained (archive : Archive) (addition : Addition) (last : Location) (name : String)
    (after : Archive) : Prop where
  grows : Grows archive after
  live : ∀ location, after.Live location ↔ addition.Passes location ∨ archive.Live location
  held : ∀ location, after.held location
    = if location = last then
        (archive.added last name addition.source).put (archive.held last)
      else archive.held location

/-- A path that names a file leads from the root to a directory where the file can be put. -/
theorem exists_gained (h : archive.WellFormed) {addition : Addition} {last : Location}
    {name : String} (htarget : addition.target? = some (last, name)) :
    ∃ after address, archive.addFile rootId addition.path addition.source = .ok (after, address) ∧
      archive.Gained addition last name after := by
  obtain ⟨⟨segments, other⟩, hfile, heq⟩ := Option.map_eq_some_iff.mp htarget
  obtain ⟨rfl, rfl⟩ := Prod.mk.inj heq
  have hplain : ∀ name, .name name ∈ segments → Path.Plain name :=
    fun _ => Path.plain_above_of_file? hfile
  have hpasses : ∀ location, addition.Passes location ↔ location ∈ passed [] segments := by
    simp [Addition.Passes, hfile]
  have hrun : archive.addFile rootId addition.path addition.source
      = .ok (archive.putFileAt [] segments other addition.source) := by
    rw [addFile, hfile]
    dsimp only
    rw [place?_rootId h]
  refine ⟨_, _, hrun, ?_, fun location => ?_, fun location => ?_⟩
  · exact grows_putFileAt addition.source (live_nil archive) hplain (Path.plain_of_file? hfile)
  · rw [hpasses]
    exact live_putFileAt (live_nil archive) hplain other addition.source location
  · exact held_putFileAt (live_nil archive) hplain other addition.source location

/-- An archive has the directories that the ways to the files go through, and the files. -/
structure Collects (start : Archive) (additions : List Addition) (archive : Archive) : Prop where
  grows : Grows start archive
  live : ∀ location, archive.Live location ↔
    location = [] ∨ ∃ addition ∈ additions, addition.Passes location
  held : ∀ location entry, entry ∈ archive.held location ↔
    ∃ addition ∈ additions, ∃ name, addition.target? = some (location, name) ∧
      entry = start.added location name addition.source

theorem collects_new (name : String) (policy : Policy) :
    Collects { new name with policy } [] { new name with policy } := by
  refine ⟨Grows.refl _, fun location => ?_, fun location entry => ?_⟩
  · cases location with
    | nil => simp [Live, descend?]
    | cons first rest => simp [Live, descend?, Tree.descend?, new, Forest.descend?]
  · cases location with
    | nil => simp [held, filesAt, directory?, Tree.directory?, new]
    | cons first rest =>
      simp [held, filesAt, directory?, Tree.directory?, Tree.descend?, new, Forest.descend?]

/-- A file that is added comes to the others, when none of them goes to its place. -/
theorem Collects.add {additions : List Addition} {addition : Addition} {last : Location}
    {name : String} {after : Archive} (h : Collects start additions archive)
    (hstart : start.WellFormed) (htarget : addition.target? = some (last, name))
    (hapart : ∀ other ∈ additions, other.target? ≠ addition.target?)
    (hgained : archive.Gained addition last name after) :
    Collects start (additions ++ [addition]) after := by
  have hformed := h.grows.evolves.wellFormed hstart
  have hadded : archive.added last name addition.source
      = start.added last name addition.source := by
    rw [added, added, h.grows.keyIn_eq]
  -- A file that is there goes to another place, so it has another key and stays.
  have hfresh : ∀ entry ∈ archive.held last,
      entry.key ≠ (start.added last name addition.source).key := by
    intro entry hmem hkey
    obtain ⟨other, hother, otherName, hplace, rfl⟩ := (h.held last entry).mp hmem
    apply hapart other hother
    rw [hplace, htarget, (keyIn_inj.mp hkey : otherName = name)]
  have hsplit : ∀ p : Addition → Prop, (∃ other ∈ additions ++ [addition], p other) ↔
      (∃ other ∈ additions, p other) ∨ p addition := by
    simp [or_and_right, exists_or]
  refine ⟨h.grows.trans hgained.grows, fun location => ?_, fun location entry => ?_⟩
  · rw [hgained.live, h.live, hsplit]
    exact or_comm.trans or_assoc
  · have hnew : (∃ other, addition.target? = some (location, other) ∧
          entry = start.added location other addition.source) ↔
        location = last ∧ entry = start.added last name addition.source := by
      rw [htarget]
      constructor
      · rintro ⟨other, heq, hentry⟩
        obtain ⟨rfl, rfl⟩ := Prod.mk.inj (Option.some.inj heq)
        exact ⟨rfl, hentry⟩
      · rintro ⟨rfl, hentry⟩
        exact ⟨name, rfl, hentry⟩
    rw [hsplit, ← h.held, hnew, hgained.held, hadded]
    split
    · next heq =>
      rw [heq, Entry.mem_put (ascending_held hformed last), and_iff_right rfl,
        and_iff_left_of_imp (hfresh entry), or_comm]
    · next hne => rw [or_iff_left fun hsame => hne hsame.1]

/-- Files that go to different places can be added to a new archive one after another, and it
    then has them all. -/
theorem exists_collects (name : String) (policy : Policy) {additions : List Addition}
    (htargets : ∀ addition ∈ additions, addition.target?.isSome)
    (hapart : (additions.map Addition.target?).Nodup) :
    ∃ after, addEach { new name with policy } additions = .ok after ∧
      Collects { new name with policy } additions after := by
  induction additions using List.reverseRecOn with
  | nil => exact ⟨_, rfl, collects_new name policy⟩
  | append_singleton additions addition ih =>
    rw [List.map_append, List.nodup_append] at hapart
    obtain ⟨hfront, -, hdisjoint⟩ := hapart
    obtain ⟨archive, hrun, hcollects⟩ :=
      ih (fun other hmem => htargets other (List.mem_append_left _ hmem)) hfront
    have hstart : Reachable { new name with policy } := .setPolicy (.new name) policy
    obtain ⟨⟨last, file⟩, htarget⟩ := Option.isSome_iff_exists.mp
      (htargets addition (List.mem_append_right _ List.mem_cons_self))
    obtain ⟨after, address, hadd, hgained⟩ := exists_gained
      (hcollects.grows.evolves.wellFormed hstart.wellFormed) htarget
    have hafter := hcollects.add hstart.wellFormed htarget (fun other hmem =>
      hdisjoint _ (List.mem_map_of_mem hmem) _ (List.mem_singleton_self _)) hgained
    refine ⟨after, ?_, hafter⟩
    rw [addEach] at hrun ⊢
    rw [List.foldlM_append, hrun, Outcome.ok_bind, List.foldlM_cons, hadd]
    rfl

/-- Archives with the same files have the same tree. -/
theorem Collects.isomorphic_of_perm {other : Archive} {additions others : List Addition}
    (h : Collects start additions archive) (h' : Collects start others other)
    (hstart : start.WellFormed) (hperm : others.Perm additions) :
    ∃ f, Isomorphic f archive other := by
  have hformed := h.grows.evolves.wellFormed hstart
  have hformed' := h'.grows.evolves.wellFormed hstart
  refine (exists_isomorphic_iff hformed hformed').mpr
    ⟨h'.grows.name_eq.trans h.grows.name_eq.symm, sameFiles_of_mem_held hformed hformed' ?_ ?_⟩
  · intro location
    rw [h.live, h'.live]
    exact or_congr_right (exists_congr fun addition => and_congr_left' hperm.mem_iff)
  · intro location entry
    rw [h.held, h'.held]
    exact exists_congr fun addition => and_congr_left' hperm.mem_iff

/-- Files that are added one after another lead from archive to archive by operations. -/
theorem reachable_addEach {after : Archive} {additions : List Addition} (h : Reachable archive)
    (hrun : addEach archive additions = .ok after) : Reachable after := by
  rw [addEach] at hrun
  apply Outcome.foldlM_induct hrun h
  intro addition _ before next hnext hbefore
  obtain ⟨⟨added, address⟩, hadd, hnext⟩ := Outcome.bind_eq_ok_iff.mp hnext
  obtain rfl := Except.ok.inj hnext
  exact .addFile hbefore hadd

end Additions

/-! ## The main statement -/

/-- Archives with the same settings and isomorphic trees are written alike: both to the same
    bytes, or to none for the same reason.  So it is with files that go to different places
    and are added to a new archive in whatever order: all orders succeed, and they leave
    isomorphic trees. -/
theorem write_eq_of_same_tree (streams : Streams) (deflate : Bytes → Bytes) :
    (∀ {archive other : Archive}, Reachable archive → Reachable other →
      other.policy = archive.policy → (∃ f, Isomorphic f archive other) →
      other.write streams deflate = archive.write streams deflate) ∧
    ∀ (name : String) (policy : Policy) (additions others : List Addition),
      (∀ addition ∈ additions, addition.target?.isSome) →
      (additions.map Addition.target?).Nodup → others.Perm additions →
      ∃ first second, addEach { new name with policy } additions = .ok first ∧
        addEach { new name with policy } others = .ok second ∧
        (∃ f, Isomorphic f first second) ∧
        second.write streams deflate = first.write streams deflate := by
  have hwrite : ∀ {archive other : Archive}, Reachable archive → Reachable other →
      other.policy = archive.policy → (∃ f, Isomorphic f archive other) →
      other.write streams deflate = archive.write streams deflate := by
    intro archive other h h' hpolicy hiso
    obtain ⟨hname, hfiles⟩ := (exists_isomorphic_iff h.wellFormed h'.wellFormed).mp hiso
    exact write_eq_of_sameFiles h.wellFormed h'.wellFormed hname hpolicy hfiles
  refine ⟨hwrite, ?_⟩
  intro name policy additions others htargets hapart hperm
  have hstart : Reachable { new name with policy } := .setPolicy (.new name) policy
  obtain ⟨first, hfirst, hcollects⟩ := exists_collects name policy htargets hapart
  obtain ⟨second, hsecond, hcollects'⟩ := exists_collects name policy
    (fun addition hmem => htargets addition (hperm.mem_iff.mp hmem))
    ((hperm.map _).nodup_iff.mpr hapart)
  have hiso := hcollects.isomorphic_of_perm hcollects' hstart.wellFormed hperm
  refine ⟨first, second, hfirst, hsecond, hiso, hwrite ?_ ?_ ?_ hiso⟩
  · exact reachable_addEach hstart hfirst
  · exact reachable_addEach hstart hsecond
  · exact hcollects'.grows.policy_eq.trans hcollects.grows.policy_eq.symm

/-- The files of two directories whose names differ only in case. -/
def twinFiles : List Addition := [⟨"A/x", .ofBytes [0x6F]⟩, ⟨"a/y", .ofBytes [0x74]⟩]

theorem addEach_twinFiles : addEach (new "root") twinFiles = .ok twins := by rfl

/-- Which of two directories was added first shows in their numbers and not in the bytes. -/
theorem write_eq_of_same_tree_twins :
    ∃ other, addEach (new "root") twinFiles.reverse = .ok other ∧ other ≠ twins ∧
      (∃ f, Isomorphic f twins other) ∧ other.write noStreams = twins.write noStreams := by
  obtain ⟨first, second, hfirst, hsecond, hiso, -⟩ :=
    (write_eq_of_same_tree noStreams Deflate.store).2 "root" {} twinFiles twinFiles.reverse
      (by decide +kernel) (by decide +kernel) twinFiles.reverse_perm
  obtain rfl : first = twins := Except.ok.inj (hfirst.symm.trans addEach_twinFiles)
  have hother : Reachable second := reachable_addEach (.setPolicy (.new "root") {}) hsecond
  have hpolicy : (addEach (new "root") twinFiles.reverse).toOption.all
      (fun other => other ≠ twins ∧ other.policy = twins.policy) = true := by decide +kernel
  rw [show addEach (new "root") twinFiles.reverse = .ok second from hsecond] at hpolicy
  obtain ⟨hne, hpolicy⟩ := of_decide_eq_true hpolicy
  exact ⟨second, hsecond, hne, hiso,
    (write_eq_of_same_tree noStreams Deflate.store).1 reachable_twins hother hpolicy hiso⟩

end Archive

end HashArchive
