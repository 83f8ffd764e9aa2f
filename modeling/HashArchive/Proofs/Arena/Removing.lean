/-
  HashArchive.Proofs.Arena.Removing

  Directories and files that are removed from an arena.  The sweep over the numbers on a stack
  ends with what no link leads to from one of them (`getElem?_sweep`), in any table, whatever its
  links are.  Where the arena represents an archive, that is what the tree without the directory
  shows (`Pruned.represents`).
-/
import Mathlib
import HashArchive.Proofs.Arena.Looks

namespace HashArchive.Arena

open Archive

variable {ι : Type} [Handle ι]

/-! ## The sweep -/

/-- One directory of a table is a subdirectory of another. -/
def Link (directories : Std.ExtTreeMap ι (Node ι)) (holder child : ι) : Prop :=
  ∃ (node : Node ι) (name : String), directories[holder]? = some node ∧
    node.subdirectories[name]? = some child

/-- The links of a table lead from one number to another. -/
def Leads (directories : Std.ExtTreeMap ι (Node ι)) : ι → ι → Prop :=
  Relation.ReflTransGen (Link directories)

/-- The links of a table lead to a number from one of those on a stack. -/
def Meets (directories : Std.ExtTreeMap ι (Node ι)) (stack : List ι) (last : ι) : Prop :=
  ∃ top ∈ stack, Leads directories top last

section Sweep

variable {directories : Std.ExtTreeMap ι (Node ι)} {id last : ι} {pending : List ι} {node : Node ι}

theorem mem_push {α : Type} {item : α} {stack items : List α} :
    item ∈ push stack items ↔ item ∈ items ∨ item ∈ stack := by
  rw [push, List.mem_append, List.mem_reverse]

omit [Handle ι] in
/-- The numbers that the sweep puts on its stack for a directory. -/
theorem mem_map_toList_subdirectories {child : ι} :
    child ∈ node.subdirectories.toList.map (·.2) ↔
      ∃ name : String, node.subdirectories[name]? = some child := by
  rw [List.mem_map]
  refine ⟨?_, fun ⟨name, hchild⟩ => ⟨(name, child), ?_, rfl⟩⟩
  · rintro ⟨⟨name, child⟩, hmem, rfl⟩
    exact ⟨name, Std.ExtTreeMap.mem_toList_iff_getElem?_eq_some.mp hmem⟩
  · exact Std.ExtTreeMap.mem_toList_iff_getElem?_eq_some.mpr hchild

theorem link_of_erase {holder child : ι} (h : Link (directories.erase id) holder child) :
    Link directories holder child := by
  obtain ⟨node, name, hholder, hchild⟩ := h
  rw [Std.ExtTreeMap.getElem?_erase] at hholder
  split at hholder
  · cases hholder
  · exact ⟨node, name, hholder, hchild⟩

theorem link_erase {holder child : ι} (h : Link directories holder child) (hne : holder ≠ id) :
    Link (directories.erase id) holder child := by
  obtain ⟨node, name, hholder, hchild⟩ := h
  refine ⟨node, name, ?_, hchild⟩
  rw [Std.ExtTreeMap.getElem?_erase, if_neg (by simpa using Ne.symm hne)]
  exact hholder

/-- Without a directory the links lead on to the same numbers, or they led through it. -/
theorem leads_erase {first : ι} (hnode : directories[id]? = some node)
    (h : Leads directories first last) :
    Leads (directories.erase id) first last ∨ last = id ∨
      Meets (directories.erase id) (node.subdirectories.toList.map (·.2)) last := by
  -- The first link is taken off, so that what comes behind it has been cut already.
  induction h using Relation.ReflTransGen.head_induction_on with
  | refl => exact Or.inl Relation.ReflTransGen.refl
  | @head first second hlink _ ih =>
    rcases ih with hrest | hthrough
    · by_cases hfirst : first = id
      · obtain ⟨found, name, hfound, hchild⟩ := hlink
        rw [hfirst, hnode, Option.some.injEq] at hfound
        rw [← hfound] at hchild
        exact Or.inr (Or.inr ⟨second, mem_map_toList_subdirectories.mpr ⟨name, hchild⟩, hrest⟩)
      · exact Or.inl (hrest.head (link_erase hlink hfirst))
    · exact Or.inr hthrough

/-- A number without a directory leads to itself only. -/
theorem leads_iff_of_none (hnone : directories[id]? = none) :
    Leads directories id last ↔ last = id := by
  refine ⟨fun h => ?_, fun h => h ▸ Relation.ReflTransGen.refl⟩
  rcases Relation.ReflTransGen.cases_head h with rfl | ⟨child, ⟨node, name, hnode, -⟩, -⟩
  · rfl
  · rw [hnone] at hnode
    cases hnode

theorem meets_cons_of_none (hnone : directories[id]? = none) :
    Meets directories (id :: pending) last ↔ last = id ∨ Meets directories pending last := by
  rw [← leads_iff_of_none hnone]
  simp only [Meets, List.mem_cons, or_and_right, exists_or, exists_eq_left]

/-- What a stack meets is the directory on top and what is met without it, once those in it are
    on the stack. -/
theorem meets_cons_of_some (hnode : directories[id]? = some node) :
    Meets directories (id :: pending) last ↔ last = id ∨
      Meets (directories.erase id) (push pending (node.subdirectories.toList.map (·.2))) last := by
  constructor
  · rintro ⟨top, hmem, hleads⟩
    rcases leads_erase hnode hleads with hcut | hself | ⟨child, hchild, hrest⟩
    · rcases List.mem_cons.mp hmem with rfl | hmem
      · exact Or.inl ((leads_iff_of_none Std.ExtTreeMap.getElem?_erase_self).mp hcut)
      · exact Or.inr ⟨top, mem_push.mpr (Or.inr hmem), hcut⟩
    · exact Or.inl hself
    · exact Or.inr ⟨child, mem_push.mpr (Or.inl hchild), hrest⟩
  · rintro (rfl | ⟨top, hmem, hcut⟩)
    · exact ⟨last, List.mem_cons_self, Relation.ReflTransGen.refl⟩
    · have hleads : Leads directories top last :=
        Relation.ReflTransGen.mono (fun _ _ => link_of_erase) _ _ hcut
      rcases mem_push.mp hmem with hmem | hmem
      · obtain ⟨name, hchild⟩ := mem_map_toList_subdirectories.mp hmem
        exact ⟨id, List.mem_cons_self, hleads.head ⟨node, name, hnode, hchild⟩⟩
      · exact ⟨top, List.mem_cons_of_mem _ hmem, hleads⟩

theorem sweep_cons_of_none (hnone : directories[id]? = none) :
    sweep directories (id :: pending) = sweep directories pending := by
  rw [sweep]
  split
  · rfl
  · next hsome => cases hnone.symm.trans hsome

theorem sweep_cons_of_some (hnode : directories[id]? = some node) :
    sweep directories (id :: pending)
      = sweep (directories.erase id) (push pending (node.subdirectories.toList.map (·.2))) := by
  rw [sweep]
  split
  · next hnone => cases hnone.symm.trans hnode
  · next found hfound =>
    obtain rfl := Option.some.inj (hnode.symm.trans hfound)
    rfl

/-- The sweep removes just the directories that the links lead to from a number on the stack. -/
theorem getElem?_sweep (directories : Std.ExtTreeMap ι (Node ι)) (stack : List ι) (other : ι) :
    (Meets directories stack other → (sweep directories stack)[other]? = none) ∧
      (¬ Meets directories stack other →
        (sweep directories stack)[other]? = directories[other]?) := by
  -- Each step takes a directory off the table or a number off the stack.
  induction directories, stack using sweep.induct with
  | case1 directories =>
    rw [sweep]
    exact ⟨by simp [Meets], fun _ => rfl⟩
  | case2 directories id pending hnone ih =>
    rw [sweep_cons_of_none hnone, meets_cons_of_none hnone]
    by_cases hpending : Meets directories pending other
    · exact ⟨fun _ => ih.1 hpending, fun hnot => absurd (Or.inr hpending) hnot⟩
    · refine ⟨fun hmeets => ?_, fun _ => ih.2 hpending⟩
      obtain rfl := hmeets.resolve_right hpending
      exact (ih.2 hpending).trans hnone
  | case3 directories id pending node hnode ih =>
    rw [sweep_cons_of_some hnode, meets_cons_of_some hnode]
    by_cases hmore : Meets (directories.erase id)
        (push pending (node.subdirectories.toList.map (·.2))) other
    · exact ⟨fun _ => ih.1 hmore, fun hnot => absurd (Or.inr hmore) hnot⟩
    · rw [ih.2 hmore]
      refine ⟨fun hmeets => ?_, fun hnot => ?_⟩
      · obtain rfl := hmeets.resolve_right hmore
        exact Std.ExtTreeMap.getElem?_erase_self
      · have hne : id ≠ other := fun heq => hnot (Or.inl heq.symm)
        rw [Std.ExtTreeMap.getElem?_erase, if_neg (by simpa using hne)]

/-- Where two tables agree on what a number leads to, it leads to the same in both. -/
theorem leads_congr {directories other : Std.ExtTreeMap ι (Node ι)} {top : ι}
    (hsame : ∀ id, Leads directories top id → other[id]? = directories[id]?) (last : ι) :
    Leads other top last ↔ Leads directories top last := by
  constructor
  · intro hleads
    induction hleads with
    | refl => exact Relation.ReflTransGen.refl
    | tail _ hlink ih =>
      obtain ⟨node, name, hnode, hchild⟩ := hlink
      rw [hsame _ ih] at hnode
      exact ih.tail ⟨node, name, hnode, hchild⟩
  · intro hleads
    induction hleads with
    | refl => exact Relation.ReflTransGen.refl
    | tail hbefore hlink ih =>
      obtain ⟨node, name, hnode, hchild⟩ := hlink
      rw [← hsame _ hbefore] at hnode
      exact ih.tail ⟨node, name, hnode, hchild⟩

end Sweep

variable {arena : Arena ι} {archive : Archive}

/-! ## Files and names -/

section Files

variable (h : arena.Represents archive)
include h

/-- A file is removed as it is in the tree. -/
theorem run_removeFile (start : ι) (path : String) :
    ∃ after, run (removeFile start path) arena
        = some (.ok (archive.removeFile (Handle.toNat start) path).2, after) ∧
      after.Represents (archive.removeFile (Handle.toNat start) path).1 := by
  have hformed := (evolves_removeFile archive (Handle.toNat start) path).wellFormed h.wellFormed
  rw [removeFile_eq h.wellFormed] at hformed ⊢
  cases hfile : archive.findFile? (Handle.toNat start) path with
  | none =>
    refine ⟨arena, ?_, h⟩
    rw [removeFile, run_ask_bind (locate?_of_findFile?_eq_none h hfile)]
    rfl
  | some file =>
    rw [hfile] at hformed
    obtain ⟨id, node, stored, hlocate, -, hid, hnode, hstored, -⟩ := locate?_of_findFile? h hfile
    have hkeyed := h.keyed id node hnode
    have hcontains : node.files.contains file.entry.key = true := by
      rw [Std.ExtTreeMap.contains_eq_isSome_getElem?, hstored]
      rfl
    refine ⟨arena.setNode id (node.remove file.entry.key), ?_, ?_⟩
    · rw [removeFile, run_ask_bind hlocate]
      dsimp only
      rw [run_node_bind hnode, run_bind_of_ok (run_change _ hnode), hcontains]
      rfl
    · exact h.changeFiles hid hnode (Node.view_remove hkeyed _) (hkeyed.remove _) hformed

theorem run_setName (name : String) :
    ∃ after, run (setName name) arena = some (.ok (), after) ∧
      after.Represents (archive.setName name) := by
  obtain ⟨root, hroot, -⟩ := h.exists_root
  refine ⟨_, run_change _ hroot, ?_⟩
  refine h.setNode (f := fun view => { view with name }) hroot rfl
    (fun key file => h.keyed _ root hroot key file) (wellFormed_setName h.wellFormed name)
    (fun number => ?_) rfl rfl
  rw [view?_setName h.wellFormed, Handle.toNat_root]
  rfl

/-- The source of a file is changed in the arena and in the tree. -/
theorem Represents.updateSource {location : Location} {id : ι}
    (hid : archive.idAt location = some (Handle.toNat id)) (key : String) (f : Source → Source) :
    (arena.updateSource id key f).Represents (archive.updateSource ⟨location, key⟩ f) := by
  obtain ⟨node, hnode, -⟩ := h.exists_node hid
  have hkeyed := h.keyed id node hnode
  have hset : arena.updateSource id key f = arena.setNode id (node.updateSource key f) := by
    rw [Arena.updateSource, Arena.setNode, Arena.mk.injEq]
    refine ⟨?_, rfl, rfl⟩
    ext other found
    simp only [Std.ExtTreeMap.getElem?_modify, Std.ExtTreeMap.getElem?_insert]
    split
    · next heq =>
      obtain rfl := Std.LawfulEqOrd.compare_eq_iff_eq.mp heq
      rw [hnode]
      rfl
    · rfl
  rw [hset]
  exact h.changeFiles hid hnode (Node.view_updateSource hkeyed key f) (hkeyed.updateSource key f)
    ((Change.updateSource archive ⟨location, key⟩ f).evolves.wellFormed h.wellFormed)

/-- Where there is no directory, no source is changed. -/
theorem Represents.exists_updateSource (id : ι) (key : String) (f : Source → Source) :
    (arena.updateSource id key f).Represents archive ∨
      ∃ location, archive.idAt location = some (Handle.toNat id) ∧
        (arena.updateSource id key f).Represents (archive.updateSource ⟨location, key⟩ f) := by
  cases hnode : arena.directories[id]? with
  | none =>
    have hsame : arena.updateSource id key f = arena := by
      obtain ⟨directories, nextId, policy⟩ := arena
      rw [Arena.updateSource, Arena.mk.injEq]
      refine ⟨?_, rfl, rfl⟩
      ext other found
      rw [Std.ExtTreeMap.getElem?_modify]
      split
      · next heq =>
        obtain rfl := Std.LawfulEqOrd.compare_eq_iff_eq.mp heq
        rw [show directories[id]? = none from hnode]
        rfl
      · rfl
    rw [hsame]
    exact Or.inl h
  | some node =>
    obtain ⟨location, hid, -⟩ := h.exists_location hnode
    exact Or.inr ⟨location, hid, h.updateSource hid key f⟩

end Files

/-! ## Directories -/

section Directories

variable (h : arena.Represents archive)
include h

theorem link_iff {holder child : ι} :
    Link arena.directories holder child ↔
      archive.Holds (Handle.toNat holder) (Handle.toNat child) := by
  constructor
  · rintro ⟨node, name, hnode, hchild⟩
    have hview := h.view?_eq holder
    rw [hnode, Option.map_some] at hview
    refine ⟨node.view, name, hview.symm, ?_⟩
    show node.subdirectories[name]?.map Handle.toNat = _
    rw [hchild, Option.map_some]
  · rintro ⟨view, name, hview, hchild⟩
    rw [← h.view?_eq, Option.map_eq_some_iff] at hview
    obtain ⟨node, hnode, rfl⟩ := hview
    obtain ⟨other, hother, heq⟩ := Option.map_eq_some_iff.mp hchild
    obtain rfl := Handle.toNat_inj heq
    exact ⟨node, name, hnode, hother⟩

/-- The links lead down as in the tree. -/
theorem leads_iff {top id : ι} :
    Leads arena.directories top id ↔ archive.Within (Handle.toNat top) (Handle.toNat id) := by
  constructor
  · intro hleads
    exact Relation.ReflTransGen.lift Handle.toNat (fun _ _ => (link_iff h).mp) _ _ hleads
  · intro hwithin
    generalize hnumber : Handle.toNat id = number at hwithin
    induction hwithin generalizing id with
    | refl =>
      obtain rfl := Handle.toNat_inj hnumber
      exact Relation.ReflTransGen.refl
    | tail _ hholds ih =>
      obtain ⟨location, name, hholder, -⟩ := (holds_iff h.wellFormed).mp hholds
      obtain ⟨holder, rfl, -⟩ := h.exists_handle hholder
      rw [← hnumber] at hholds
      exact (ih rfl).tail ((link_iff h).mpr hholds)

/-- A directory that is removed is not the root, and the one above it, which is not below it,
    holds it under its name. -/
theorem Represents.exists_holder {above : Location} {name : String} {id : ι}
    (hid : archive.idAt (above ++ [name]) = some (Handle.toNat id)) :
    ∃ node parent holder, arena.directories[id]? = some node ∧ node.name = name ∧
      node.parent? = some parent ∧ archive.idAt above = some (Handle.toNat parent) ∧
      arena.directories[parent]? = some holder ∧ holder.subdirectories[name]? = some id ∧
      ¬ Leads arena.directories id parent := by
  obtain ⟨node, parent, hnode, hname, hparent, habove⟩ := h.exists_parent hid
  obtain ⟨holder, hholder, hview⟩ := h.exists_node habove
  refine ⟨node, parent, holder, hnode, hname, hparent, habove, hholder, ?_, ?_⟩
  · have hchild := subdirectory?_of_view hview name
    rw [hid, Option.map_eq_some_iff] at hchild
    obtain ⟨child, hchild, heq⟩ := hchild
    rw [hchild, Handle.toNat_inj heq]
  · rw [leads_iff h, within_iff h.wellFormed hid]
    rintro ⟨location, hpre, hlocation⟩
    obtain rfl := eq_of_idAt_eq h.wellFormed habove hlocation
    simpa using hpre.length_le

omit h

/-- What is removed with a directory: it and all that its links lead down to, and the one link
    to it. -/
structure Pruned (arena after : Arena ι) (id : ι) : Prop where
  /-- The directory and those below it are gone, and no others. -/
  ids : ∀ other, (after.directories[other]?).isSome ↔
    (arena.directories[other]?).isSome ∧ ¬ Leads arena.directories id other
  /-- The directory above has lost the one link. -/
  holder : ∃ node parent above, arena.directories[id]? = some node ∧ node.parent? = some parent ∧
    arena.directories[parent]? = some above ∧ above.subdirectories[node.name]? = some id ∧
    after.directories[parent]? = some (above.unlink node.name)
  /-- All others are as they were. -/
  kept : ∀ other, ¬ Leads arena.directories id other →
    (∀ node, arena.directories[id]? = some node → node.parent? ≠ some other) →
    after.directories[other]? = arena.directories[other]?
  nextId_eq : after.nextId = arena.nextId
  policy_eq : after.policy = arena.policy

/-- The sweep from a directory that has been taken from the one above it. -/
theorem pruned_sweep {id parent : ι} {node above : Node ι}
    (hnode : arena.directories[id]? = some node) (hparent : node.parent? = some parent)
    (habove : arena.directories[parent]? = some above)
    (hlink : above.subdirectories[node.name]? = some id)
    (hnot : ¬ Leads arena.directories id parent) :
    Pruned arena
      { arena with
        directories :=
          sweep (arena.setNode parent (above.unlink node.name)).directories [id] } id := by
  set cut := (arena.setNode parent (above.unlink node.name)).directories with hcut
  have hsame : ∀ other, Leads arena.directories id other →
      cut[other]? = arena.directories[other]? := by
    intro other hleads
    have hne : other ≠ parent := by
      rintro rfl
      exact hnot hleads
    exact getElem?_setNode_of_ne hne
  have hsweep : ∀ other, (Leads arena.directories id other → (sweep cut [id])[other]? = none) ∧
      (¬ Leads arena.directories id other → (sweep cut [id])[other]? = cut[other]?) := by
    intro other
    rw [← leads_congr hsame other]
    have hswept := getElem?_sweep cut [id] other
    simpa [Meets] using hswept
  refine ⟨fun other => ?_, ?_, fun other hother hne => ?_, rfl, rfl⟩
  · by_cases hleads : Leads arena.directories id other
    · rw [(hsweep other).1 hleads]
      exact iff_of_false Bool.false_ne_true fun hthere => hthere.2 hleads
    · rw [(hsweep other).2 hleads]
      by_cases hother : other = parent
      · rw [hother, getElem?_setNode_self, habove]
        exact iff_of_true rfl ⟨rfl, hnot⟩
      · rw [getElem?_setNode_of_ne hother]
        exact (and_iff_left hleads).symm
  · refine ⟨node, parent, above, hnode, hparent, habove, hlink, ?_⟩
    rw [(hsweep parent).2 hnot]
    exact getElem?_setNode_self arena parent _
  · have hne : other ≠ parent := by
      rintro rfl
      exact hne node hnode hparent
    rw [(hsweep other).2 hother]
    exact getElem?_setNode_of_ne hne

include h

/-- What is left represents the tree without the directory. -/
theorem Pruned.represents {after : Arena ι} {above : Location} {name : String} {id : ι}
    (hpruned : Pruned arena after id)
    (hid : archive.idAt (above ++ [name]) = some (Handle.toNat id)) :
    after.Represents (archive.without above name) := by
  obtain ⟨node, parent, holder, hnode, hname, hparent, habove, hholder, -, -⟩ := h.exists_holder hid
  have hformed : (archive.without above name).WellFormed :=
    wellFormed_removeDirectory h.wellFormed above name
  have hlast : after.directories[parent]? = some (holder.unlink name) := by
    obtain ⟨node', parent', holder', hnode', hparent', hholder', -, hafter⟩ := hpruned.holder
    obtain rfl := Option.some.inj (hnode.symm.trans hnode')
    obtain rfl := Option.some.inj (hparent.symm.trans hparent')
    obtain rfl := Option.some.inj (hholder.symm.trans hholder')
    rw [hafter, hname]
  have hgone : ∀ other, Leads arena.directories id other → after.directories[other]? = none := by
    intro other hleads
    rw [← Option.not_isSome_iff_eq_none, hpruned.ids]
    exact fun hthere => hthere.2 hleads
  have hkept : ∀ other, ¬ Leads arena.directories id other → other ≠ parent →
      after.directories[other]? = arena.directories[other]? := by
    intro other hnot hne
    refine hpruned.kept other hnot fun found hfound heq => hne ?_
    obtain rfl := Option.some.inj (hnode.symm.trans hfound)
    exact Option.some.inj (heq.symm.trans hparent)
  refine ⟨hformed, fun other => ?_, fun other found hfound => ?_,
    (congrArg _ hpruned.nextId_eq).trans h.nextId_eq, hpruned.policy_eq.trans h.policy_eq⟩
  · by_cases hleads : Leads arena.directories id other
    · have hplace : (archive.without above name).place? (Handle.toNat other) = none := by
        rw [← Option.not_isSome_iff_eq_none, isSome_place?_without h.wellFormed hid]
        exact fun hthere => hthere.2 ((leads_iff h).mp hleads)
      rw [hgone other hleads, view?, hplace]
      rfl
    · rw [view?_without h.wellFormed hid (mt (leads_iff h).mpr hleads), ← h.view?_eq, habove]
      by_cases hother : other = parent
      · rw [hother, hlast, hholder, Option.map_some, Node.view_unlink]
        simp
      · have hne : Handle.toNat parent ≠ Handle.toNat other := fun heq =>
          hother (Handle.toNat_inj heq).symm
        rw [hkept other hleads hother]
        simp [hne, Function.comp_def]
  · have hleads : ¬ Leads arena.directories id other := by
      intro hleads
      rw [hgone other hleads] at hfound
      cases hfound
    by_cases hother : other = parent
    · rw [hother, hlast, Option.some.injEq] at hfound
      rw [hother, ← hfound]
      exact fun key file => h.keyed parent holder hholder key file
    · rw [hkept other hleads hother] at hfound
      exact h.keyed other found hfound

section Runs

variable {start : ι} {path : String}

/-- The directory that a path leads to has a location. -/
theorem Represents.idAt_of_findDirectory? {id : ι}
    (hfound : arena.findDirectory? start path = some id) :
    ∃ place, archive.findDirectory? (Handle.toNat start) path = some place ∧
      archive.idAt place.location = some (Handle.toNat id) := by
  have hmap := (map_findDirectory? h start path).symm
  rw [hfound, Option.map_some, Option.map_eq_some_iff] at hmap
  obtain ⟨place, hplace, heq⟩ := hmap
  have hid := idAt_of_place? h.wellFormed (place?_of_findDirectory? h.wellFormed hplace)
  exact ⟨place, hplace, heq ▸ hid⟩

/-- A directory that is not the root is removed with all below it. -/
theorem run_removeDirectory_of_ne {id : ι} (hfound : arena.findDirectory? start path = some id)
    (hne : id ≠ Handle.root) :
    ∃ after, run (removeDirectory start path) arena = some (.ok true, after) ∧
      Pruned arena after id := by
  obtain ⟨place, -, hid⟩ := h.idAt_of_findDirectory? hfound
  rcases List.eq_nil_or_concat' place.location with hnil | ⟨above, name, hlocation⟩
  · rw [hnil] at hid
    exact absurd (h.eq_root hid) hne
  · rw [hlocation] at hid
    obtain ⟨node, parent, holder, hnode, rfl, hparent, -, hholder, hlink, hnot⟩ :=
      h.exists_holder hid
    refine ⟨_, ?_, pruned_sweep hnode hparent hholder hlink hnot⟩
    rw [removeDirectory, run_get_bind, hfound]
    dsimp only
    rw [run_node_bind hnode, hparent]
    dsimp only
    rw [run_bind_of_ok (run_change _ hholder), run_modify_bind, run_pure]
    rfl

/-- Nothing is removed where the path leads to the root or nowhere. -/
theorem run_removeDirectory_of_eq
    (hroot : ∀ id, arena.findDirectory? start path = some id → id = Handle.root) :
    run (removeDirectory start path) arena = some (.ok false, arena) := by
  rw [removeDirectory, run_get_bind]
  cases hfound : arena.findDirectory? start path with
  | none => rfl
  | some id =>
    obtain ⟨root, hnode, -, hparent⟩ := h.exists_root
    dsimp only
    rw [hroot id hfound, run_node_bind hnode, hparent]
    rfl

/-- A directory is removed as it is in the tree. -/
theorem run_removeDirectory (start : ι) (path : String) :
    ∃ after, run (removeDirectory start path) arena
        = some (.ok (archive.removeDirectory (Handle.toNat start) path).2, after) ∧
      after.Represents (archive.removeDirectory (Handle.toNat start) path).1 := by
  rcases removeDirectory_cases archive (Handle.toNat start) path with
    ⟨hrun, hroot⟩ | ⟨place, above, name, hplace, hlocation, hrun⟩
  · rw [hrun]
    refine ⟨arena, run_removeDirectory_of_eq h fun id hfound => ?_, h⟩
    obtain ⟨place, hplace, hid⟩ := h.idAt_of_findDirectory? hfound
    rw [hroot place hplace] at hid
    exact h.eq_root hid
  · rw [hrun]
    have hmap := map_findDirectory? h start path
    rw [hplace, Option.map_some, Option.map_eq_some_iff] at hmap
    obtain ⟨id, hfound, -⟩ := hmap
    obtain ⟨place', hplace', hid⟩ := h.idAt_of_findDirectory? hfound
    obtain rfl := Option.some.inj (hplace.symm.trans hplace')
    rw [hlocation] at hid
    have hne : id ≠ Handle.root := by
      rintro rfl
      exact List.append_ne_nil_of_right_ne_nil above (List.cons_ne_nil name [])
        (eq_of_idAt_eq h.wellFormed hid h.idAt_nil)
    obtain ⟨after, hafter, hpruned⟩ := run_removeDirectory_of_ne h hfound hne
    exact ⟨after, hafter, hpruned.represents h hid⟩

end Runs

end Directories

end HashArchive.Arena
