/-
  HashArchive.Proofs.Disk.Writing

  Adding folders and files below a folder that was empty.  Each step changes that folder alone,
  whatever comes of it; when it succeeds it has put there what it says and nothing else, and it
  does succeed where names and paths are within the limits of the disk and no item stands in the
  way (`ensureFolder_below`, `writeFile_below`).
-/
import Mathlib
import HashArchive.Disk.Access
import HashArchive.Proofs.Disk.Walks

namespace HashArchive

namespace Folder

variable [DiskLimits] {disk inside after : Folder} {target base way : List String} {trail : Trail}

/-! ## Lengths of paths -/

omit [DiskLimits] in
theorem pathLength_le_of_sublist {path longer : List String} (h : path.Sublist longer) :
    pathLength path ≤ pathLength longer := by
  induction h with
  | slnil => exact le_rfl
  | cons part _ ih => exact ih.trans (Nat.le_add_left _ _)
  | cons_cons part _ ih => exact Nat.add_le_add_left ih _

/-- A path without some of its parts can be followed as well. -/
theorem Followable.of_sublist {path longer : List String} (h : Followable longer)
    (hsub : path.Sublist longer) : Followable path :=
  (pathLength_le_of_sublist hsub).trans h

/-! ## What paths below the folder lead to -/

section Below

variable (h : LeadsToEmpty disk target trail) (hfilled : Filled disk trail inside after)
  (hfree : NoLinks inside) (hbase : steps base = steps target)

include h hfilled hfree hbase

theorem place?_below_of_at? {names : List String} (hnames : ∀ name ∈ names, isName name = true)
    (hfollow : Followable (base ++ names)) {item : Item} (hitem : inside.at? names = some item) :
    after.place? (base ++ names) = some (trail ++ names) := by
  have hfolder : inside.kindAt? names.dropLast = some .folder := by
    cases names with
    | nil => rfl
    | cons name names =>
      refine kindAt?_eq_folder_above ?_ (List.dropLast_prefix _) fun heq => ?_
      · exact fun hnone => nomatch (kindAt?_eq_none_iff.mp hnone).symm.trans hitem
      · exact absurd (congrArg List.length heq) (by simp)
  rw [h.place?_below hfilled hfree hbase hnames, if_pos ⟨hfollow, hfolder⟩]

theorem follow?_below {names : List String} (hnames : ∀ name ∈ names, isName name = true)
    (hfollow : Followable (base ++ names)) : after.follow? (base ++ names) = inside.at? names := by
  rw [follow?]
  cases hitem : inside.at? names with
  | some item =>
    rw [place?_below_of_at? h hfilled hfree hbase hnames hfollow hitem, Option.bind_eq_bind,
      Option.bind_some, at?_append hfilled.within, hitem]
  | none =>
    rw [h.place?_below hfilled hfree hbase hnames]
    split
    · rw [Option.bind_eq_bind, Option.bind_some, at?_append hfilled.within, hitem]
    · rfl

theorem find?_below {names : List String} (hnames : ∀ name ∈ names, isName name = true)
    (hfollow : Followable (base ++ names)) :
    after.find? (base ++ names) = (inside.at? names).map fun _ => trail ++ names := by
  rw [find?]
  cases hitem : inside.at? names with
  | some item =>
    rw [place?_below_of_at? h hfilled hfree hbase hnames hfollow hitem, Option.bind_eq_bind,
      Option.bind_some, at?_append hfilled.within, hitem]
    rfl
  | none =>
    rw [h.place?_below hfilled hfree hbase hnames]
    split
    · rw [Option.bind_eq_bind, Option.bind_some, at?_append hfilled.within, hitem]
      rfl
    · rfl

theorem isSome_folder?_below {names : List String} (hnames : ∀ name ∈ names, isName name = true)
    (hfollow : Followable (base ++ names)) :
    (after.folder? (base ++ names)).isSome = true ↔ inside.kindAt? names = some .folder := by
  rw [folder?, follow?_below h hfilled hfree hbase hnames hfollow, kindAt?_eq_folder_iff]
  cases inside.at? names with
  | none => simp
  | some item => cases item <;> simp

theorem entry?_below {above : List String} {name : String}
    (hnames : ∀ part ∈ above ++ [name], isName part = true)
    (hfollow : Followable (base ++ (above ++ [name]))) :
    after.entry? (base ++ (above ++ [name]))
      = if inside.kindAt? above = some .folder then some (trail ++ (above ++ [name])) else none := by
  have habove : ∀ part ∈ above, isName part = true := fun part hmem =>
    hnames part (List.mem_append_left _ hmem)
  have hshort : Followable (base ++ above) :=
    hfollow.of_sublist (by rw [← List.append_assoc]; exact List.sublist_append_left _ _)
  have hlast : (base ++ (above ++ [name])).getLast? = some name := by
    rw [← List.append_assoc, List.getLast?_concat]
  have hfront : (base ++ (above ++ [name])).dropLast = base ++ above := by
    rw [← List.append_assoc, List.dropLast_concat]
  unfold entry?
  rw [hlast, hfront, find?_below h hfilled hfree hbase habove hshort, Option.bind_eq_bind,
    Option.bind_some]
  cases hitem : inside.at? above with
  | none => rw [if_neg (by simp [kindAt?, hitem])]; rfl
  | some item =>
    rw [Option.map_some, Option.bind_eq_bind, Option.bind_some, at?_append hfilled.within, hitem]
    cases item with
    | folder within =>
      have hname : isName name = true := hnames name (by simp)
      rw [if_pos (kindAt?_eq_folder_iff.mpr ⟨within, hitem⟩)]
      dsimp only
      rw [if_pos ⟨hname, hfollow⟩, List.append_assoc]
    | file data =>
      have hno : inside.kindAt? above ≠ some .folder := by simp [kindAt?, hitem]
      rw [if_neg hno]
    | link target =>
      have hno : inside.kindAt? above ≠ some .folder := by simp [kindAt?, hitem]
      rw [if_neg hno]

/-- A folder is added where its folder is there and nothing else is. -/
theorem makeFolder_below {above : List String} {name : String}
    (hnames : ∀ part ∈ above ++ [name], isName part = true)
    (hfollow : Followable (base ++ (above ++ [name]))) :
    after.makeFolder (base ++ (above ++ [name]))
      = match inside.kindAt? (above ++ [name]) with
        | some .folder => (after, .ok ())
        | some _ => (after, .error .occupied)
        | none =>
          if inside.kindAt? above = some .folder then
            after.putNamed (trail ++ (above ++ [name])) (.folder .empty)
          else (after, .error .notFound) := by
  have hfolder := isSome_folder?_below h hfilled hfree hbase hnames hfollow
  rw [makeFolder, entry?_below h hfilled hfree hbase hnames hfollow]
  cases hkind : inside.kindAt? (above ++ [name]) with
  | none =>
    rw [if_neg (by rw [hfolder, hkind]; simp)]
    split_ifs
    · simp only [at?_append hfilled.within, kindAt?_eq_none_iff.mp hkind]
    · rfl
  | some kind =>
    by_cases hsome : kind = .folder
    · subst hsome
      rw [if_pos (hfolder.mpr hkind)]
    · obtain ⟨item, hitem, rfl⟩ := Option.map_eq_some_iff.mp hkind
      have habove : inside.kindAt? above = some .folder :=
        kindAt?_eq_folder_above (by rw [hkind]; simp) (List.prefix_append _ _) (by simp)
      rw [if_neg (by rw [hfolder, hkind]; simpa using hsome), if_pos habove]
      simp only [at?_append hfilled.within, hitem]

/-- A file is written where its folder is there and no folder is in its place. -/
theorem writeFile_below {above : List String} {name : String}
    (hnames : ∀ part ∈ above ++ [name], isName part = true) (data : Bytes) :
    after.writeFile (base ++ (above ++ [name])) data
      = if Followable (base ++ (above ++ [name])) ∧ inside.kindAt? above = some .folder then
          match inside.kindAt? (above ++ [name]) with
          | some (.file _) => (after.putAt (.file data) (trail ++ (above ++ [name])), .ok ())
          | some _ => (after, .error .isDirectory)
          | none => after.putNamed (trail ++ (above ++ [name])) (.file data)
        else (after, .error .notFound) := by
  rw [writeFile, h.place?_below hfilled hfree hbase hnames, List.dropLast_concat]
  split_ifs
  · simp only [at?_append hfilled.within, kindAt?]
    cases inside.at? (above ++ [name]) with
    | none => rfl
    | some item => cases item <;> rfl
  · rfl

end Below

/-! ## Steps below the folder -/

/-- What a step below the folder at a trail leaves: the folder holds something else, still without
    links, and nothing besides it has changed; on success it holds what was intended, and there is
    success where it is possible. -/
structure Step (disk : Folder) (trail : Trail) (result : Folder × Except DiskFault Unit)
    (intended : Folder → Prop) (possible : Prop) : Prop where
  leaves : ∃ made, Filled disk trail made result.1 ∧ NoLinks made ∧
    (result.2 = .ok () → intended made)
  succeeds : possible → result.2 = .ok ()

section Step

omit [DiskLimits]

variable {above : List String} {name : String} {item : Item}

/-- A step that changes nothing. -/
theorem Step.unchanged (hfilled : Filled disk trail inside after) (hfree : NoLinks inside)
    {outcome : Except DiskFault Unit} {intended : Folder → Prop} {possible : Prop}
    (h : outcome = .ok () → intended inside) (hpossible : possible → outcome = .ok ()) :
    Step disk trail (after, outcome) intended possible :=
  ⟨⟨inside, hfilled, hfree, h⟩, hpossible⟩

theorem Step.imp {result : Folder × Except DiskFault Unit} {intended other : Folder → Prop}
    {possible only : Prop} (h : Step disk trail result intended possible)
    (hintended : ∀ made, intended made → other made) (hpossible : only → possible) :
    Step disk trail result other only := by
  obtain ⟨⟨made, hfilled, hfree, hmade⟩, hsucceeds⟩ := h
  exact ⟨⟨made, hfilled, hfree, fun hok => hintended made (hmade hok)⟩,
    fun honly => hsucceeds (hpossible honly)⟩

/-- The item at a trail has been put into what a folder held. -/
def Added (inside : Folder) (way : Trail) (item : Item) (made : Folder) : Prop :=
  ∀ other, made.kindAt? other = if other = way then some item.kind else inside.kindAt? other

/-- An item that is no link and holds nothing itself, put into a folder that is there. -/
theorem Step.putAt (hfilled : Filled disk trail inside after) (hfree : NoLinks inside)
    (habove : inside.kindAt? above = some .folder)
    (hlast : inside.kindAt? (above ++ [name]) ≠ some .folder)
    (hbare : ∀ within, item = .folder within → within = .empty)
    (hlink : ∀ target, item ≠ .link target) {possible : Prop} :
    Step disk trail (after.putAt item (trail ++ (above ++ [name])), .ok ())
      (Added inside (above ++ [name]) item) possible := by
  have hkinds : Added inside (above ++ [name]) item _ := kindAt?_putAt habove hlast hbare
  refine ⟨⟨_, hfilled.putAt (by simp) item, fun other target hlinked => ?_, fun _ => hkinds⟩,
    fun _ => rfl⟩
  rw [hkinds] at hlinked
  split at hlinked
  · exact hlink target (Item.kind_eq_link_iff.mp (Option.some.inj hlinked))
  · exact hfree other target hlinked

end Step

theorem Step.putNamed {above : List String} {name : String} {item : Item}
    (hfilled : Filled disk trail inside after) (hfree : NoLinks inside)
    (habove : inside.kindAt? above = some .folder)
    (hlast : inside.kindAt? (above ++ [name]) ≠ some .folder)
    (hbare : ∀ within, item = .folder within → within = .empty)
    (hlink : ∀ target, item ≠ .link target) :
    Step disk trail (after.putNamed (trail ++ (above ++ [name])) item)
      (Added inside (above ++ [name]) item) (validName name = true) := by
  have hgetLast : (trail ++ (above ++ [name])).getLast?.getD "" = name := by
    rw [← List.append_assoc, List.getLast?_concat, Option.getD_some]
  rw [Folder.putNamed, hgetLast]
  split
  · exact .putAt hfilled hfree habove hlast hbare hlink
  · next hinvalid => exact .unchanged hfilled hfree (fun hok => nomatch hok) fun h => absurd h hinvalid

/-! ## Ways of folders -/

section Ways

omit [DiskLimits]

/-- There are folders on a way as far as there is anything. -/
def Clear (inside : Folder) (way : Trail) : Prop :=
  ∀ front, front <+: way → inside.kindAt? front = none ∨ inside.kindAt? front = some .folder

theorem Clear.front {longer : Trail} (h : Clear inside longer) (hway : way <+: longer) :
    Clear inside way :=
  fun _ hfront => h _ (hfront.trans hway)

/-- The folders on a way have been added to what a folder held, with nothing else in the way. -/
structure Widened (inside : Folder) (way : Trail) (made : Folder) : Prop where
  kinds : ∀ other, made.kindAt? other
    = if other <+: way then some .folder else inside.kindAt? other
  clear : Clear inside way

/-- Folders that are all there already. -/
theorem widened_self (h : inside.kindAt? way = some .folder) : Widened inside way inside := by
  have hfolder : ∀ other, other <+: way → inside.kindAt? other = some .folder := by
    intro other hfront
    by_cases heq : other = way
    · rw [heq, h]
    · exact kindAt?_eq_folder_above (by rw [h]; simp) hfront heq
  refine ⟨fun other => ?_, fun other hfront => Or.inr (hfolder other hfront)⟩
  split
  · next hfront => exact hfolder other hfront
  · rfl

/-- One folder more, in a folder that was there. -/
theorem widened_of_added {made : Folder} {above : Trail} {name : String}
    (h : inside.kindAt? above = some .folder) (hmissing : inside.kindAt? (above ++ [name]) = none)
    (hadded : Added inside (above ++ [name]) (.folder .empty) made) :
    Widened inside (above ++ [name]) made := by
  have hself := widened_self h
  constructor
  · intro other
    rw [hadded, Item.kind]
    by_cases heq : other = above ++ [name]
    · rw [if_pos heq, if_pos (heq ▸ List.prefix_refl _)]
    · have hiff : other <+: above ++ [name] ↔ other <+: above := by
        rw [List.prefix_concat_iff]
        exact or_iff_right heq
      rw [if_neg heq]
      by_cases hbefore : other <+: above
      · rw [if_pos (hiff.mpr hbefore), hself.kinds, if_pos hbefore]
      · rw [if_neg fun hfront => hbefore (hiff.mp hfront)]
  · intro other hfront
    rcases List.prefix_concat_iff.mp hfront with rfl | hbefore
    · exact Or.inl hmissing
    · exact hself.clear other hbefore

theorem Widened.trans {made wider : Folder} {longer : Trail} (h : Widened inside way made)
    (hwider : Widened made longer wider) (hway : way <+: longer) :
    Widened inside longer wider := by
  constructor
  · intro other
    rw [hwider.kinds]
    split
    · rfl
    · next hother => rw [h.kinds, if_neg fun hbefore => hother (hbefore.trans hway)]
  · intro other hother
    by_cases hbefore : other <+: way
    · exact h.clear other hbefore
    · have hkind := hwider.clear other hother
      rwa [h.kinds, if_neg hbefore] at hkind

end Ways

/-- Folders can be added on a way: the names can be held, and nothing else is in the way. -/
structure Passable (inside : Folder) (way : Trail) : Prop where
  valid : ∀ name ∈ way, validName name = true
  clear : Clear inside way

theorem Passable.front {above : Trail} {name : String} (h : Passable inside (above ++ [name])) :
    Passable inside above :=
  ⟨fun part hmem => h.valid part (List.mem_append_left _ hmem),
    h.clear.front (List.prefix_append _ _)⟩

/-! ## Folders -/

theorem makeFolders_of_folder {top : Folder} {path : List String}
    (h : (top.folder? path).isSome = true) : top.makeFolders path.reverse = (top, .ok ()) := by
  cases hbackwards : path.reverse with
  | nil => rfl
  | cons name backwards =>
    have hpath : (name :: backwards).reverse = path := by rw [← hbackwards, List.reverse_reverse]
    rw [makeFolders, hpath, makeFolder, if_pos h]

section Concat

variable {top : Folder} {above : List String} {name : String}

/-- A folder is added and that is it, unless the folder for it is missing. -/
theorem makeFolders_concat
    (h : (top.makeFolder (base ++ (above ++ [name]))).2 ≠ .error .notFound) :
    top.makeFolders (base ++ (above ++ [name])).reverse
      = top.makeFolder (base ++ (above ++ [name])) := by
  rw [← List.append_assoc] at h ⊢
  rw [List.reverse_concat, makeFolders, ← List.reverse_concat, List.reverse_reverse]
  split
  · next hmissing => exact absurd (by rw [hmissing]) h
  · rfl

/-- When the folder for it is missing, that is added first. -/
theorem makeFolders_concat_of_missing
    (h : top.makeFolder (base ++ (above ++ [name])) = (top, .error .notFound)) :
    top.makeFolders (base ++ (above ++ [name])).reverse =
      match top.makeFolders (base ++ above).reverse with
      | (top, .error fault) => (top, .error fault)
      | (top, .ok ()) => top.makeFolder (base ++ (above ++ [name])) := by
  rw [← List.append_assoc] at h ⊢
  rewrite [List.reverse_concat, makeFolders, ← List.reverse_concat, List.reverse_reverse, h]
  rfl

end Concat

theorem putNamed_ne_notFound (top : Folder) (trail : Trail) (item : Item) :
    (top.putNamed trail item).2 ≠ .error .notFound := by
  rw [putNamed]
  split <;> simp

section Below

variable (h : LeadsToEmpty disk target trail) (hbase : steps base = steps target)

section Concat

variable (hfilled : Filled disk trail inside after) (hfree : NoLinks inside) {above : List String}
  {name : String} (hnames : ∀ part ∈ above ++ [name], isName part = true)
  (hfollow : Followable (base ++ (above ++ [name])))

include h hbase hfilled hfree hnames hfollow

/-- A folder that is missing in one that is there. -/
theorem makeFolder_below_of_missing (hthere : inside.kindAt? above = some .folder)
    (hmissing : inside.kindAt? (above ++ [name]) = none) :
    Step disk trail (after.makeFolder (base ++ (above ++ [name])))
        (Widened inside (above ++ [name])) (validName name = true) ∧
      (after.makeFolder (base ++ (above ++ [name]))).2 ≠ .error .notFound := by
  have hmake := makeFolder_below h hfilled hfree hbase hnames hfollow
  rw [hmissing] at hmake
  dsimp only at hmake
  rw [hmake, if_pos hthere]
  refine ⟨?_, putNamed_ne_notFound _ _ _⟩
  refine (Step.putNamed hfilled hfree hthere (by simp [hmissing])
    (fun _ heq => (Item.folder.inj heq).symm) (fun _ => by simp)).imp (fun made hkinds => ?_) id
  exact widened_of_added hthere hmissing hkinds

/-- Where there is an item already, it is a folder or in the way. -/
theorem makeFolders_below_of_some {kind : ItemKind}
    (hkind : inside.kindAt? (above ++ [name]) = some kind) :
    Step disk trail (after.makeFolders (base ++ (above ++ [name])).reverse)
      (Widened inside (above ++ [name])) (Passable inside (above ++ [name])) := by
  have hmake := makeFolder_below h hfilled hfree hbase hnames hfollow
  rw [hkind] at hmake
  by_cases hfolder : kind = .folder
  · subst hfolder
    rw [makeFolders_concat (by simp [hmake]), hmake]
    exact .unchanged hfilled hfree (fun _ => widened_self hkind) fun _ => rfl
  · have hoccupied : after.makeFolder (base ++ (above ++ [name])) = (after, .error .occupied) := by
      simp only [hmake]
    rw [makeFolders_concat (by simp [hoccupied]), hoccupied]
    refine .unchanged hfilled hfree (fun hok => nomatch hok) fun hpassable => ?_
    have hclear := hpassable.clear _ (List.prefix_refl _)
    rw [hkind] at hclear
    simp [hfolder] at hclear

/-- A folder that is missing in one that is missing too: first that one is added. -/
theorem makeFolders_below_of_missing (hthere : inside.kindAt? above ≠ some .folder)
    (hmissing : inside.kindAt? (above ++ [name]) = none)
    (habove : Step disk trail (after.makeFolders (base ++ above).reverse) (Widened inside above)
      (Passable inside above)) :
    Step disk trail (after.makeFolders (base ++ (above ++ [name])).reverse)
      (Widened inside (above ++ [name])) (Passable inside (above ++ [name])) := by
  have hmake := makeFolder_below h hfilled hfree hbase hnames hfollow
  rw [hmissing] at hmake
  dsimp only at hmake
  rw [if_neg hthere] at hmake
  obtain ⟨⟨made, hfilled', hfree', hwidened⟩, hsucceeds⟩ := habove
  rw [makeFolders_concat_of_missing hmake]
  rcases hfirst : after.makeFolders (base ++ above).reverse with ⟨between, fault | _⟩
  · rw [hfirst] at hfilled' hsucceeds
    exact ⟨⟨made, hfilled', hfree', fun hok => nomatch hok⟩,
      fun hpassable => (nomatch hsucceeds hpassable.front)⟩
  · rw [hfirst] at hfilled' hwidened
    have hkinds : Widened inside above made := hwidened rfl
    have hthere' : made.kindAt? above = some .folder := by
      rw [hkinds.kinds, if_pos (List.prefix_refl _)]
    have hmissing' : made.kindAt? (above ++ [name]) = none := by
      rw [hkinds.kinds, if_neg fun hfront => ?_, hmissing]
      simpa using hfront.length_le
    obtain ⟨hstep, -⟩ :=
      makeFolder_below_of_missing h hbase hfilled' hfree' hnames hfollow hthere' hmissing'
    exact hstep.imp (fun wider hwider => hkinds.trans hwider (List.prefix_append _ _))
      fun hpassable => hpassable.valid name (by simp)

end Concat

include h hbase

/-- Adding the missing folders from the last on adds the folders on the way. -/
theorem makeFolders_below (hfilled : Filled disk trail inside after) (hfree : NoLinks inside)
    (hnames : ∀ name ∈ way, isName name = true) (hfollow : Followable (base ++ way)) :
    Step disk trail (after.makeFolders (base ++ way).reverse) (Widened inside way)
      (Passable inside way) := by
  induction way using List.reverseRecOn with
  | nil =>
    have hthere : (after.folder? (base ++ [])).isSome = true :=
      (isSome_folder?_below h hfilled hfree hbase hnames hfollow).mpr rfl
    rw [makeFolders_of_folder hthere]
    exact .unchanged hfilled hfree (fun _ => widened_self rfl) fun _ => rfl
  | append_singleton above name ih =>
    cases hkind : inside.kindAt? (above ++ [name]) with
    | some kind => exact makeFolders_below_of_some h hbase hfilled hfree hnames hfollow hkind
    | none =>
      by_cases hthere : inside.kindAt? above = some .folder
      · obtain ⟨hstep, hother⟩ :=
          makeFolder_below_of_missing h hbase hfilled hfree hnames hfollow hthere hkind
        rw [makeFolders_concat hother]
        exact hstep.imp (fun _ => id) fun hpassable => hpassable.valid name (by simp)
      · have hshort : Followable (base ++ above) :=
          hfollow.of_sublist ((List.sublist_append_left _ _).append_left base)
        have habove := ih (fun part hmem => hnames part (List.mem_append_left _ hmem)) hshort
        exact makeFolders_below_of_missing h hbase hfilled hfree hnames hfollow hthere hkind habove

end Below

/-! ## Folders that are made sure of -/

section Missing

omit [DiskLimits]

theorem filter_dropWhile_empty (path : List String) :
    (path.dropWhile (· = "")).filter (!stays ·) = path.filter (!stays ·) := by
  induction path with
  | nil => rfl
  | cons part path ih =>
    by_cases hempty : part = ""
    · subst hempty
      rw [List.dropWhile_cons_of_pos (by simp), ih, List.filter_cons_of_neg (by simp [stays])]
    · rw [List.dropWhile_cons_of_neg (by simpa)]

/-- The folders to add are those of the steps, but not the last one before a dot. -/
theorem missingFolders_eq (path : List String) :
    missingFolders path = (steps path).reverse ∨
      missingFolders path = (steps path).dropLast.reverse := by
  have hnames : (path.reverse.dropWhile (· = "")).filter (!stays ·) = (steps path).reverse := by
    rw [filter_dropWhile_empty, List.filter_reverse, steps]
  rw [missingFolders, hnames]
  split
  · right
    rw [List.drop_one, List.tail_reverse]
  · exact Or.inl rfl

theorem steps_of_names (hnames : ∀ name ∈ way, isName name = true) : steps way = way :=
  List.filter_eq_self.mpr fun name hmem => by simp [(isName_iff.mp (hnames name hmem)).1]

/-- All folders on a way of names may have to be added. -/
theorem missingFolders_append (hnames : ∀ name ∈ way, isName name = true) (hne : way ≠ []) :
    missingFolders (base ++ way) = (steps base ++ way).reverse := by
  obtain ⟨above, name, rfl⟩ := (List.eq_nil_or_concat' way).resolve_left hne
  obtain ⟨hempty, hdot⟩ : name ≠ "" ∧ name ≠ "." := by
    simpa [stays] using (isName_iff.mp (hnames name (by simp))).1
  have hbackwards : (base ++ (above ++ [name])).reverse.dropWhile (· = "")
      = (base ++ (above ++ [name])).reverse := by
    rw [← List.append_assoc, List.reverse_concat, List.dropWhile_cons_of_neg (by simpa)]
  rw [missingFolders, hbackwards, if_neg, List.filter_reverse, ← steps, steps_append,
    steps_of_names hnames]
  rw [← List.append_assoc, List.reverse_concat]
  simpa using hdot

end Missing

section Below

variable (h : LeadsToEmpty disk target trail) (hbase : steps base = steps target)
  (hfilled : Filled disk trail inside after) (hfree : NoLinks inside)
  (hnames : ∀ name ∈ way, isName name = true)

include h hbase hfilled hfree hnames

theorem makeFolders_missing_below (hfollow : Followable (base ++ way)) :
    Step disk trail (after.makeFolders (missingFolders (base ++ way))) (Widened inside way)
      (Passable inside way) := by
  have hsublist : (steps base ++ way).Sublist (base ++ way) :=
    List.filter_sublist.append_right way
  have hidem : steps (steps base) = steps target := by
    rw [← hbase, steps, steps, List.filter_filter]
    simp
  have hmake := makeFolders_below h hidem hfilled hfree hnames (hfollow.of_sublist hsublist)
  by_cases hne : way = []
  · subst hne
    rw [List.append_nil] at hmake ⊢
    rcases missingFolders_eq base with hmissing | hmissing
    · rwa [hmissing]
    · have hfront : (steps base).dropLast <+: steps target := hbase ▸ List.dropLast_prefix _
      have hshort : Followable (steps base).dropLast :=
        hfollow.of_sublist ((List.dropLast_sublist _).trans
          (List.filter_sublist.trans (List.sublist_append_left base [])))
      rw [hmissing, makeFolders_of_folder (h.isSome_folder?_front hfilled hshort hfront)]
      exact .unchanged hfilled hfree (fun _ => widened_self rfl) fun _ => rfl
  · rwa [missingFolders_append hnames hne]

/-- Making sure of a folder below the target adds the folders on the way. -/
theorem ensureFolder_below :
    Step disk trail (after.ensureFolder (base ++ way))
      (fun made => Followable (base ++ way) ∧ Widened inside way made)
      (Followable (base ++ way) ∧ (∀ part ∈ base ++ way, '\x00' ∉ part.toList) ∧
        Passable inside way) := by
  rw [ensureFolder]
  by_cases hnul : (base ++ way).any fun part => part.toList.contains '\x00'
  · rw [if_pos hnul]
    refine .unchanged hfilled hfree (fun hok => nomatch hok) ?_
    rintro ⟨-, hclean, -⟩
    obtain ⟨part, hmem, hpart⟩ := List.any_eq_true.mp hnul
    exact absurd (by simpa using hpart) (hclean part hmem)
  · rw [if_neg hnul]
    by_cases hfollow : Followable (base ++ way)
    swap
    · rw [if_pos hfollow]
      exact .unchanged hfilled hfree (fun hok => nomatch hok) fun h => absurd h.1 hfollow
    rw [if_neg (not_not.mpr hfollow)]
    obtain ⟨⟨made, hfilled', hfree', hwidened⟩, hsucceeds⟩ :=
      makeFolders_missing_below h hbase hfilled hfree hnames hfollow
    rcases hmade : after.makeFolders (missingFolders (base ++ way)) with ⟨result, fault | _⟩
    · rw [hmade] at hfilled' hsucceeds
      exact ⟨⟨made, hfilled', hfree', fun hok => nomatch hok⟩, fun h => nomatch hsucceeds h.2.2⟩
    · rw [hmade] at hfilled' hwidened
      have hkinds : Widened inside way made := hwidened rfl
      have hthere : (result.folder? (base ++ way)).isSome = true :=
        (isSome_folder?_below h hfilled' hfree' hbase hnames hfollow).mpr
          (by rw [hkinds.kinds, if_pos (List.prefix_refl _)])
      simp only [if_pos hthere]
      exact ⟨⟨made, hfilled', hfree', fun _ => ⟨hfollow, hkinds⟩⟩, fun _ => rfl⟩

end Below

/-! ## Files -/

/-- Writing a file below the target puts it into a folder that is there. -/
theorem writeFile_step_below (h : LeadsToEmpty disk target trail)
    (hbase : steps base = steps target) (hfilled : Filled disk trail inside after)
    (hfree : NoLinks inside) {above : List String} {name : String}
    (hnames : ∀ part ∈ above ++ [name], isName part = true) (data : Bytes) :
    Step disk trail (after.writeFile (base ++ (above ++ [name])) data)
      (fun made => Followable (base ++ (above ++ [name])) ∧ inside.kindAt? above = some .folder ∧
        inside.kindAt? (above ++ [name]) ≠ some .folder ∧
        Added inside (above ++ [name]) (.file data) made)
      (Followable (base ++ (above ++ [name])) ∧ inside.kindAt? above = some .folder ∧
        inside.kindAt? (above ++ [name]) ≠ some .folder ∧ validName name = true) := by
  rw [writeFile_below h hfilled hfree hbase hnames]
  split_ifs with hboth
  · obtain ⟨hfollow, habove⟩ := hboth
    cases hkind : inside.kindAt? (above ++ [name]) with
    | none =>
      have hlast : inside.kindAt? (above ++ [name]) ≠ some .folder := by simp [hkind]
      exact (Step.putNamed hfilled hfree habove hlast (fun _ heq => by simp at heq)
        (fun _ => by simp)).imp (fun made hadded => ⟨hfollow, habove, by simp, hadded⟩)
          fun hpossible => hpossible.2.2.2
    | some kind =>
      cases kind with
      | file old =>
        have hlast : inside.kindAt? (above ++ [name]) ≠ some .folder := by simp [hkind]
        exact (Step.putAt hfilled hfree habove hlast (fun _ heq => by simp at heq)
          (fun _ => by simp)).imp (fun made hadded => ⟨hfollow, habove, by simp, hadded⟩) id
      | folder =>
        exact .unchanged hfilled hfree (fun hok => nomatch hok) fun hpossible => absurd rfl hpossible.2.2.1
      | link target => exact absurd hkind (hfree _ _)
  · exact .unchanged hfilled hfree (fun hok => nomatch hok) fun hpossible =>
      absurd ⟨hpossible.1, hpossible.2.1⟩ hboth

end Folder

end HashArchive
