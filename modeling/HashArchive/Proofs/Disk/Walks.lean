/-
  HashArchive.Proofs.Disk.Walks

  Where a path leads after changes below the folder that it leads to.  As long as that folder was
  empty, the way to it is what it was, links and all, and plain names go on from there into what
  the folder now holds (`place?_below`).
-/
import Mathlib
import HashArchive.Disk.Lookup
import HashArchive.Proofs.Disk.Folder

namespace HashArchive

namespace Folder

variable {top : Folder} {here : Descent} {links : Nat} {path : List String}

/-! ## Descents -/

namespace Descent

/-- Each folder of the descent is the one that its name leads to in the folder above it. -/
def Leads (top : Folder) : Descent → Prop
  | [] => True
  | (name, within) :: here =>
    Leads top here ∧ (inside top here).get? name = some (.folder within)

@[simp] theorem trail_cons (name : String) (within : Folder) (here : Descent) :
    trail ((name, within) :: here) = trail here ++ [name] := by
  simp [trail]

theorem trail_tail (here : Descent) : trail here.tail = (trail here).dropLast := by
  cases here with
  | nil => rfl
  | cons step here => obtain ⟨name, within⟩ := step; simp

theorem Leads.tail (h : Leads top here) : Leads top here.tail := by
  cases here with
  | nil => exact h
  | cons step here => exact h.1

theorem Leads.at? (h : Leads top here) : top.at? here.trail = some (.folder (here.inside top)) := by
  induction here with
  | nil => rfl
  | cons step here ih =>
    obtain ⟨name, within⟩ := step
    rw [trail_cons, at?_concat (ih h.1), h.2]
    rfl

theorem Leads.kindAt?_concat (h : Leads top here) (name : String) :
    top.kindAt? (here.trail ++ [name]) = ((here.inside top).get? name).map Item.kind := by
  rw [kindAt?, at?_concat h.at?]

end Descent

open Descent

/-! ## Walks down a folder without links -/

theorem isName_iff {part : String} : isName part = true ↔ stays part = false ∧ part ≠ ".." := by
  simp [isName]

theorem walk?_cons_of_name {part : String} (h : isName part = true) :
    walk? top links here (part :: path) =
      match (here.inside top).get? part with
      | some (.folder inside) => walk? top links ((part, inside) :: here) path
      | some (.link target) =>
        match links with
        | 0 => none
        | links + 1 =>
          walk? top links (if target.front? = some '/' then [] else here) (parts target ++ path)
      | _ => if path = [] then some (here.trail ++ [part]) else none := by
  obtain ⟨hstays, hdots⟩ := isName_iff.mp h
  rewrite [walk?, if_neg (by simp [hstays]), if_neg hdots]
  rcases (inside top here).get? part with - | (data | target | within)
  · rfl
  · rfl
  · cases links <;> rfl
  · rfl

/-- In a folder without links, names lead down as long as there are folders for all of them but
    the last. -/
theorem walk?_names (hleads : Leads top here) (hfree : NoLinks (here.inside top))
    {names : List String} (hnames : ∀ name ∈ names, isName name = true) :
    walk? top links here names
      = if (here.inside top).kindAt? names.dropLast = some .folder then some (here.trail ++ names)
        else none := by
  induction names generalizing here with
  | nil => simp [walk?]
  | cons name names ih =>
    rw [walk?_cons_of_name (hnames name List.mem_cons_self)]
    have hrest : ∀ other ∈ names, isName other = true := fun other hmem =>
      hnames other (List.mem_cons_of_mem _ hmem)
    split
    · next within hfound =>
      have hbelow : ∀ names, (here.inside top).kindAt? (name :: names) = within.kindAt? names :=
        fun names => kindAt?_cons_of_folder hfound names
      have hfree' : NoLinks within := fun trail target => hbelow trail ▸ hfree (name :: trail) target
      rw [ih (show Leads top ((name, within) :: here) from ⟨hleads, hfound⟩) hfree' hrest,
        trail_cons, List.append_assoc, List.singleton_append,
        show inside top ((name, within) :: here) = within from rfl]
      cases names with
      | nil => simp
      | cons other names =>
        rw [show (name :: other :: names).dropLast = name :: (other :: names).dropLast from rfl,
          hbelow]
    · next target hfound =>
      exact absurd (by simp [kindAt?, hfound, Item.kind]) (hfree [name] target)
    · next hfolder hlink =>
      cases names with
      | nil => simp
      | cons other names =>
        rw [if_neg (by simp), if_neg]
        rw [kindAt?_eq_folder_iff, List.dropLast_cons_of_ne_nil (by simp),
          at?_cons_of_no_folder hfolder]
        rintro ⟨within, hwithin⟩
        split at hwithin
        · exact hfolder within hwithin
        · cases hwithin

/-! ## Walks to folders -/

/-- The ways of paths to folders, with the links that may still be followed there. -/
inductive Reaches (top : Folder) :
    (links : Nat) → (here : Descent) → (path : List String) → (left : Nat) → (there : Descent) → Prop
  | here (links : Nat) (here : Descent) : Reaches top links here [] links here
  | stay {links left : Nat} {here there : Descent} {part : String} {path : List String}
      (stays : stays part = true) (rest : Reaches top links here path left there) :
      Reaches top links here (part :: path) left there
  | up {links left : Nat} {here there : Descent} {path : List String}
      (rest : Reaches top links here.tail path left there) :
      Reaches top links here (".." :: path) left there
  | down {links left : Nat} {here there : Descent} {part : String} {path : List String}
      {within : Folder} (named : isName part = true)
      (found : (here.inside top).get? part = some (.folder within))
      (rest : Reaches top links ((part, within) :: here) path left there) :
      Reaches top links here (part :: path) left there
  | link {links left : Nat} {here there : Descent} {part : String} {path : List String}
      {target : String} (named : isName part = true)
      (found : (here.inside top).get? part = some (.link target))
      (rest : Reaches top links (if target.front? = some '/' then [] else here)
        (parts target ++ path) left there) :
      Reaches top (links + 1) here (part :: path) left there

/-- A walk that ends at a folder is such a way. -/
theorem exists_reaches {trail : Trail} (h : walk? top links here path = some trail)
    (hleads : Leads top here) (hfolder : top.kindAt? trail = some .folder) :
    ∃ left there, Reaches top links here path left there ∧ Leads top there ∧
      there.trail = trail := by
  have hstart : ∀ {here : Descent} (target : String), Leads top here →
      Leads top (if target.front? = some '/' then [] else here) := by
    intro here target hleads
    split
    · trivial
    · exact hleads
  have hname : ∀ {part : String}, ¬ stays part = true → part ≠ ".." → isName part = true :=
    fun hstays hdots => isName_iff.mpr ⟨by simpa using hstays, hdots⟩
  fun_induction walk? top links here path with
  | case1 links here => exact ⟨links, here, .here links here, hleads, Option.some.inj h⟩
  | case2 links here part path hstays ih =>
    obtain ⟨left, there, hreaches, hthere⟩ := ih h hleads
    exact ⟨left, there, .stay hstays hreaches, hthere⟩
  | case3 links here path _ ih =>
    obtain ⟨left, there, hreaches, hthere⟩ := ih h hleads.tail
    exact ⟨left, there, .up hreaches, hthere⟩
  | case4 links here part path hstays hdots within hfound ih =>
    obtain ⟨left, there, hreaches, hthere⟩ := ih h ⟨hleads, hfound⟩
    exact ⟨left, there, .down (hname hstays hdots) hfound hreaches, hthere⟩
  | case5 => cases h
  | case6 here part path hstays hdots target hfound links start ih =>
    obtain ⟨left, there, hreaches, hthere⟩ := ih h (hstart target hleads)
    exact ⟨left, there, .link (hname hstays hdots) hfound hreaches, hthere⟩
  | case7 links here part _ _ hnone =>
    -- What is no folder may end a walk, but not one that ends at a folder.
    obtain rfl := Option.some.inj h
    obtain ⟨within, hwithin⟩ := kindAt?_eq_folder_iff.mp hfolder
    rw [at?_concat hleads.at?] at hwithin
    exact (hnone within hwithin).elim
  | case8 => cases h

namespace Reaches

variable {left : Nat} {there : Descent}

/-- More parts go on from where the first ones lead. -/
theorem walk?_append (h : Reaches top links here path left there) (more : List String) :
    walk? top links here (path ++ more) = walk? top left there more := by
  induction h with
  | here => rfl
  | stay hstays _ ih => rw [List.cons_append, walk?, if_pos hstays, ih]
  | up _ ih => rw [List.cons_append, walk?, if_neg (by decide), if_pos rfl, ih]
  | down hname hfound _ ih => rw [List.cons_append, walk?_cons_of_name hname, hfound, ← ih]
  | link hname hfound _ ih =>
    rw [List.cons_append, walk?_cons_of_name hname, hfound, ← ih, List.append_assoc]

theorem walk?_eq (h : Reaches top links here path left there) :
    walk? top links here path = some there.trail := by
  have hwalk := h.walk?_append []
  rwa [List.append_nil, show walk? top left there [] = some there.trail from by rw [walk?]] at hwalk

theorem leads (h : Reaches top links here path left there) (hleads : Leads top here) :
    Leads top there := by
  induction h with
  | here => exact hleads
  | stay _ _ ih => exact ih hleads
  | up _ ih => exact ih hleads.tail
  | down _ hfound _ ih => exact ih ⟨hleads, hfound⟩
  | link _ _ _ ih =>
    refine ih ?_
    split
    · trivial
    · exact hleads

/-- What is on the way to a folder is reached as well. -/
theorem front {more : List String} (h : Reaches top links here (path ++ more) left there) :
    ∃ left there, Reaches top links here path left there := by
  generalize hwhole : path ++ more = whole at h
  induction h generalizing path with
  | here links here =>
    obtain ⟨rfl, -⟩ := List.append_eq_nil_iff.mp hwhole
    exact ⟨links, here, .here links here⟩
  | @stay links _ here _ _ _ hstays _ ih =>
    rcases List.append_eq_cons_iff.mp hwhole with ⟨rfl, -⟩ | ⟨path, rfl, hrest⟩
    · exact ⟨links, here, .here links here⟩
    · obtain ⟨left, there, hreaches⟩ := ih hrest.symm
      exact ⟨left, there, .stay hstays hreaches⟩
  | @up links _ here _ _ _ ih =>
    rcases List.append_eq_cons_iff.mp hwhole with ⟨rfl, -⟩ | ⟨path, rfl, hrest⟩
    · exact ⟨links, here, .here links here⟩
    · obtain ⟨left, there, hreaches⟩ := ih hrest.symm
      exact ⟨left, there, .up hreaches⟩
  | @down links _ here _ _ _ _ hname hfound _ ih =>
    rcases List.append_eq_cons_iff.mp hwhole with ⟨rfl, -⟩ | ⟨path, rfl, hrest⟩
    · exact ⟨links, here, .here links here⟩
    · obtain ⟨left, there, hreaches⟩ := ih hrest.symm
      exact ⟨left, there, .down hname hfound hreaches⟩
  | @link links _ here _ _ _ _ hname hfound _ ih =>
    rcases List.append_eq_cons_iff.mp hwhole with ⟨rfl, -⟩ | ⟨path, rfl, rfl⟩
    · exact ⟨links + 1, here, .here (links + 1) here⟩
    · obtain ⟨left, there, hreaches⟩ := ih (List.append_assoc ..)
      exact ⟨left, there, .link hname hfound hreaches⟩

end Reaches

/-! ## Parts that lead nowhere -/

/-- The parts of a path that lead somewhere. -/
def steps (path : List String) : List String := path.filter (!stays ·)

theorem steps_append (path more : List String) : steps (path ++ more) = steps path ++ steps more :=
  List.filter_append ..

/-- Parts that lead nowhere can stand in front. -/
theorem Reaches.stay_append {left : Nat} {there : Descent}
    (h : Reaches top links here path left there) {front : List String}
    (hfront : ∀ part ∈ front, stays part = true) : Reaches top links here (front ++ path) left there := by
  induction front with
  | nil => exact h
  | cons part front ih =>
    exact .stay (hfront part List.mem_cons_self)
      (ih fun other hmem => hfront other (List.mem_cons_of_mem _ hmem))

/-- A path whose steps begin with a step is that step behind parts that lead nowhere. -/
theorem eq_append_of_steps {part : String} {steps' : List String} (h : steps path = part :: steps') :
    ∃ front rest, path = front ++ part :: rest ∧ (∀ part ∈ front, stays part = true) ∧
      steps rest = steps' := by
  obtain ⟨front, rest, rfl, hfront, hpart, hrest⟩ := List.filter_eq_cons_iff.mp h
  exact ⟨front, rest, rfl, by simpa using hfront, hrest⟩

/-- A path of the same steps leads to the same folder. -/
theorem Reaches.of_steps {left : Nat} {there : Descent}
    (h : Reaches top links here path left there) {other : List String}
    (hsteps : steps other = steps path) : Reaches top links here other left there := by
  induction h generalizing other with
  | here links here =>
    have hall : ∀ part ∈ other, stays part = true := by
      simpa [steps, List.filter_eq_nil_iff] using hsteps
    simpa using (Reaches.here links here).stay_append hall
  | stay hstays _ ih => exact ih (by simpa [steps, hstays] using hsteps)
  | up _ ih =>
    obtain ⟨front, rest, rfl, hfront, hrest⟩ := eq_append_of_steps
      (hsteps.trans (List.filter_cons_of_pos (by decide)))
    exact (Reaches.up (ih hrest)).stay_append hfront
  | down hname hfound _ ih =>
    obtain ⟨front, rest, rfl, hfront, hrest⟩ := eq_append_of_steps
      (hsteps.trans (List.filter_cons_of_pos (by simp [(isName_iff.mp hname).1])))
    exact (Reaches.down hname hfound (ih hrest)).stay_append hfront
  | link hname hfound _ ih =>
    obtain ⟨front, rest, rfl, hfront, hrest⟩ := eq_append_of_steps
      (hsteps.trans (List.filter_cons_of_pos (by simp [(isName_iff.mp hname).1])))
    refine (Reaches.link hname hfound (ih ?_)).stay_append hfront
    rw [steps_append, steps_append, hrest]
    rfl

/-! ## Walks to a folder that is filled -/

section Filled

variable {disk inside after : Folder} {trail : Trail}

/-- A way to anywhere is still there when an empty folder has been filled: nothing on it was in
    that folder. -/
theorem Reaches.filled {left : Nat} {there : Descent} (hfilled : Filled disk trail inside after)
    (hempty : disk.at? trail = some (.folder .empty)) (h : Reaches disk links here path left there)
    (hleads : Leads disk here) {later : Descent} (hlater : Leads after later)
    (hsame : later.trail = here.trail) :
    ∃ stop, Reaches after links later path left stop ∧ Leads after stop ∧
      stop.trail = there.trail := by
  have hkept : ∀ {here later : Descent} {part : String} {item : Item}, Leads disk here →
      Leads after later → later.trail = here.trail → (here.inside disk).get? part = some item →
      ((later.inside after).get? part).map Item.kind = some item.kind := by
    intro here later part item hleads hlater hsame hfound
    rw [← hlater.kindAt?_concat, hsame]
    exact hfilled.kindAt?_eq_of_some hempty (by rw [hleads.kindAt?_concat, hfound, Option.map_some])
  induction h generalizing later with
  | here links here => exact ⟨later, .here links later, hlater, hsame⟩
  | stay hstays _ ih =>
    obtain ⟨stop, hreaches, hstop⟩ := ih hleads hlater hsame
    exact ⟨stop, .stay hstays hreaches, hstop⟩
  | up _ ih =>
    obtain ⟨stop, hreaches, hstop⟩ := ih hleads.tail hlater.tail
      (by rw [trail_tail, trail_tail, hsame])
    exact ⟨stop, .up hreaches, hstop⟩
  | @down _ _ here _ part _ within hname hfound _ ih =>
    have hkind : ((later.inside after).get? part).map Item.kind = some .folder :=
      hkept hleads hlater hsame hfound
    obtain ⟨within', hfound'⟩ : ∃ within', (later.inside after).get? part = some (.folder within') := by
      simpa using hkind
    have hlater' : Leads after ((part, within') :: later) := ⟨hlater, hfound'⟩
    obtain ⟨stop, hreaches, hstop⟩ := ih ⟨hleads, hfound⟩ hlater'
      (by rw [trail_cons, trail_cons, hsame])
    exact ⟨stop, .down hname hfound' hreaches, hstop⟩
  | @link _ _ here _ part _ target hname hfound _ ih =>
    have hkind : ((later.inside after).get? part).map Item.kind = some (.link target) :=
      hkept hleads hlater hsame hfound
    have hfound' : (later.inside after).get? part = some (.link target) := by simpa using hkind
    -- An absolute target starts over from the top, of which both descents are empty.
    have hstart : Leads disk (if target.front? = some '/' then [] else here) ∧
        Leads after (if target.front? = some '/' then [] else later) ∧
        Descent.trail (if target.front? = some '/' then [] else later)
          = Descent.trail (if target.front? = some '/' then [] else here) := by
      split
      · exact ⟨trivial, trivial, rfl⟩
      · exact ⟨hleads, hlater, hsame⟩
    obtain ⟨stop, hreaches, hstop⟩ := ih hstart.1 hstart.2.1 hstart.2.2
    exact ⟨stop, .link hname hfound' hreaches, hstop⟩

variable [DiskLimits]

theorem place?_eq_some_iff :
    disk.place? path = some trail ↔
      Followable path ∧ walk? disk DiskLimits.links [] path = some trail := by
  rw [place?]
  split
  · next hfollow => rw [and_iff_right hfollow]
  · next hfollow => exact iff_of_false (fun h => nomatch h) fun h => hfollow h.1

/-- The path leads to an empty folder at the trail. -/
structure LeadsToEmpty (disk : Folder) (path : List String) (trail : Trail) : Prop where
  followable : Followable path
  walk : walk? disk DiskLimits.links [] path = some trail
  empty : disk.at? trail = some (.folder .empty)

theorem LeadsToEmpty.place?_eq (h : LeadsToEmpty disk path trail) :
    disk.place? path = some trail :=
  place?_eq_some_iff.mpr ⟨h.followable, h.walk⟩

/-- A path leads to a folder where its trail does. -/
theorem folder?_eq_some_iff {within : Folder} :
    disk.folder? path = some within ↔
      ∃ trail, disk.place? path = some trail ∧ disk.at? trail = some (.folder within) := by
  rw [folder?, follow?]
  cases disk.place? path with
  | none => simp
  | some trail =>
    rw [Option.bind_eq_bind, Option.bind_some]
    simp only [Option.some.injEq, exists_eq_left']
    cases disk.at? trail with
    | none => simp
    | some item => cases item <;> simp

theorem folder?_singleton {name : String} {within : Folder} (hname : isName name = true)
    (hfollow : Followable [name]) (hfound : disk.get? name = some (.folder within)) :
    disk.folder? [name] = some within := by
  refine folder?_eq_some_iff.mpr ⟨[name], place?_eq_some_iff.mpr ⟨hfollow, ?_⟩, ?_⟩
  · rw [walk?_cons_of_name hname, show (Descent.inside disk []).get? name = _ from hfound]
    dsimp only
    rw [walk?]
    rfl
  · rw [at?_singleton, hfound]

theorem folder?_eq_empty_iff :
    disk.folder? path = some .empty ↔ ∃ trail, LeadsToEmpty disk path trail := by
  rw [folder?_eq_some_iff]
  refine exists_congr fun trail => ⟨?_, fun h => ⟨h.place?_eq, h.empty⟩⟩
  rintro ⟨hplace, hempty⟩
  obtain ⟨hfollow, hwalk⟩ := place?_eq_some_iff.mp hplace
  exact ⟨hfollow, hwalk, hempty⟩

/-- Plain names go on from the folder into what it now holds. -/
theorem LeadsToEmpty.place?_below (h : LeadsToEmpty disk path trail)
    (hfilled : Filled disk trail inside after) (hfree : NoLinks inside) {base names : List String}
    (hbase : steps base = steps path) (hnames : ∀ name ∈ names, isName name = true) :
    after.place? (base ++ names)
      = if Followable (base ++ names) ∧ inside.kindAt? names.dropLast = some .folder then
          some (trail ++ names)
        else none := by
  have hfolder : disk.kindAt? trail = some .folder := kindAt?_eq_folder_iff.mpr ⟨_, h.empty⟩
  obtain ⟨left, there, hreaches, -, hthere⟩ := exists_reaches h.walk trivial hfolder
  obtain ⟨stop, hafter, hleads, hstop⟩ :=
    (hreaches.of_steps hbase).filled hfilled h.empty trivial (show Leads after [] from trivial) rfl
  have hinside : stop.inside after = inside := by
    have hat := hleads.at?
    rw [hstop, hthere, hfilled.within] at hat
    exact (Item.folder.inj (Option.some.inj hat)).symm
  rw [place?, hafter.walk?_append, walk?_names hleads (hinside ▸ hfree) hnames, hinside, hstop, hthere]
  by_cases hfollowable : Followable (base ++ names)
  · simp [hfollowable]
  · simp [hfollowable]

/-- What is on the way to the folder is a folder. -/
theorem LeadsToEmpty.isSome_folder?_front (h : LeadsToEmpty disk path trail)
    (hfilled : Filled disk trail inside after) {front : List String} (hfollow : Followable front)
    (hfront : front <+: steps path) : (after.folder? front).isSome = true := by
  have hfolder : disk.kindAt? trail = some .folder := kindAt?_eq_folder_iff.mpr ⟨_, h.empty⟩
  obtain ⟨left, there, hreaches, -⟩ := exists_reaches h.walk trivial hfolder
  have hidem : steps (steps path) = steps path := by simp [steps, List.filter_filter]
  obtain ⟨stop, hafter, -⟩ :=
    (hreaches.of_steps hidem).filled hfilled h.empty trivial (show Leads after [] from trivial) rfl
  obtain ⟨more, hmore⟩ := hfront
  obtain ⟨_, there', hreaches'⟩ := (hmore ▸ hafter).front
  rw [folder?, follow?, place?, if_pos hfollow, hreaches'.walk?_eq, Option.bind_eq_bind,
    Option.bind_some, (hreaches'.leads trivial).at?]
  rfl

end Filled

end Folder

end HashArchive
