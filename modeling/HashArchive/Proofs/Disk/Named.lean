/-
  HashArchive.Proofs.Disk.Named

  Folders as disks hold them: the names in each folder are different, and each is one that a disk
  and a path can hold.  A walk below such a folder comes upon what trails lead to
  (`mem_walked_iff`), and the names on a trail are proper (`WellNamed.proper`).
-/
import Mathlib
import HashArchive.Disk.Lookup
import HashArchive.Path
import HashArchive.Proofs.Disk.Walks

namespace HashArchive

/-- What is below an item, as a walk comes upon it. -/
def Item.walked (above : Trail) : Item → List (Trail × ItemKind)
  | .folder inside => inside.walked above
  | .file _ | .link _ => []

theorem Item.mem_walked_iff {item : Item} {above trail : Trail} {kind : ItemKind}
    (h : ∀ inside, item = .folder inside → ((trail, kind) ∈ inside.walked above ↔
      ∃ names, names ≠ [] ∧ trail = above ++ names ∧ inside.kindAt? names = some kind)) :
    (trail, kind) ∈ item.walked above ↔
      ∃ names, names ≠ [] ∧ trail = above ++ names ∧ item.kindAt? names = some kind := by
  by_cases hfolder : ∃ inside, item = .folder inside
  · obtain ⟨inside, rfl⟩ := hfolder
    exact h inside rfl
  · cases item with
    | folder inside => exact absurd ⟨inside, rfl⟩ hfolder
    | file data => simp +contextual [walked, Item.kindAt?]
    | link target => simp +contextual [walked, Item.kindAt?]

namespace Folder

section Items

variable {folder : Folder} {name : String}

theorem names_cons (name : String) (item : Item) (rest : Folder) :
    (cons name item rest).names = name :: rest.names := by
  cases item <;> rfl

theorem get?_eq_none_of_notMem (h : name ∉ folder.names) : folder.get? name = none := by
  induction folder using cons_induction with
  | empty => rfl
  | cons first item rest _ ih =>
    rw [names_cons, List.mem_cons, not_or] at h
    rw [get?_cons, if_neg (Ne.symm h.1), ih h.2]

theorem walked_cons (above : Trail) (name : String) (item : Item) (rest : Folder) :
    (cons name item rest).walked above
      = (above ++ [name], item.kind) :: (item.walked (above ++ [name]) ++ rest.walked above) := by
  cases item <;> rfl

/-- Nothing is at trails that begin with a name that is not there. -/
theorem kindAt?_cons_eq_none (h : name ∉ folder.names) (names : Trail) :
    folder.kindAt? (name :: names) = none := by
  rw [kindAt?_cons, get?_eq_none_of_notMem h, Option.bind_none]

theorem kindAt?_cons_item (name : String) (item : Item) (rest : Folder) (first : String)
    (names : Trail) : (cons name item rest).kindAt? (first :: names)
      = if name = first then item.kindAt? names else rest.kindAt? (first :: names) := by
  rw [kindAt?_cons, get?_cons]
  split
  · rfl
  · rw [kindAt?_cons]

end Items

/-! ## Names that a disk can hold -/

variable [DiskLimits]

/-- A name that a disk can hold, without a backslash, which paths treat as a separator. -/
def ProperName (name : String) : Prop := validName name = true ∧ '\\' ∉ name.toList

instance (name : String) : Decidable (ProperName name) := inferInstanceAs (Decidable (_ ∧ _))

theorem ProperName.plain {name : String} (h : ProperName name) : Path.Plain name := by
  obtain ⟨hvalid, hbackslash⟩ := h
  obtain ⟨⟨hname, -⟩, hchars⟩ : (isName name = true ∧ _) ∧ _ := by
    simpa only [validName, Bool.and_eq_true] using hvalid
  obtain ⟨hstays, hdots⟩ := isName_iff.mp hname
  obtain ⟨hempty, hdot⟩ : name ≠ "" ∧ name ≠ "." := by simpa [stays] using hstays
  refine ⟨hempty, hdot, hdots, fun c hmem => ?_⟩
  have hslash : c ≠ '/' := by
    rintro rfl
    simpa using List.all_eq_true.mp hchars _ hmem
  have hother : c ≠ '\\' := fun heq => hbackslash (heq ▸ hmem)
  simp [Path.isSeparator, hslash, hother]

/-- All names below a folder are proper, and different in each folder. -/
def WellNamed : Folder → Prop
  | empty => True
  | file name _ rest | link name _ rest => ProperName name ∧ name ∉ rest.names ∧ rest.WellNamed
  | folder name inside rest =>
    ProperName name ∧ name ∉ rest.names ∧ inside.WellNamed ∧ rest.WellNamed

instance decidableWellNamed : (folder : Folder) → Decidable folder.WellNamed
  | empty => inferInstanceAs (Decidable True)
  | file _ _ rest | link _ _ rest =>
    have := decidableWellNamed rest
    inferInstanceAs (Decidable (_ ∧ _ ∧ _))
  | folder _ inside rest =>
    have := decidableWellNamed inside
    have := decidableWellNamed rest
    inferInstanceAs (Decidable (_ ∧ _ ∧ _ ∧ _))

variable {folder : Folder} {name : String} {item : Item} {rest : Folder}

theorem wellNamed_cons :
    (cons name item rest).WellNamed ↔ ProperName name ∧ name ∉ rest.names ∧
      (∀ inside, item = .folder inside → inside.WellNamed) ∧ rest.WellNamed := by
  cases item <;> simp [cons, WellNamed]

/-- What is found in a folder has a proper name, and is well named itself. -/
theorem WellNamed.of_get? (h : folder.WellNamed) (hfound : folder.get? name = some item) :
    ProperName name ∧ ∀ inside, item = .folder inside → inside.WellNamed := by
  induction folder using cons_induction with
  | empty => cases hfound
  | cons first other rest _ ih =>
    obtain ⟨hname, -, hother, hrest⟩ := wellNamed_cons.mp h
    rw [get?_cons] at hfound
    split at hfound
    · next heq =>
      obtain rfl := Option.some.inj hfound
      exact ⟨heq ▸ hname, hother⟩
    · exact ih hrest hfound

/-- All names on a trail to something are proper. -/
theorem WellNamed.proper (h : folder.WellNamed) {trail : Trail} (hfound : folder.at? trail = some item) :
    ∀ name ∈ trail, ProperName name := by
  induction trail generalizing folder with
  | nil => simp
  | cons name trail ih =>
    by_cases hfolder : ∃ inside, folder.get? name = some (.folder inside)
    · obtain ⟨inside, hinside⟩ := hfolder
      obtain ⟨hname, hbelow⟩ := h.of_get? hinside
      rw [at?_cons_of_folder hinside] at hfound
      exact List.forall_mem_cons.mpr ⟨hname, ih (hbelow inside rfl) hfound⟩
    · rw [at?_cons_of_no_folder (not_exists.mp hfolder)] at hfound
      split at hfound
      · next hnil =>
        subst hnil
        exact List.forall_mem_singleton.mpr (h.of_get? hfound).1
      · cases hfound

/-! ## Walks below a folder -/

/-! ## Walks below a folder -/

/-- A walk comes upon what trails lead to. -/
theorem mem_walked_iff (h : folder.WellNamed) {above trail : Trail} {kind : ItemKind} :
    (trail, kind) ∈ folder.walked above ↔
      ∃ names, names ≠ [] ∧ trail = above ++ names ∧ folder.kindAt? names = some kind := by
  induction folder using cons_induction generalizing above with
  | empty =>
    refine iff_of_false (fun hmem => nomatch hmem) ?_
    rintro ⟨names, hne, -, hkind⟩
    rw [kindAt?, at?_empty hne] at hkind
    cases hkind
  | cons name item rest ihInside ih =>
    obtain ⟨-, hnew, hitem, hrest⟩ := wellNamed_cons.mp h
    rw [walked_cons, List.mem_cons, List.mem_append, ih hrest,
      Item.mem_walked_iff fun inside heq => ihInside inside heq (hitem inside heq)]
    constructor
    · rintro (hsame | ⟨names, -, rfl, hkind⟩ | ⟨names, hne, rfl, hkind⟩)
      · obtain ⟨rfl, rfl⟩ := Prod.mk.inj hsame
        refine ⟨[name], by simp, rfl, ?_⟩
        rw [kindAt?_cons_item, if_pos rfl, Item.kindAt?_nil]
      · refine ⟨name :: names, by simp, by simp, ?_⟩
        rw [kindAt?_cons_item, if_pos rfl, hkind]
      · obtain ⟨first, names, rfl⟩ := List.exists_cons_of_ne_nil hne
        refine ⟨first :: names, hne, rfl, ?_⟩
        rw [kindAt?_cons_item, if_neg, hkind]
        rintro rfl
        cases (kindAt?_cons_eq_none hnew names).symm.trans hkind
    · rintro ⟨names, hne, rfl, hkind⟩
      obtain ⟨first, names, rfl⟩ := List.exists_cons_of_ne_nil hne
      rw [kindAt?_cons_item] at hkind
      split at hkind
      · next hfirst =>
        subst hfirst
        cases names with
        | nil =>
          rw [Item.kindAt?_nil] at hkind
          exact Or.inl (by rw [Option.some.inj hkind])
        | cons other names => exact Or.inr (Or.inl ⟨other :: names, by simp, by simp, hkind⟩)
      · exact Or.inr (Or.inr ⟨first :: names, hne, rfl, hkind⟩)

theorem mem_walked_nil_iff (h : folder.WellNamed) {trail : Trail} {kind : ItemKind} :
    (trail, kind) ∈ folder.walked [] ↔ trail ≠ [] ∧ folder.kindAt? trail = some kind := by
  rw [mem_walked_iff h]
  simp only [List.nil_append]
  constructor
  · rintro ⟨names, hne, rfl, hkind⟩
    exact ⟨hne, hkind⟩
  · rintro ⟨hne, hkind⟩
    exact ⟨trail, hne, rfl, hkind⟩

theorem mem_walked_of_file (h : folder.WellNamed) {trail : Trail} {data : Bytes}
    (hfile : folder.at? trail = some (.file data)) : (trail, .file data) ∈ folder.walked [] :=
  (mem_walked_nil_iff h).mpr ⟨ne_nil_of_at?_file hfile, kindAt?_eq_file_iff.mpr hfile⟩

/-- No trail is come upon twice. -/
theorem nodup_walked (h : folder.WellNamed) (above : Trail) :
    ((folder.walked above).map (·.1)).Nodup := by
  induction folder using cons_induction generalizing above with
  | empty => exact List.nodup_nil
  | cons name item rest ihInside ih =>
    obtain ⟨-, hnew, hitem, hrest⟩ := wellNamed_cons.mp h
    -- What is below the first item has longer trails, and behind it no trail begins with its name.
    have hbelow : ∀ trail ∈ (item.walked (above ++ [name])).map (·.1),
        above ++ [name] <+: trail ∧ trail ≠ above ++ [name] := by
      intro trail hmem
      obtain ⟨⟨_, kind⟩, hwalked, rfl⟩ := List.mem_map.mp hmem
      obtain ⟨names, hne, rfl, -⟩ :=
        (Item.mem_walked_iff fun inside heq => mem_walked_iff (hitem inside heq)).mp hwalked
      exact ⟨List.prefix_append _ _, by simpa using hne⟩
    have hbehind : ∀ trail ∈ (rest.walked above).map (·.1), ¬ above ++ [name] <+: trail := by
      intro trail hmem hfront
      obtain ⟨⟨_, kind⟩, hwalked, rfl⟩ := List.mem_map.mp hmem
      obtain ⟨names, hne, rfl, hkind⟩ := (mem_walked_iff hrest).mp hwalked
      obtain ⟨first, names, rfl⟩ := List.exists_cons_of_ne_nil hne
      obtain rfl : name = first := by
        simpa [List.prefix_append_right_inj, List.cons_prefix_cons] using hfront
      cases (kindAt?_cons_eq_none hnew names).symm.trans hkind
    have hinside : ((item.walked (above ++ [name])).map (·.1)).Nodup := by
      cases item with
      | file data => exact List.nodup_nil
      | link target => exact List.nodup_nil
      | folder inside => exact ihInside inside rfl (hitem inside rfl) _
    rw [walked_cons, List.map_cons, List.nodup_cons, List.map_append, List.mem_append, not_or,
      List.nodup_append]
    refine ⟨⟨fun hmem => (hbelow _ hmem).2 rfl, fun hmem => hbehind _ hmem (List.prefix_refl _)⟩,
      hinside, ih hrest above, fun trail hmem other hother heq => ?_⟩
    exact hbehind other hother (heq ▸ (hbelow trail hmem).1)

end Folder

end HashArchive
